import Fluxion.Tree.Evaluation

/-!
# Bindings

Bindings are an ordered map from names to values, where a name may also be bound to nothing. Binding
a name again changes its value and keeps its place.

* `Bindings.insert` binds a name, `Bindings.ofList` binds the names of a list one after the other.
* `Bindings.valuation` is the valuation that bindings stand for.
-/

namespace Fluxion

/-- Names with their values, in order of first binding. -/
abbrev Bindings (κ : Type) := List (Name × Option κ)

namespace Bindings

variable {κ : Type}

/-- Binds a name. -/
def insert (name : Name) (value : Option κ) : Bindings κ → Bindings κ
  | [] => [(name, value)]
  | (n, v) :: bs => if n = name then (n, value) :: bs else (n, v) :: insert name value bs

/-- Binds the names of a list one after the other. -/
def ofList (pairs : List (Name × Option κ)) : Bindings κ :=
  pairs.foldl (fun bs p => insert p.1 p.2 bs) []

/-- The value of a name. -/
def valuation (bs : Bindings κ) : Valuation κ := fun name => (bs.lookup name).join

end Bindings

end Fluxion
