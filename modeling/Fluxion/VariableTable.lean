import Fluxion.Act
import Fluxion.Bindings
import Fluxion.Numeral

/-!
# The table of variables

A table holds the values of variables in the order in which they were first set. The names stand in a
list, an index tells where each of them is in it, and the value of the name at a place is in the cell of
that place. When all cells are taken, the values move to twice as many. Only a single letter can be set;
anything else is refused and changes nothing.

* `ValueArray` is an array of a fixed size whose cells need not be filled.
* `VariableTable.set` sets one variable, `VariableTable.update` several, up to the first refusal.
* `VariableTable.get?` looks a variable up and `VariableTable.items` lists all.
* `VariableTable.reply` answers a question about a table.
-/

namespace Fluxion

/-! ## Arrays of values -/

/-- An array of a fixed size: each cell holds a value or was never written. -/
structure ValueArray (κ : Type) where
  cells : List (Option κ)
deriving Repr

namespace ValueArray

variable {κ : Type}

/-- Cells that were never written. -/
def blank (size : Nat) : ValueArray κ := ⟨List.replicate size none⟩

/-- The array without cells. -/
instance : Zero (ValueArray κ) := ⟨blank 0⟩

/-- The number of cells. -/
def size (a : ValueArray κ) : Nat := a.cells.length

/-- What a cell holds. -/
def read? (a : ValueArray κ) (i : Nat) : Option κ := a.cells[i]?.join

/-- Fills a cell. -/
def write (a : ValueArray κ) (i : Nat) (value : κ) : ValueArray κ := ⟨a.cells.set i (some value)⟩

/-- A new array of twice the size, with the first `count` cells copied. -/
def doubled (a : ValueArray κ) (count : Nat) : ValueArray κ :=
  ⟨a.cells.take count ++ List.replicate (2 * a.size - count) none⟩

end ValueArray

/-! ## Tables -/

/-- Names in the order in which they were first set, where each of them is, and the values at the same
places. -/
structure VariableTable (κ : Type) where
  names : List Name
  index : List (Name × Nat)
  values : ValueArray κ
deriving Repr

/-- A question about a table. -/
inductive TableQuestion (κ : Type) where
  | get (name : Name) (default : Option κ)
  | item (name : Name)
  | contains (name : Name)
  | size
  | names
  | items
  | capacity

/-- What a caller of a table gets to see. -/
inductive TableAnswer (κ : Type) where
  | done
  | value (v : Option κ)
  | truth (b : Bool)
  | count (n : Nat)
  | names (ns : List Name)
  | items (es : List (Name × κ))

namespace VariableTable

variable {κ : Type}

/-- The capacity of a table unless told otherwise. -/
def defaultCapacity : Int := 4

/-- An empty table. -/
def make (capacity : Int) : Except Fault (VariableTable κ) :=
  if capacity < 1 then .error .noCapacity else .ok ⟨[], [], .blank capacity.toNat⟩

/-- How many values there is room for. -/
def capacity (t : VariableTable κ) : Nat := t.values.size

/-- The position of a name. -/
def position? (t : VariableTable κ) (name : Name) : Option Nat := t.index.lookup name

/-- The value of a name. -/
def get? (t : VariableTable κ) (name : Name) : Option κ := (t.position? name).bind t.values.read?

/-- The value of a name, which must be set. -/
def item (t : VariableTable κ) (name : Name) : Except Fault κ :=
  match t.get? name with
  | some v => .ok v
  | none => .error (.unbound name)

/-- Whether a name is set. -/
def contains (t : VariableTable κ) (name : Name) : Bool := (t.position? name).isSome

/-- The number of names. -/
def size (t : VariableTable κ) : Nat := t.names.length

/-- All names with their values. -/
def items (t : VariableTable κ) : List (Name × κ) :=
  t.names.zipIdx.filterMap fun (name, i) => (t.values.read? i).map fun v => (name, v)

/-- The answer to a question. -/
def reply (t : VariableTable κ) : TableQuestion κ → Except Fault (TableAnswer κ)
  | .get name default => .ok (.value ((t.get? name).or default))
  | .item name => (t.item name).map fun v => .value (some v)
  | .contains name => .ok (.truth (t.contains name))
  | .size => .ok (.count t.size)
  | .names => .ok (.names t.names)
  | .items => .ok (.items t.items)
  | .capacity => .ok (.count t.capacity)

/-- The table with twice the room if it is full. -/
def grown (t : VariableTable κ) : VariableTable κ :=
  if t.names.length = t.capacity then { t with values := t.values.doubled t.names.length } else t

/-- The table with a value at a name. -/
def put (t : VariableTable κ) (name : Name) (value : κ) : VariableTable κ :=
  match t.position? name with
  | some i => { t with values := t.values.write i value }
  | none =>
    let t := t.grown
    let i := t.names.length
    ⟨t.names ++ [name], (name, i) :: t.index, t.values.write i value⟩

/-- Another table, made with the same capacity and then given copies of the names, the index and the
values. -/
def copied (t : VariableTable κ) : Except Fault (VariableTable κ) := do
  let table : VariableTable κ ← make t.capacity
  return { table with names := t.names, index := t.index, values := t.values }

/-- Sets a variable. -/
def set (name : Name) (value : κ) : Act (VariableTable κ) Unit :=
  if name.isLetter then modify (·.put name value) else throw (.invalidName name)

/-- Sets variables one after the other, up to the first refusal. -/
def update : List (Name × κ) → Act (VariableTable κ) Unit
  | [] => pure ()
  | (name, value) :: rest => do
    set name value
    update rest

/-- A table of the usual capacity with variables set. -/
def ofList (pairs : List (Name × κ)) : Except Fault (VariableTable κ) := do
  let t ← make defaultCapacity
  match (update pairs).perform t with
  | (.ok _, t) => .ok t
  | (.error f, _) => .error f

/-- The valuation that a table stands for. -/
def valuation (t : VariableTable κ) : Valuation κ := t.get?

/-- The text of a table. -/
def text [Literal κ] (t : VariableTable κ) : String :=
  "VariableTable(" ++
    ", ".intercalate (t.items.map fun (n, v) => n.shown ++ "=" ++ (Literal.rounded v).brief) ++ ")"

end VariableTable

end Fluxion
