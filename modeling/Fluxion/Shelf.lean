import Fluxion.VariableTable

/-!
# Tables in memory

A shelf has any number of tables. The names, the index and the values of a table are somewhere in
memory, and setting a variable changes them there, so whoever else refers to the same place sees the
change. Two tables therefore have to keep to places of their own: a copy gets new ones, and so does a
table whose values move to a larger array.

* `Shelf.table?` reads a table, and `Shelf.onTable` lets an act on a table change it where it is.
* `Shelf.make` and `Shelf.copy` add a table.
* `TableCall` is a call on a shelf, and `Shelf.serve` makes calls one after the other.
-/

namespace Fluxion

/-- Where a table has its names, its index and its values. -/
structure TablePlaces where
  names : Nat
  index : Nat
  values : Nat

/-- Tables in the order in which they were made, and what is at the places they refer to. -/
structure Shelf (κ : Type) where
  names : Array (List Name)
  indices : Array (List (Name × Nat))
  values : Array (ValueArray κ)
  tables : Array TablePlaces

/-- Acts on a shelf. -/
abbrev ShelfWork (κ : Type) := Act (Shelf κ)

/-- A call on a shelf. Tables are counted in the order in which they were made. -/
inductive TableCall (κ : Type) where
  | make (capacity : Int)
  | set (table : Nat) (name : Name) (value : κ)
  | update (table : Nat) (pairs : List (Name × κ))
  | copy (table : Nat)
  | ask (table : Nat) (question : TableQuestion κ)

namespace Shelf

variable {κ α : Type}

/-- A shelf without tables. -/
def empty : Shelf κ := ⟨#[], #[], #[], #[]⟩

/-- What is at the places of a table. -/
def tableAt (s : Shelf κ) (p : TablePlaces) : Option (VariableTable κ) := do
  let names ← s.names[p.names]?
  let index ← s.indices[p.index]?
  let values ← s.values[p.values]?
  return ⟨names, index, values⟩

/-- A table. -/
def table? (s : Shelf κ) (i : Nat) : Option (VariableTable κ) := s.tables[i]?.bind s.tableAt

/-- Changes a table where it is. An array does not change its size, so values with another capacity are
in a new one. -/
def rewrite (s : Shelf κ) (i : Nat) (p : TablePlaces) (t : VariableTable κ) : Shelf κ :=
  let s := { s with
    names := s.names.setIfInBounds p.names t.names
    indices := s.indices.setIfInBounds p.index t.index }
  if s.values[p.values]?.map (·.size) = some t.capacity then
    { s with values := s.values.setIfInBounds p.values t.values }
  else
    { s with
      values := s.values.push t.values
      tables := s.tables.setIfInBounds i { p with values := s.values.size } }

/-- An act on a table, if there is one. -/
def onTable (i : Nat) (act : Act (VariableTable κ) α) : ShelfWork κ (Option α) := fun s =>
  match s.tables[i]?, s.table? i with
  | some p, some t =>
    let (r, t) := act.perform t
    (r.map some, s.rewrite i p t)
  | _, _ => (.ok none, s)

/-- Adds a table at new places. -/
def add (t : VariableTable κ) : ShelfWork κ Unit := modify fun s =>
  { names := s.names.push t.names
    indices := s.indices.push t.index
    values := s.values.push t.values
    tables := s.tables.push ⟨s.names.size, s.indices.size, s.values.size⟩ }

/-- Adds an empty table. -/
def make (capacity : Int) : ShelfWork κ Unit := do
  add (← Act.ofExcept (VariableTable.make capacity))

/-- Adds a copy of a table. -/
def copy (i : Nat) : ShelfWork κ (Option Unit) := do
  match (← get).table? i with
  | some t =>
    add (← Act.ofExcept t.copied)
    pure (some ())
  | none => pure none

/-- The answer to a question about a table. -/
def ask (i : Nat) (question : TableQuestion κ) : ShelfWork κ (Option (TableAnswer κ)) := do
  match (← get).table? i with
  | some t => some <$> Act.ofExcept (t.reply question)
  | none => pure none

end Shelf

/-- Makes a call; nothing is answered where there is no such table. -/
def TableCall.act {κ : Type} : TableCall κ → ShelfWork κ (Option (TableAnswer κ))
  | .make capacity => do
    Shelf.make capacity
    pure (some .done)
  | .set i name value => do
    let r ← Shelf.onTable i (VariableTable.set name value)
    pure (r.map fun _ => .done)
  | .update i pairs => do
    let r ← Shelf.onTable i (VariableTable.update pairs)
    pure (r.map fun _ => .done)
  | .copy i => do
    let r ← Shelf.copy i
    pure (r.map fun _ => .done)
  | .ask i question => Shelf.ask i question

/-- Makes calls one after the other, whether they are refused or not. -/
def Shelf.serve {κ : Type} : List (TableCall κ) → ShelfWork κ (List (Except Fault (Option (TableAnswer κ))))
  | [] => pure []
  | call :: calls => do
    let answer ← call.act.attempt
    let later ← serve calls
    pure (answer :: later)

end Fluxion
