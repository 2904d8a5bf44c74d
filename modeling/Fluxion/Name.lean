import Fluxion.Text.Quoted

/-!
# Names of variables

A variable is called by a text, or not at all: a slot of the store can be given any text as its
name, or none. Only the well-formed names, a single letter from `a` to `z` or `A` to `Z`, can be
read, bound in a table or given to a new variable.

* `Name.isLetter` decides well-formedness.
* `Name.shown` and `Name.quoted` are the two ways a message spells a name.
-/

namespace Fluxion

/-- What a variable is called. -/
abbrev Name := Option String

namespace Name

/-- Whether a name is one ASCII letter. -/
def isLetter : Name → Bool
  | some s =>
    match s.toList with
    | [c] => c.isAlpha
    | _ => false
  | none => false

/-- A name as it stands in running text. -/
def shown : Name → String
  | some s => s
  | none => "None"

/-- A name between quotes. -/
def quoted : Name → String
  | some s => Text.quote s
  | none => "None"

end Name

end Fluxion
