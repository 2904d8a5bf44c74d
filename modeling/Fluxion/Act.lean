import Fluxion.Fault

/-!
# Acts

An act changes a state and may be refused. A refused act keeps what it did to the state before the
refusal.

* `Act` is the type of acts on a state.
* `Act.attempt` turns a refusal into a result.
* `Act.onMalformed` does something more where an act is refused because a text does not read.
* `Act.within` lets an act on a part of a state act on the whole.
-/

namespace Fluxion

/-- Computations that change a state of type `σ` and may be refused with a fault. -/
abbrev Act (σ : Type) := ExceptT Fault (StateM σ)

namespace Act

variable {σ τ α : Type}

/-- Runs an act; gives its result and the state it leaves. -/
def perform (act : Act σ α) (s : σ) : Except Fault α × σ := act.run s

/-- The act that never refuses: it gives the refusal as its result. -/
def attempt (act : Act σ α) : Act σ (Except Fault α) := fun s =>
  let (r, s) := act.perform s
  (.ok r, s)

/-- Runs an act; where it is refused because a text does not read, runs `handle` and refuses as
before. Other refusals pass. -/
def onMalformed (handle : Complaint → Nat → Act σ Unit) (act : Act σ α) : Act σ α := do
  match ← act.attempt with
  | .ok a => pure a
  | .error (.malformed c p text) =>
    handle c p
    throw (.malformed c p text)
  | .error f => throw f

/-- An act on a part of a state, as an act on the whole. `part` gives the part and how a state is made
from another part. -/
def within (part : σ → τ × (τ → σ)) (act : Act τ α) : Act σ α := fun s =>
  let (t, rebuild) := part s
  let (r, t) := act.perform t
  (r, rebuild t)

/-- The result of a computation that cannot change the state. -/
def ofExcept (r : Except Fault α) : Act σ α := fun s => (r, s)

end Act

end Fluxion
