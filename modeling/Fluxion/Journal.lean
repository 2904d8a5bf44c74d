/-!
# The journal

The library reports what it does to a journal, entry by entry. The level of the journal decides
which entries it takes: each level includes those below it, and a silent journal takes nothing.

* `Journal.takes` is the decision and `Journal.note` adds an entry.
* `Entry.text` is the wording of an entry. The entry of a finished step tells the time since the
  start, which the reader of the journal supplies.
-/

namespace Fluxion

/-- How much a journal takes. -/
inductive Level where
  | silent
  | minimal
  | moderate
  | detailed
  | verbose
deriving Repr, DecidableEq

namespace Level

/-- The rank of a level. -/
def rank : Level → Nat
  | silent => 0
  | minimal => 1
  | moderate => 2
  | detailed => 3
  | verbose => 4

/-- Whether a level includes another. -/
def includes (l required : Level) : Bool := required.rank ≤ l.rank

end Level

/-- How grave an entry is. -/
inductive Severity where
  | debug
  | info
  | warning
  | error
deriving Repr, DecidableEq

/-- The name of a severity. -/
def Severity.label : Severity → String
  | debug => "DEBUG"
  | info => "INFO"
  | warning => "WARNING"
  | error => "ERROR"

/-- What can be noted. -/
inductive Entry where
  | critical (message : String)
  | warning (message : String)
  | info (level : Level) (message : String)
  | milestone (message : String)
  | step (order size : Int) (detail : String)
  | debug (message : String)
deriving Repr, DecidableEq

namespace Entry

/-- The level that an entry needs. -/
def required : Entry → Level
  | critical _ => .minimal
  | warning _ => .minimal
  | info l _ => l
  | milestone _ => .moderate
  | step .. => .detailed
  | debug _ => .verbose

/-- How grave an entry is. -/
def severity : Entry → Severity
  | critical _ => .error
  | warning _ => .warning
  | info .. => .info
  | milestone _ => .info
  | step .. => .info
  | debug _ => .debug

/-- A number, filled up with spaces in front to a width. -/
def aligned (width : Nat) (n : Int) : String :=
  let s := toString n
  String.ofList (List.replicate (width - s.length) ' ') ++ s

/-- The wording of an entry; `elapsed` is the time since the start. -/
def text (elapsed : String) : Entry → String
  | critical m => "CRITICAL: " ++ m
  | warning m => m
  | info _ m => m
  | milestone m => "MILESTONE: " ++ m
  | step order size detail =>
    "Order " ++ aligned 3 order ++ ": nodes=" ++ toString size ++ " (" ++ elapsed ++ ")" ++
      (if detail.isEmpty then "" else " " ++ detail)
  | debug m => "DEBUG: " ++ m

/-- The line of an entry in a file, without the time of day. -/
def line (elapsed : String) (e : Entry) : String := e.severity.label ++ " - " ++ e.text elapsed

end Entry

/-- A level and the entries taken so far, the last one first. -/
structure Journal where
  level : Level
  taken : List Entry
deriving Repr

namespace Journal

/-- A journal without entries. -/
def opened (level : Level) : Journal := ⟨level, []⟩

/-- Whether a journal takes an entry. -/
def takes (j : Journal) (e : Entry) : Bool :=
  j.level != .silent && j.level.includes e.required

/-- Adds an entry, if the journal takes it. -/
def note (j : Journal) (e : Entry) : Journal :=
  if j.takes e then { j with taken := e :: j.taken } else j

/-- The entries in the order in which they were noted. -/
def entries (j : Journal) : List Entry := j.taken.reverse

end Journal

end Fluxion
