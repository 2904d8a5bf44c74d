/-!
# Blank characters

Both notations of the library let blanks stand between tokens. A blank is any character that
separates words in some script: the tabulators and line breaks, the information separators, and
every kind of space, the no-break ones included.

* `isBlank` decides the class.
* `skipBlanks` is the rest of a text after its leading blanks.
-/

namespace Fluxion.Text

/-- Whether a character is a blank. -/
def isBlank (c : Char) : Bool :=
  let n := c.toNat
  (0x09 ≤ n && n ≤ 0x0D) || (0x1C ≤ n && n ≤ 0x20) || n == 0x85 || n == 0xA0 || n == 0x1680 ||
    (0x2000 ≤ n && n ≤ 0x200A) || n == 0x2028 || n == 0x2029 || n == 0x202F || n == 0x205F ||
    n == 0x3000

/-- What follows the leading blanks. -/
def skipBlanks (s : List Char) : List Char := s.dropWhile isBlank

/-- Skipping blanks never lengthens a text. -/
theorem skipBlanks_length_le (s : List Char) : (skipBlanks s).length ≤ s.length :=
  (List.dropWhile_sublist isBlank).length_le

/-- No blank is left at the front. -/
theorem isBlank_head_skipBlanks {s r : List Char} {c : Char} (h : skipBlanks s = c :: r) :
    isBlank c = false := by
  have := List.head?_dropWhile_not isBlank s
  simp_all [skipBlanks]

end Fluxion.Text
