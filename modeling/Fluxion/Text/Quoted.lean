import Fluxion.Text.Printable

/-!
# Quoted text

Messages show a text between quotes, with everything that would not show as itself escaped. The
quote is `'`, or `"` for a text that holds `'` and no `"`, so a quote inside is escaped only when
both kinds occur.

* `quote` writes a text in that form.
-/

namespace Fluxion.Text

/-- The lower-case hexadecimal digits of `n`, padded with zeros to `width`. -/
def hex (width n : Nat) : String :=
  let digits := Nat.toDigits 16 n
  String.ofList (List.replicate (width - digits.length) '0' ++ digits)

/-- The escape of an unprintable character: two, four or eight hexadecimal digits, the fewest that
hold its code point. -/
def escapeCode (c : Char) : String :=
  let n := c.toNat
  if n < 0x100 then "\\x" ++ hex 2 n
  else if n < 0x10000 then "\\u" ++ hex 4 n
  else "\\U" ++ hex 8 n

/-- One character of a quoted text, given the quote around it. -/
def quoteChar (delimiter c : Char) : String :=
  if c = delimiter || c = '\\' then String.ofList ['\\', c]
  else if c = '\n' then "\\n"
  else if c = '\r' then "\\r"
  else if c = '\t' then "\\t"
  else if isPrintable c then String.singleton c
  else escapeCode c

/-- The usual quote. -/
def singleQuote : Char := Char.ofNat 0x27

/-- The quote of a text that holds the usual one. -/
def doubleQuote : Char := Char.ofNat 0x22

/-- The quote that encloses a text. -/
def delimiter (s : List Char) : Char :=
  if s.contains singleQuote && !s.contains doubleQuote then doubleQuote else singleQuote

/-- A text between quotes, with quotes, backslashes and unprintable characters escaped. -/
def quote (s : String) : String :=
  let cs := s.toList
  let d := delimiter cs
  String.singleton d ++ String.join (cs.map (quoteChar d)) ++ String.singleton d

end Fluxion.Text
