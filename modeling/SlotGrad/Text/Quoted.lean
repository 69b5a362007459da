import SlotGrad.Text.Printable

/-!
# Quoted text

Text between quotation marks, in which characters without a visible form are written by their
code.  Single marks are preferred; text that holds a single mark and no double one is put between
double marks.

## Main definitions

* `Text.hex` — a number in a given count of hexadecimal digits.
* `Text.mark` — the quotation mark that a text is put between.
* `Text.quoted` — the text between its quotation marks.
-/

namespace SlotGrad
namespace Text

/-- A number in at least `width` hexadecimal digits. -/
def hex (width n : Nat) : String :=
  let ds := Nat.toDigits 16 n
  String.ofList (List.replicate (width - ds.length) '0' ++ ds)

/-- The code of a character, by the shortest of the three escapes that holds it. -/
def code (c : Char) : String :=
  let n := c.toNat
  if n < 0x100 then "\\x" ++ hex 2 n
  else if n < 0x10000 then "\\u" ++ hex 4 n
  else "\\U" ++ hex 8 n

/-- The quotation mark that a text is put between. -/
def mark (s : String) : Char :=
  let cs := s.toList
  if cs.contains '\'' && !cs.contains '"' then '"' else '\''

/-- A character inside quotation marks. -/
def escape (mark c : Char) : String :=
  if c = mark ∨ c = '\\' then String.ofList ['\\', c]
  else if c = '\n' then "\\n"
  else if c = '\r' then "\\r"
  else if c = '\t' then "\\t"
  else if isPlainAscii c || (0x7f < c.toNat && isPrintable c) then String.singleton c
  else code c

/-- The text between quotation marks. -/
def quoted (s : String) : String :=
  let m := mark s
  String.singleton m ++ String.join (s.toList.map (escape m)) ++ String.singleton m

end Text
end SlotGrad
