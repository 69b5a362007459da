import SlotGrad.Outcome
import SlotGrad.Saved.Json.Basic

/-!
# Writing JSON

JSON text with one member per line, each level indented by two blanks.  Texts are written in
ASCII: any other character by its code in UTF-16 units.  A real number is the shortest numeral
that reads back.

Writing goes from left to right and stops at the first member without a written form; what was
written before it stays.  An integer has no written form if it has too many digits.

## Main definitions

* `Json.quoted` — text in quotation marks.
* `Json.numberText` — a real number.
* `Json.writeInteger` — an integer, unless it has too many digits.
* `Json.write` — a tree's text, up to the first member without a written form.
-/

namespace SlotGrad
namespace Saved
namespace Json

/-! ### Texts and numbers -/

/-- The code of one UTF-16 unit. -/
def unitCode (n : Nat) : String := "\\u" ++ Text.hex 4 n

/-- The code of a character: one unit, or two for a character beyond the first plane. -/
def charCode (c : Char) : String :=
  let n := c.toNat
  if n < 0x10000 then unitCode n
  else unitCode (0xd800 + (n - 0x10000) / 0x400) ++ unitCode (0xdc00 + (n - 0x10000) % 0x400)

/-- A character inside quotation marks. -/
def escape (c : Char) : String :=
  if c = '"' then "\\\""
  else if c = '\\' then "\\\\"
  else if c = '\n' then "\\n"
  else if c = '\r' then "\\r"
  else if c = '\t' then "\\t"
  else if c = '\x0c' then "\\f"
  else if c = '\x08' then "\\b"
  else if isPlainAscii c then String.singleton c
  else charCode c

/-- Text in quotation marks. -/
def quoted (s : String) : String := "\"" ++ String.join (s.toList.map escape) ++ "\""

/-- The layout of real numbers: like any numeral, except for the names of the special ones. -/
def layout : Numeral.ShortestLayout := ⟨-4, 16, ⟨"NaN", "Infinity"⟩⟩

variable {F : Type} [Arith F] [Interchange F]

/-- A real number. -/
def numberText (x : F) : String := Numeral.shortest layout (pattern x)

/-! ### Trees -/

/-- Text written so far, and the error that stopped writing. -/
abbrev Written := Outcome String

/-- One text after another, unless the first was stopped. -/
def Written.append (a b : Written) : Written :=
  match a.error with
  | none => ⟨a.state ++ b.state, b.error⟩
  | some _ => a

/-- The start of a new line at a level. -/
def newLine (level : Nat) : String := "\n" ++ String.ofList (List.replicate (2 * level) ' ')

/-- The bracket that opens an object. -/
def openBrace : String := "\x7b"

/-- The bracket that closes an object. -/
def closeBrace : String := "\x7d"

/-- An integer, unless it has too many digits. -/
def writeInteger (n : Int) : Written :=
  if Short n then .done (toString n) else .stopped "" (.fault .badValue)

/-- The mark before a member of an array.  It is written together with an integer, so that there is
none before an integer without a written form. -/
def markBefore (mark : String) : Json F → String
  | integer n => if Short n then mark else ""
  | _ => mark

mutual

/-- The text of a tree at a level. -/
def writeAt (level : Nat) : Json F → Written
  | null => .done "null"
  | bool b => .done (if b then "true" else "false")
  | integer n => writeInteger n
  | real x => .done (numberText x)
  | text s => .done (quoted s)
  | array [] => .done "[]"
  | array (x :: xs) =>
    Written.append (.done (markBefore ("[" ++ newLine (level + 1)) x)) <|
      Written.append (writeAt (level + 1) x) <|
        Written.append (writeMembers (level + 1) xs) (.done (newLine level ++ "]"))
  | object [] => .done (openBrace ++ closeBrace)
  | object ((k, x) :: es) =>
    Written.append (.done (openBrace ++ newLine (level + 1) ++ quoted k ++ ": ")) <|
      Written.append (writeAt (level + 1) x) <|
        Written.append (writeEntries (level + 1) es) (.done (newLine level ++ closeBrace))
  | refused e => .stopped "" e
  | cut [] e => .stopped (openBrace ++ newLine (level + 1)) e
  | cut ((k, x) :: es) e =>
    Written.append (.done (openBrace ++ newLine (level + 1) ++ quoted k ++ ": ")) <|
      Written.append (writeAt (level + 1) x) <|
        Written.append (writeEntries (level + 1) es) (.stopped "" e)

/-- The texts of further members, each on a new line. -/
def writeMembers (level : Nat) : List (Json F) → Written
  | [] => .done ""
  | x :: xs =>
    Written.append (.done (markBefore ("," ++ newLine level) x)) <|
      Written.append (writeAt level x) (writeMembers level xs)

/-- The texts of further entries, each on a new line. -/
def writeEntries (level : Nat) : List (String × Json F) → Written
  | [] => .done ""
  | (k, x) :: es =>
    Written.append (.done ("," ++ newLine level ++ quoted k ++ ": ")) <|
      Written.append (writeAt level x) (writeEntries level es)

end

/-- The text of a tree, up to the first member without a written form. -/
def write (j : Json F) : Written := writeAt 0 j

end Json
end Saved
end SlotGrad
