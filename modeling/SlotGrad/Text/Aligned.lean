import SlotGrad.Text.Bracketed
import SlotGrad.Text.Column

/-!
# Words of one width

A grid of words that are brought to one width is written as nested brackets with the same number of
words on every line.  The innermost brackets break between words, every other axis between its
members, and further ones leave blank lines between.  What the members do not tell follows as notes.

## Main definitions

* `Aligned.Style` — how the real numbers of a grid are written.
* `Aligned.text` — the text of a grid of words.
* `Aligned.annotate` — notes after a text.
-/

namespace SlotGrad
namespace Aligned

/-- Width of a line. -/
def lineWidth : Nat := 80

/-- Digits after the point. -/
def places : Nat := 4

/-- How the real numbers of a grid are written. -/
inductive Style where
  /-- As whole numbers with a point at the end. -/
  | whole
  /-- With digits after the point. -/
  | fixed
  /-- With a power of ten. -/
  | powers
  deriving DecidableEq, Repr

/-- Whether the number with a 64-bit pattern has digits. -/
def hasDigits (bits : Nat) : Bool :=
  match BinaryFormat.double.decode bits with
  | .finite .. => true
  | _ => false

/-- The text of the number with a 64-bit pattern. -/
def Style.word (style : Style) (bits : Nat) : String :=
  match style with
  | .whole => Numeral.fixed 0 bits ++ if hasDigits bits then "." else ""
  | .fixed => Numeral.fixed places bits
  | .powers => Numeral.scientific places bits

/-- The width of the words that set it; there is always room for one character. -/
def widthOf (words : List String) : Nat := max 1 (Column.widest (words.map String.length))

/-- A list cut into lists of `n` members; the last may be shorter. -/
def chunks {α : Type} (n : Nat) (xs : List α) : List (List α) :=
  (List.range ((xs.length + n - 1) / n)).map fun k => (xs.drop (k * n)).take n

/-- What stands for the words that are left out of a line. -/
def gap : String := " ..."

/-- Members in brackets, with a line break of some height between them. -/
def stack (height indent : Nat) (members : List String) : String :=
  let breaks := String.ofList (List.replicate height '\n')
  "[" ++ ("," ++ breaks ++ Bracketed.blanks (indent + 1)).intercalate members ++ "]"

/-- Words in brackets, as many on every line as fit. -/
def row (indent width : Nat) (words : List String) : String :=
  let perLine := max 1 ((lineWidth - indent) / (width + 2))
  stack 1 indent ((chunks perLine words).map (", ").intercalate)

/-- The text of the part of a grid of words at a position. -/
def part (edge : Option Nat) (width : Nat) (word : List Nat → String) :
    (s : Shape) → (at_ : List Nat) → (indent : Nat) → String
  | [], at_, _ => word at_
  | [n], at_, indent =>
    row indent width <| (Bracketed.places edge n).map fun
      | some k => word (at_ ++ [k])
      | none => gap
  | n :: m :: s, at_, indent =>
    stack (s.length + 1) indent <| (Bracketed.places edge n).map fun
      | some k => part edge width word (m :: s) (at_ ++ [k]) (indent + 1)
      | none => Bracketed.gap

/-- The text of a grid of words.  Lines from the second on are indented. -/
def text (edge : Option Nat) (s : Shape) (indent width : Nat) (word : List Nat → String) : String :=
  if Shape.size s = 0 then "[]" else part edge width word s [] indent

/-- Notes after a text, each on a new line if it does not fit on the last one. -/
def annotate (indent : Nat) (body : String) (notes : List String) : String :=
  let lastLine := (body.splitOn "\n").getLast?.getD ""
  let add := fun (s, used) (note : String) =>
    if lineWidth < used + note.length + 2 then
      (s ++ ",\n" ++ Bracketed.blanks indent ++ note, indent + note.length)
    else (s ++ ", " ++ note, used + note.length + 2)
  (notes.foldl add (body, lastLine.length + 2)).1

end Aligned
end SlotGrad
