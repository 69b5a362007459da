import SlotGrad.Array.Shape

/-!
# Bracketed text

A grid of words written as nested brackets.  The innermost brackets fill lines up to a width; every
other axis starts a new line for each of its members, and further ones leave blank lines between.
Long axes may be abridged to a few members at each end.

## Main definitions

* `Bracketed.Form` — separator, width and abridgement.
* `Bracketed.row` — words filled into lines.
* `Bracketed.text` — the text of a grid of words.
-/

namespace SlotGrad
namespace Bracketed

/-- How a grid is written. -/
structure Form where
  /-- What stands between members. -/
  separator : String
  /-- What stands between members at the end of a line. -/
  lineSeparator : String
  /-- Members that stay at each end of an abridged axis; nothing is abridged without it. -/
  edge : Option Nat

/-- The places of an axis that are written, and nothing for the gap. -/
def places (edge : Option Nat) (n : Nat) : List (Option Nat) :=
  match edge with
  | some e =>
    if 2 * e < n then
      (List.range e).map some ++ [none] ++ (List.range e).map fun k => some (n - e + k)
    else (List.range n).map some
  | none => (List.range n).map some

/-- What stands for the members that are left out. -/
def gap : String := "..."

/-- `n` blanks. -/
def blanks (n : Nat) : String := String.ofList (List.replicate n ' ')

/-- A line without blanks at its end. -/
def trimEnd (s : String) : String :=
  String.ofList (s.toList.reverse.dropWhile (· == ' ')).reverse

/-- Finished lines and the line being filled. -/
structure Filling where
  /-- Finished lines, each with its line break. -/
  finished : String
  /-- The line being filled. -/
  line : String

/-- Put a word on the line, or on a new one if it does not fit and the line is not empty. -/
def Filling.add (width indent : Nat) (f : Filling) (word : String) : Filling :=
  if width < f.line.length + word.length ∧ indent < f.line.length then
    ⟨f.finished ++ trimEnd f.line ++ "\n", blanks indent ++ word⟩
  else ⟨f.finished, f.line ++ word⟩

/-- Put a word and a separator on the line. -/
def Filling.addBefore (separator : String) (width indent : Nat) (f : Filling) (word : String) :
    Filling :=
  let g := f.add width indent word
  ⟨g.finished, g.line ++ separator⟩

/-- Text in brackets, without the indentation it starts with. -/
def enclose (indent : Nat) (s : String) : String :=
  "[" ++ String.ofList (s.toList.drop indent) ++ "]"

/-- Words in brackets, filled into lines of the given width that are indented from the second. -/
def row (form : Form) (indent width : Nat) (words : List String) : String :=
  let room := width - 1
  let start : Filling := ⟨"", blanks indent⟩
  let before := words.dropLast.foldl (Filling.addBefore form.separator room indent) start
  let all := match words.getLast? with
    | some w => before.add room indent w
    | none => before
  enclose indent (all.finished ++ all.line)

/-- The text of the part of a grid of words at a position. -/
def part (form : Form) (word : List Nat → String) :
    (s : Shape) → (at_ : List Nat) → (indent width : Nat) → String
  | [], at_, _, _ => word at_
  | [n], at_, indent, width =>
    row form indent width <| (places form.edge n).map fun
      | some k => word (at_ ++ [k])
      | none => gap
  | n :: m :: s, at_, indent, width =>
    let breaks := String.ofList (List.replicate (s.length + 1) '\n')
    let members := (places form.edge n).map fun
      | some k => blanks indent ++ part form word (m :: s) (at_ ++ [k]) (indent + 1) (width - 1)
      | none => blanks indent ++ gap
    enclose indent ((form.lineSeparator ++ breaks).intercalate members)

/-- The text of a grid of words.  Lines from the second on are indented. -/
def text (form : Form) (s : Shape) (indent width : Nat) (word : List Nat → String) : String :=
  if Shape.size s = 0 then "[]" else part form word s [] indent width

end Bracketed
end SlotGrad
