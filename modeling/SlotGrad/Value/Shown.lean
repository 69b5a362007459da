import SlotGrad.Text.Aligned
import SlotGrad.Text.Bracketed
import SlotGrad.Text.Column
import SlotGrad.Text.Quoted
import SlotGrad.Value.Basic

/-!
# Values as text

A value is shown in two ways: in the form that tells values apart, with texts between quotation
marks and elements of tensors under the name of their type, and in the plain form of running text.
The two differ for texts, elements and tensors only; members of sequences always have the first.

Integers are shown with all their digits, also those beyond the length at which the runtime refuses
to turn an integer into text.

## Main definitions

* `Tensor.bracketed` — the elements of a tensor in nested brackets.
* `Value.shown` — the form that tells values apart.
* `Value.plain` — the form of running text.
-/

namespace SlotGrad

variable {F : Type} [Arith F] [Interchange F]

/-- The 64-bit pattern of a number. -/
def pattern (x : F) : Nat := (Interchange.toBits x).toNat

/-- The shortest numeral of a number. -/
def numeral (x : F) : String := Numeral.shortest .standard (pattern x)

/-! ### Elements -/

/-- The format that tells elements of a type apart. -/
def Dtype.format : Dtype → BinaryFormat
  | .float32 => .single
  | _ => .double

/-- The pattern of a number in the format of its type. -/
def Dtype.patternOf (d : Dtype) (x : F) : Nat := BinaryFormat.convert .double d.format (pattern x)

/-- The name of a flag. -/
def flagName (b : Bool) : String := if b then "True" else "False"

/-- An element as plain text. -/
def Elem.plain : (d : Dtype) → Elem F d → String
  | .bool, b => flagName b
  | .int32, n => toString (Int32.toInt n)
  | .int64, n => toString (Int64.toInt n)
  | .float32, x => Numeral.shortestSingle .standard (pattern x)
  | .float64, x => numeral x

/-- An element under the name of its type. -/
def Elem.shown : (d : Dtype) → Elem F d → String
  | .bool, b => "np." ++ flagName b ++ "_"
  | d, x => "np." ++ d.name ++ "(" ++ Elem.plain d x ++ ")"

/-! ### Tensors -/

/-- The magnitude of a number. -/
def magnitude (x : F) : F := if Arith.less x (Arith.ofInt 0) then Arith.neg x else x

/-- The numbers that have digits, zeros left out. -/
def sized (xs : List F) : List F :=
  xs.filter fun x => Arith.isFinite x && !Arith.same x (Arith.ofInt 0)

/-- The magnitudes of the numbers that have digits, zeros left out. -/
def sizes (xs : List F) : List F := (sized xs).map magnitude

/-- The least and the greatest of some numbers. -/
def extremes? : List F → Option (F × F)
  | [] => none
  | x :: rest => some (rest.foldl Arith.minimum x, rest.foldl Arith.maximum x)

/-- Whether numbers of a type differ so much in size, or lie so far from one, that all are written
with a power of ten. -/
def needsPowers (d : Dtype) (xs : List F) : Bool :=
  let own (x : F) : F := if d = .float32 then Arith.toSingle x else x
  match extremes? (sizes xs) with
  | none => false
  | some (least, greatest) =>
    !Arith.less greatest (Arith.ofInt 100000000)
      || Arith.less least (own (Arith.ofRatio 1 10000))
      || Arith.less (Arith.ofInt 1000) (own (Arith.div greatest least))

/-- The elements of a list as words of a column. -/
def Elem.words (rank : Nat) : (d : Dtype) → List (Elem F d) → List String
  | .bool, bs => bs.map fun b => if b && rank ≠ 0 then " True" else flagName b
  | .int32, ns => Column.alignRight (ns.map fun n => toString (Int32.toInt n))
  | .int64, ns => Column.alignRight (ns.map fun n => toString (Int64.toInt n))
  | .float32, xs => column .float32 xs
  | .float64, xs => column .float64 xs
where
  /-- Numbers in a column of their own. -/
  column (d : Dtype) (xs : List F) : List String :=
    let patterns := xs.map d.patternOf
    let c := Column.ofPatterns d.format (needsPowers d xs) patterns
    patterns.map c.word

/-- Tensors with more elements are abridged. -/
def abridgedAbove : Nat := 1000

/-- Members that stay at each end of an abridged axis. -/
def edgeMembers : Nat := 3

/-- Width of a line. -/
def lineWidth : Nat := 75

/-- Whether a coordinate is at one of the ends of its axis. -/
def isEdge (n k : Nat) : Bool := n ≤ 2 * edgeMembers || k < edgeMembers || n - edgeMembers ≤ k

/-- The positions of a shape that are written. -/
def writtenPositions (s : Shape) (edge : Option Nat) : List (List Nat) :=
  if edge.isNone then s.indices
  else s.indices.filter fun i => (s.zip i).all fun (n, k) => isEdge n k

/-- Words at positions in nested brackets. -/
def bracketedWords (s : Shape) (edge : Option Nat) (separator : String) (indent width : Nat)
    (words : List (List Nat × String)) : String :=
  let form : Bracketed.Form := ⟨separator, Bracketed.trimEnd separator, edge⟩
  Bracketed.text form s indent width fun i => ((words.lookup i).getD "")

/-- How many members stay at the ends of the axes of a shape, if it is abridged. -/
def edgeOf (s : Shape) : Option Nat := if abridgedAbove < s.size then some edgeMembers else none

/-- The elements of a tensor in nested brackets. -/
def Tensor.bracketed (separator : String) (indent width : Nat) (t : Tensor F) : String :=
  let edge := edgeOf t.shape
  let positions := writtenPositions t.shape edge
  let words := Elem.words t.rank t.dtype (positions.map fun i => t.grid.at i)
  bracketedWords t.shape edge separator indent width (positions.zip words)

/-- A shape between parentheses. -/
def shownShape (s : Shape) : String :=
  match s with
  | [n] => "(" ++ toString n ++ ",)"
  | _ => "(" ++ ", ".intercalate (s.map fun n => toString n) ++ ")"

/-- The text of an array: bracketed members, and what they do not tell about it. -/
def arrayText (body : String) (s : Shape) (dtype : Option String) : String :=
  let size := s.size
  let extras :=
    (if (size = 0 ∧ s ≠ [0]) ∨ abridgedAbove < size then ["shape=" ++ shownShape s] else [])
    ++ (match dtype with
      | some d => ["dtype=" ++ d]
      | none => [])
  if extras.isEmpty then "array(" ++ body ++ ")"
  else
    let start := "array(" ++ body ++ ","
    let rest := ", ".intercalate extras ++ ")"
    let lastLine := (start.splitOn "\n").getLast?.getD ""
    let spacer := if lineWidth < lastLine.length + rest.length + 1 then "\n      " else " "
    start ++ spacer ++ rest

/-- The name of an element type where the elements do not tell it. -/
def Dtype.untold (d : Dtype) (size : Nat) : Option String :=
  if size = 0 then some d.name
  else match d with
    | .int32 => some d.name
    | .float32 => some d.name
    | _ => none

/-- A tensor in the form that tells it apart. -/
def Tensor.shown (t : Tensor F) : String :=
  arrayText (t.bracketed ", " 7 (lineWidth - 1)) t.shape (t.dtype.untold t.size)

/-- A tensor in the form of running text. -/
def Tensor.plain (t : Tensor F) : String :=
  if t.rank = 0 then Elem.plain t.dtype t.grid.first else t.bracketed " " 1 lineWidth

/-! ### Tensors on a device -/

/-- Whether a number is a whole one. -/
def isWhole (x : F) : Bool := Arith.same x (Arith.ofInt (Arith.truncate x))

/-- How the numbers of a tensor on a device are written. -/
def styleOf (xs : List F) : Aligned.Style :=
  match extremes? (sizes xs) with
  | none => .whole
  | some (least, greatest) =>
    if Arith.less (Arith.ofInt 1000) (Arith.div greatest least)
        || Arith.less (Arith.ofInt 100000000) greatest
        || Arith.less least (Arith.ofRatio 1 10000) then .powers
    else if (sizes xs).all isWhole then .whole
    else .fixed

/-- The elements of a tensor on a device as words, and the width that they are brought to. -/
def Elem.alignedWords : (d : Dtype) → List (Elem F d) → List String × Nat
  | .float32, xs => numbers xs
  | .float64, xs => numbers xs
  | d, xs =>
    let words := xs.map (Elem.plain d)
    (words, Aligned.widthOf words)
where
  /-- Numbers of one style; zeros and numbers without digits do not set the width. -/
  numbers (xs : List F) : List String × Nat :=
    let style := styleOf xs
    let word (x : F) : String := style.word (pattern x)
    (xs.map word, Aligned.widthOf ((sized xs).map word))

/-- What the elements of a tensor on a device do not tell about it. -/
def deviceNotes (s : Shape) (d : Dtype) : List String :=
  let dtype := ["dtype=torch." ++ d.name]
  if s.size = 0 then
    (if s = [0] then [] else ["size=" ++ shownShape s]) ++ if d = .float32 then [] else dtype
  else if d = .float64 ∨ d = .int32 then dtype
  else []

/-- A tensor on a device in the form that tells it apart. -/
def Tensor.shownOnDevice (t : Tensor F) : String :=
  let edge := edgeOf t.shape
  let positions := writtenPositions t.shape edge
  let (words, width) := Elem.alignedWords t.dtype (positions.map fun i => t.grid.at i)
  let table := positions.zip (words.map (Numeral.padLeft width))
  let body := Aligned.text edge t.shape 7 width fun i => (table.lookup i).getD ""
  Aligned.annotate 7 ("tensor(" ++ body) (deviceNotes t.shape t.dtype) ++ ")"

/-! ### Values -/

namespace Value

/-- Texts between the marks of a tuple. -/
def tupleText : List String → String
  | [s] => "(" ++ s ++ ",)"
  | ss => "(" ++ ", ".intercalate ss ++ ")"

/-- Texts between braces. -/
def dictText (ss : List String) : String := "\x7b" ++ ", ".intercalate ss ++ "\x7d"

/-- The name of the element type of an array of objects, from its members. -/
def objectsDtype (members : List (Value F)) : String :=
  let lengths := members.filterMap fun
    | text s => some s.length
    | _ => Option.none
  if !members.isEmpty ∧ lengths.length = members.length then
    "'<U" ++ toString (max 1 (Column.widest lengths)) ++ "'"
  else "object"

/-- An array of objects, given how its members are shown. -/
def objectsText (s : Shape) (dtype : String) (words : List String) : String :=
  let edge := edgeOf s
  let all := s.indices.zip words
  let body := bracketedWords s edge ", " 7 (lineWidth - 1) all
  arrayText body s (some dtype)

mutual

/-- A value in the form that tells it apart. -/
def shown : Value F → String
  | none => "None"
  | flag b => flagName b
  | integer n => toString n
  | real x => numeral x
  | text s => Text.quoted s
  | list xs => "[" ++ ", ".intercalate (shownMembers xs) ++ "]"
  | tuple xs => tupleText (shownMembers xs)
  | dict es => dictText (shownEntries es)
  | slice a b c => "slice" ++ tupleText [shown a, shown b, shown c]
  | ellipsis => "Ellipsis"
  | array t => t.shown
  | scalar d x => Elem.shown d x
  | device t => t.shownOnDevice
  | objects s xs => objectsText s (objectsDtype xs) (shownMembers xs)
  | node h => h.shown
  | function f => f.shown
  | op o => "OpDef(name=" ++ Text.quoted o.name ++ ")"
  | other => "Opaque()"

/-- The members of a sequence, each in the form that tells it apart. -/
def shownMembers : List (Value F) → List String
  | [] => []
  | x :: xs => shown x :: shownMembers xs

/-- The entries of a dictionary, each in the form that tells it apart. -/
def shownEntries : List (Value F × Value F) → List String
  | [] => []
  | (k, v) :: es => (shown k ++ ": " ++ shown v) :: shownEntries es

end

/-- A value in the form of running text. -/
def plain : Value F → String
  | text s => s
  | scalar d x => Elem.plain d x
  | array t => t.plain
  | v => v.shown

end Value
end SlotGrad
