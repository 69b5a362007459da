import SlotGrad.Number.Numeral

/-!
# Numbers in columns

Numbers that are written together share a form: all positional or all with an exponent, with the
points below each other.  At most eight digits follow the point, and no more than are needed to
tell the number apart.

## Main definitions

* `Column.Parts` — the parts of a written number: sign and whole digits, fraction, exponent.
* `Column.positionalParts`, `Column.scientificParts` — the two ways to write one.
* `Column` — the common form of several numbers, with `Column.ofPatterns` and `Column.word`.
* `Column.alignRight` — integers in a column.
-/

namespace SlotGrad

/-- The parts of a written number. -/
structure Column.Parts where
  /-- The sign and the digits before the point. -/
  whole : String
  /-- The digits after the point. -/
  fraction : List Char
  /-- The power of ten. -/
  exponent : Int

/-- The common form of numbers in a column. -/
structure Column where
  /-- The format that tells the numbers apart. -/
  format : BinaryFormat
  /-- Whether a power of ten is written. -/
  scientific : Bool
  /-- The width before the point. -/
  left : Nat
  /-- The width after the point. -/
  right : Nat
  /-- The digits of a power of ten. -/
  exponentDigits : Nat

namespace Column

/-- Digits after the point are cut off here. -/
def places : Nat := 8

/-- Zeros at the end dropped. -/
def trimZeros (ds : List Char) : List Char := (ds.reverse.dropWhile (· == '0')).reverse

/-- The shortest decimal digits of a positive number and the place of the point. -/
def digits (fmt : BinaryFormat) (bits m : Nat) (q : Int) : List Char × Int :=
  let (num, den) := BinaryFormat.unscale m 1 (-q)
  (Decimal.shortest fmt (bits % fmt.signBit) num den).layout

/-- A number without a power of ten. -/
def positionalParts (fmt : BinaryFormat) (bits : Nat) : Option Parts :=
  match fmt.decode bits with
  | .finite negative 0 _ => some ⟨Numeral.signed negative "0", [], 0⟩
  | .finite negative m q =>
    let (ds, point) := digits fmt bits m q
    if (ds.length : Int) - point ≤ places then
      let whole := if point ≤ 0 then ['0']
        else ds.take point.toNat ++ List.replicate (point.toNat - ds.length) '0'
      let fraction := List.replicate (-point).toNat '0' ++ ds.drop point.toNat
      some ⟨Numeral.signed negative (String.ofList whole), fraction, 0⟩
    else
      let (num, den) := BinaryFormat.unscale m 1 (-q)
      let all := Numeral.digitsPadded (places + 1) (Decimal.fixed places num den).digits
      let k := all.length - places
      some ⟨Numeral.signed negative (String.ofList (all.take k)), trimZeros (all.drop k), 0⟩
  | _ => none

/-- A number with one digit before the point and a power of ten. -/
def scientificParts (fmt : BinaryFormat) (bits : Nat) : Option Parts :=
  match fmt.decode bits with
  | .finite negative 0 _ => some ⟨Numeral.signed negative "0", [], 0⟩
  | .finite negative m q =>
    let (ds, point) := digits fmt bits m q
    if ds.length ≤ places + 1 then
      some ⟨Numeral.signed negative (String.ofList (ds.take 1)), ds.drop 1, point - 1⟩
    else
      let (num, den) := BinaryFormat.unscale m 1 (-q)
      let (ds, point) := (Decimal.ofRatio places num den).layout
      some ⟨Numeral.signed negative (String.ofList (ds.take 1)), ds.drop 1, point - 1⟩
  | _ => none

/-- The greatest of some widths. -/
def widest (ws : List Nat) : Nat := ws.foldl max 0

/-- Digits of a power of ten, at least two. -/
def exponentWidth (e : Int) : Nat := max 2 (toString e.natAbs).length

/-- The width before the point that the numbers without digits need, given the width after it. -/
def specialWidth (fmt : BinaryFormat) (right : Nat) (patterns : List Nat) : Nat :=
  widest <| patterns.map fun bits =>
    match fmt.decode bits with
    | .nan => 3 - (right + 1)
    | .infinite negative => (if negative then 4 else 3) - (right + 1)
    | .finite .. => 0

/-- The form for numbers with the given patterns, of which some are written with a power of
ten if they differ too much in size. -/
def ofPatterns (fmt : BinaryFormat) (scientific : Bool) (patterns : List Nat) : Column :=
  if scientific then
    let parts := patterns.filterMap (scientificParts fmt)
    let right := widest (parts.map fun p => p.fraction.length)
    let exponentDigits := widest (parts.map fun p => exponentWidth p.exponent)
    let left := widest (parts.map fun p => p.whole.length)
    let special := specialWidth fmt (exponentDigits + 2 + right) patterns
    ⟨fmt, true, max left special, right, exponentDigits⟩
  else
    let parts := patterns.filterMap (positionalParts fmt)
    let right := widest (parts.map fun p => p.fraction.length)
    let left := widest (parts.map fun p => p.whole.length)
    ⟨fmt, false, max left (specialWidth fmt right patterns), right, 0⟩

/-- The width of a number's text. -/
def width (c : Column) : Nat :=
  c.left + 1 + c.right + (if c.scientific then c.exponentDigits + 2 else 0)

/-- A power of ten with its mark and sign. -/
def exponentText (c : Column) (e : Int) : String :=
  let ds := toString e.natAbs
  "e" ++ (if e < 0 then "-" else "+") ++ Numeral.zeros (c.exponentDigits - ds.length) ++ ds

/-- The text of a number in the column. -/
def word (c : Column) (bits : Nat) : String :=
  match (if c.scientific then scientificParts c.format bits else positionalParts c.format bits) with
  | some p =>
    let fill := List.replicate (c.right - p.fraction.length) (if c.scientific then '0' else ' ')
    Numeral.padLeft c.left p.whole ++ "." ++ String.ofList (p.fraction ++ fill)
      ++ (if c.scientific then c.exponentText p.exponent else "")
  | none =>
    Numeral.padLeft c.width <|
      match c.format.decode bits with
      | .infinite negative => Numeral.signed negative "inf"
      | _ => "nan"

/-- The words of a column of equal width, at its right side. -/
def alignRight (words : List String) : List String :=
  let w := widest (words.map String.length)
  words.map (Numeral.padLeft w)

end Column
end SlotGrad
