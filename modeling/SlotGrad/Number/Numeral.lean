import SlotGrad.Number.Decimal

/-!
# Numerals

Floating-point numbers as text: the shortest text that reads back, the scientific, general and
fixed forms with a given precision, and reading a decimal numeral.  A number is given by its
64-bit pattern.

## Main definitions

* `Numeral.shortest`, `Numeral.shortestSingle` — the shortest numeral that reads back, positional
  for moderate exponents.
* `Numeral.scientific`, `Numeral.general`, `Numeral.fixed` — the forms with a given precision.
* `Numeral.padLeft`, `Numeral.padRight` — text in a field of a given width.
* `Numeral.read?` — the number written by a decimal numeral, as free-standing text.
-/

namespace SlotGrad
namespace Numeral

/-! ### Fields and digits -/

/-- `n` zeros. -/
def zeros (n : Nat) : String := String.ofList (List.replicate n '0')

/-- The text at the right end of a field of the given width. -/
def padLeft (width : Nat) (s : String) : String :=
  String.ofList (List.replicate (width - s.length) ' ') ++ s

/-- The text at the left end of a field of the given width. -/
def padRight (width : Nat) (s : String) : String :=
  s ++ String.ofList (List.replicate (width - s.length) ' ')

/-- A decimal exponent: a sign and at least two digits. -/
def exponentText (e : Int) : String :=
  let ds := toString e.natAbs
  "e" ++ (if e < 0 then "-" else "+") ++ (if ds.length < 2 then "0" ++ ds else ds)

/-- A number's sign before its magnitude. -/
def signed (negative : Bool) (s : String) : String :=
  if negative then "-" ++ s else s

/-- The names of the three numbers that have no digits. -/
structure SpecialNames where
  /-- Not a number. -/
  nan : String
  /-- Positive infinity; the negative one has a sign before it. -/
  infinity : String

/-- Lower-case abbreviations. -/
def SpecialNames.plain : SpecialNames := ⟨"nan", "inf"⟩

/-! ### Shortest form -/

/-- How a shortest numeral is laid out: numbers from `10 ^ leastPositional` to below
`10 ^ positionalEnd` are written without an exponent. -/
structure ShortestLayout where
  /-- Least decimal exponent that is written positionally. -/
  leastPositional : Int
  /-- First decimal exponent that is written with an exponent again. -/
  positionalEnd : Int
  /-- Names of the numbers without digits. -/
  names : SpecialNames

/-- Positional from a ten-thousandth up to sixteen integral digits. -/
def ShortestLayout.standard : ShortestLayout := ⟨-4, 16, .plain⟩

/-- Digits with the decimal point at the given position, and at least one digit on each side. -/
def positional (ds : List Char) (point : Int) : String :=
  if point ≤ 0 then "0." ++ zeros (-point).toNat ++ String.ofList ds
  else if ds.length ≤ point.toNat then
    String.ofList ds ++ zeros (point.toNat - ds.length) ++ ".0"
  else String.ofList (ds.take point.toNat) ++ "." ++ String.ofList (ds.drop point.toNat)

/-- Digits with the point after the first one, and a decimal exponent. -/
def withExponent (ds : List Char) (point : Int) : String :=
  let fraction := ds.drop 1
  String.ofList (ds.take 1) ++ (if fraction.isEmpty then "" else "." ++ String.ofList fraction)
    ++ exponentText (point - 1)

/-- The shortest numeral that reads back as the number with the given pattern of a format. -/
def shortestIn (fmt : BinaryFormat) (layout : ShortestLayout) (bits : Nat) : String :=
  match fmt.decode bits with
  | .nan => layout.names.nan
  | .infinite negative => signed negative layout.names.infinity
  | .finite negative 0 _ => signed negative "0.0"
  | .finite negative m q =>
    let (num, den) := BinaryFormat.unscale m 1 (-q)
    let magnitude := bits % fmt.signBit
    let (ds, point) := (Decimal.shortest fmt magnitude num den).layout
    signed negative <|
      if layout.leastPositional ≤ point - 1 ∧ point - 1 < layout.positionalEnd then
        positional ds point
      else withExponent ds point

/-- The shortest numeral that reads back as the number with the given 64-bit pattern. -/
def shortest (layout : ShortestLayout) (bits : Nat) : String := shortestIn .double layout bits

/-- The shortest numeral that reads back, in single precision, as the single-precision number with
the given 64-bit pattern. -/
def shortestSingle (layout : ShortestLayout) (bits : Nat) : String :=
  shortestIn .single layout (BinaryFormat.convert .double .single bits)

/-! ### Forms with a given precision -/

/-- Digits of `n`, padded with zeros on the left to the given count. -/
def digitsPadded (count n : Nat) : List Char :=
  let ds := Nat.toDigits 10 n
  List.replicate (count - ds.length) '0' ++ ds

/-- One digit, a point, `precision` digits and an exponent, correctly rounded. -/
def scientificRatio (precision num den : Nat) : String :=
  let d := Decimal.ofRatio precision num den
  let ds := digitsPadded (precision + 1) d.digits
  let e := if num = 0 then 0 else d.exponent + precision
  String.ofList (ds.take 1) ++ (if precision = 0 then "" else "." ++ String.ofList (ds.drop 1))
    ++ exponentText e

/-- `places` digits after the point, correctly rounded. -/
def fixedRatio (places num den : Nat) : String :=
  let ds := digitsPadded (places + 1) (Decimal.fixed places num den).digits
  let whole := ds.length - places
  String.ofList (ds.take whole) ++ (if places = 0 then "" else "." ++ String.ofList (ds.drop whole))

/-- A numeral's fraction without trailing zeros, and without the point if nothing is left. -/
def stripFraction (s : String) : String :=
  let cs := s.toList
  if cs.contains '.' then
    String.ofList ((cs.reverse.dropWhile (· == '0')).dropWhile (· == '.')).reverse
  else s

/-- At most `precision` significant digits: positional for exponents from -4 to below the
precision, otherwise with an exponent; trailing zeros dropped. -/
def generalRatio (precision num den : Nat) : String :=
  let p := max precision 1
  if num = 0 then "0"
  else
    let d := Decimal.ofRatio (p - 1) num den
    let e := d.exponent + (p - 1 : Nat)
    if -4 ≤ e ∧ e < p then stripFraction (fixedRatio ((p : Int) - 1 - e).toNat num den)
    else
      let (ds, point) := d.layout
      withExponent ds point

/-- A form of the magnitude, with the sign and the names of the special numbers around it. -/
def withForm (form : Nat → Nat → String) (bits : Nat) : String :=
  match BinaryFormat.double.decode bits with
  | .nan => "nan"
  | .infinite negative => signed negative "inf"
  | .finite negative m q =>
    let (num, den) := BinaryFormat.unscale m 1 (-q)
    signed negative (form num den)

/-- Scientific form with `precision` digits after the point. -/
def scientific (precision : Nat) (bits : Nat) : String :=
  withForm (scientificRatio precision) bits

/-- General form with at most `precision` significant digits. -/
def general (precision : Nat) (bits : Nat) : String :=
  withForm (generalRatio precision) bits

/-- Fixed form with `places` digits after the point. -/
def fixed (places : Nat) (bits : Nat) : String :=
  withForm (fixedRatio places) bits

/-! ### Reading -/

/-- The number that a run of digits writes. -/
def natOfDigits (ds : List Char) : Nat :=
  ds.foldl (fun n c => 10 * n + (c.toNat - 48)) 0

/-- A run of digits, in which single underscores may stand between digits, and what follows. -/
def takeDigits : List Char → List Char × List Char
  | c :: '_' :: d :: rest =>
    if c.isDigit && d.isDigit then
      let (ds, rest') := takeDigits (d :: rest)
      (c :: ds, rest')
    else if c.isDigit then ([c], '_' :: d :: rest)
    else ([], c :: '_' :: d :: rest)
  | c :: rest =>
    if c.isDigit then
      let (ds, rest') := takeDigits rest
      (c :: ds, rest')
    else ([], c :: rest)
  | [] => ([], [])

/-- An optional sign. -/
def takeSign : List Char → Bool × List Char
  | '-' :: rest => (true, rest)
  | '+' :: rest => (false, rest)
  | rest => (false, rest)

/-- A signed 64-bit pattern from a magnitude pattern. -/
def signedBits (negative : Bool) (magnitude : Nat) : Nat :=
  (if negative then BinaryFormat.double.signBit else 0) + magnitude

/-- The magnitude pattern of a number written by integral digits, fraction digits and a decimal
exponent. -/
def magnitudeOf (whole fraction : List Char) (exponent : Int) : Nat :=
  Decimal.toBits .double ⟨natOfDigits (whole ++ fraction), exponent - fraction.length⟩

/-- The decimal exponent after a numeral's digits: none, or a mark and a signed integer. -/
def readExponent? : List Char → Option Int
  | [] => some 0
  | c :: rest =>
    if c == 'e' || c == 'E' then
      let (negative, rest) := takeSign rest
      match takeDigits rest with
      | ([], _) => none
      | (ds, []) => some (if negative then -(natOfDigits ds : Int) else natOfDigits ds)
      | (_, _ :: _) => none
    else none

/-- The magnitude that an unsigned numeral writes. -/
def readMagnitude? (cs : List Char) : Option Nat :=
  let name := String.ofList (cs.map Char.toLower)
  if name == "inf" || name == "infinity" then some BinaryFormat.double.infinity
  else if name == "nan" then some BinaryFormat.double.quietNaN
  else
    let (whole, rest) := takeDigits cs
    let (fraction, rest) :=
      match rest with
      | '.' :: rest' => takeDigits rest'
      | _ => ([], rest)
    if whole.isEmpty && fraction.isEmpty then none
    else (readExponent? rest).map (magnitudeOf whole fraction)

/-- Blank characters around a free-standing numeral. -/
def isBlank (c : Char) : Bool :=
  c == ' ' || (9 ≤ c.toNat && c.toNat ≤ 13) || (28 ≤ c.toNat && c.toNat ≤ 31)
    || c.toNat == 0x85 || c.toNat == 0xa0

/-- The 64-bit pattern of the number that a free-standing numeral writes: blanks around it, a
sign, digits with an optional point and exponent, or the name of a special number. -/
def read? (s : String) : Option Nat :=
  let cs := (s.toList.dropWhile isBlank).reverse.dropWhile isBlank |>.reverse
  let (negative, rest) := takeSign cs
  (readMagnitude? rest).map (signedBits negative)

end Numeral
end SlotGrad
