import SlotGrad.Number.Rounding

/-!
# Binary interchange formats

A bit pattern of a binary floating-point format is a sign, a biased exponent and a fraction.
Decoding gives the number it stands for as an integer multiple of a power of two; encoding goes
the other way from an exact quotient of naturals and rounds to nearest, ties to even.  Everything
is exact arithmetic on naturals.

## Main definitions

* `BinaryFormat`, `BinaryFormat.double`, `BinaryFormat.single` — the formats.
* `Decoded`, `BinaryFormat.decode` — the number a pattern stands for.
* `BinaryFormat.ofRatio` — the pattern of the magnitude nearest to a quotient.
* `BinaryFormat.convert` — a pattern of one format as the nearest pattern of another.
-/

namespace SlotGrad

/-- A binary interchange format, by the widths of its two magnitude fields. -/
structure BinaryFormat where
  /-- Stored fraction bits. -/
  fractionBits : Nat
  /-- Exponent bits. -/
  exponentBits : Nat
  deriving DecidableEq, Repr

/-- What a bit pattern stands for. -/
inductive Decoded where
  /-- Not a number. -/
  | nan
  /-- An infinity, with its sign. -/
  | infinite (negative : Bool)
  /-- The finite number `± significand · 2 ^ exponent`. -/
  | finite (negative : Bool) (significand : Nat) (exponent : Int)
  deriving DecidableEq, Repr

namespace BinaryFormat

/-- The 64-bit format. -/
def double : BinaryFormat := ⟨52, 11⟩

/-- The 32-bit format. -/
def single : BinaryFormat := ⟨23, 8⟩

/-- The exponent of the least positive number. -/
def minExponent (fmt : BinaryFormat) : Int :=
  2 - (Nat.pow 2 (fmt.exponentBits - 1) : Nat) - fmt.fractionBits

/-- The pattern of positive infinity, above every finite magnitude. -/
def infinity (fmt : BinaryFormat) : Nat :=
  (Nat.pow 2 fmt.exponentBits - 1) * Nat.pow 2 fmt.fractionBits

/-- The pattern of the canonical not-a-number: the exponent of infinity, leading fraction bit. -/
def quietNaN (fmt : BinaryFormat) : Nat :=
  fmt.infinity + Nat.pow 2 (fmt.fractionBits - 1)

/-- The weight of the sign bit. -/
def signBit (fmt : BinaryFormat) : Nat :=
  Nat.pow 2 (fmt.fractionBits + fmt.exponentBits)

/-- The number a bit pattern stands for. -/
def decode (fmt : BinaryFormat) (bits : Nat) : Decoded :=
  let negative := (bits / fmt.signBit) % 2 == 1
  let e := (bits / Nat.pow 2 fmt.fractionBits) % Nat.pow 2 fmt.exponentBits
  let f := bits % Nat.pow 2 fmt.fractionBits
  if e = Nat.pow 2 fmt.exponentBits - 1 then
    if f = 0 then .infinite negative else .nan
  else if e = 0 then .finite negative f fmt.minExponent
  else .finite negative (f + Nat.pow 2 fmt.fractionBits) (e - 1 + fmt.minExponent)

/-- The quotient `num / den` divided by `2 ^ q`, as a quotient of naturals. -/
def unscale (num den : Nat) (q : Int) : Nat × Nat :=
  if 0 ≤ q then (num, den * Nat.pow 2 q.toNat) else (num * Nat.pow 2 (-q).toNat, den)

/-- The magnitude pattern nearest to `num / den`.  The unit `2 ^ q` is the one that leaves
`fractionBits + 1` significant bits, or the least unit of the format; counting units from the
least one makes a carry of the rounding step into the next binade the right pattern, too. -/
def ofRatio (fmt : BinaryFormat) (num den : Nat) : Nat :=
  if num = 0 then 0
  else
    let k : Int := (num.log2 : Int) - den.log2
    let q₀ := max (k - 1 - fmt.fractionBits) fmt.minExponent
    let (a, b) := unscale num den q₀
    let q := if Nat.pow 2 (fmt.fractionBits + 1) ≤ a / b then q₀ + 1 else q₀
    let (a, b) := unscale num den q
    min ((q - fmt.minExponent).toNat * Nat.pow 2 fmt.fractionBits + roundEven a b) fmt.infinity

/-- The pattern of a decoded number, rounded to the format. -/
def encode (fmt : BinaryFormat) : Decoded → Nat
  | .nan => fmt.quietNaN
  | .infinite negative => (if negative then fmt.signBit else 0) + fmt.infinity
  | .finite negative m q =>
    let magnitude :=
      if 0 ≤ q then fmt.ofRatio (m * Nat.pow 2 q.toNat) 1
      else fmt.ofRatio m (Nat.pow 2 (-q).toNat)
    (if negative then fmt.signBit else 0) + magnitude

/-- A pattern of one format as the nearest pattern of another. -/
def convert (source target : BinaryFormat) (bits : Nat) : Nat :=
  target.encode (source.decode bits)

end BinaryFormat

/-- A decoded finite number as a sign and a quotient of naturals. -/
def Decoded.ratio? : Decoded → Option (Bool × Nat × Nat)
  | .finite negative m q =>
    if 0 ≤ q then some (negative, m * Nat.pow 2 q.toNat, 1)
    else some (negative, m, Nat.pow 2 (-q).toNat)
  | _ => none

end SlotGrad
