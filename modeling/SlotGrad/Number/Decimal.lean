import SlotGrad.Number.Binary

/-!
# Decimals nearest to a quotient

A decimal is an integer with a power of ten.  A quotient of naturals has a nearest decimal of any
given number of significant digits, and a bit pattern of a binary format has a shortest decimal
that reads back as the same pattern.

## Main definitions

* `Decimal` — `digits · 10 ^ exponent`.
* `leadingExponent` — the power of ten of a quotient's first significant digit.
* `Decimal.ofRatio` — the nearest decimal with a given number of significant digits.
* `Decimal.shortest` — the shortest decimal that rounds to a given magnitude pattern, and the
  nearest of those.
* `Decimal.toBits` — the magnitude pattern that a decimal rounds to.
-/

namespace SlotGrad

/-- The decimal number `digits · 10 ^ exponent`. -/
structure Decimal where
  /-- The integer of the significant digits. -/
  digits : Nat
  /-- The power of ten that scales it. -/
  exponent : Int
  deriving DecidableEq, Repr

/-- The power of ten of the first significant digit of the positive quotient `num / den`. -/
def leadingExponent (num den : Nat) : Int :=
  if den ≤ num then (decimalLength (num / den) : Int) - 1
  else -(decimalLength ((den + num - 1) / num - 1) : Int)

/-- The quotient `num / den` divided by `10 ^ e`, as a quotient of naturals. -/
def unscaleTen (num den : Nat) (e : Int) : Nat × Nat :=
  if 0 ≤ e then (num, den * Nat.pow 10 e.toNat) else (num * Nat.pow 10 (-e).toNat, den)

namespace Decimal

/-- The decimal as a quotient of naturals. -/
def ratio (d : Decimal) : Nat × Nat :=
  if 0 ≤ d.exponent then (d.digits * Nat.pow 10 d.exponent.toNat, 1)
  else (d.digits, Nat.pow 10 (-d.exponent).toNat)

/-- The magnitude pattern that the decimal rounds to.  A decimal far outside the format's range
is not expanded: its leading digit already decides. -/
def toBits (fmt : BinaryFormat) (d : Decimal) : Nat :=
  let top := d.exponent + decimalLength d.digits
  if d.digits = 0 then 0
  else if 400 < top then fmt.infinity
  else if top < -400 then 0
  else
    let (a, b) := d.ratio
    fmt.ofRatio a b

/-- The decimal of `n + 1` significant digits nearest to the quotient, a tie to even digits. -/
def ofRatio (n : Nat) (num den : Nat) : Decimal :=
  if num = 0 then ⟨0, -n⟩
  else
    let e := leadingExponent num den - n
    let (a, b) := unscaleTen num den e
    let c := roundEven a b
    if c = Nat.pow 10 (n + 1) then ⟨Nat.pow 10 n, e + 1⟩ else ⟨c, e⟩

/-- The decimal with `places` digits after the point nearest to the quotient. -/
def fixed (places : Nat) (num den : Nat) : Decimal :=
  ⟨roundEven (num * Nat.pow 10 places) den, -(places : Int)⟩

/-- Of the two neighbours of the quotient on the grid of `n + 1` significant digits, the nearer
one among those that round to the pattern `bits`. -/
def neighbour? (fmt : BinaryFormat) (bits : Nat) (num den : Nat) (n : Nat) : Option Decimal :=
  let e := leadingExponent num den - n
  let (a, b) := unscaleTen num den e
  let below : Decimal := ⟨a / b, e⟩
  let above : Decimal := ⟨a / b + 1, e⟩
  let nearest : Decimal := ⟨roundEven a b, e⟩
  [nearest, below, above].find? fun d => d.toBits fmt == bits

/-- Significant digits beyond which no finite number of a supported format has any. -/
def maxDigits : Nat := 800

/-- The shortest decimal that rounds to the magnitude pattern `bits`, whose exact value is the
positive quotient `num / den`; of the shortest, the one nearest to the value. -/
def shortest (fmt : BinaryFormat) (bits : Nat) (num den : Nat) : Decimal :=
  ((List.range maxDigits).findSome? (neighbour? fmt bits num den)).getD (ofRatio 16 num den)

/-- The significant digits as text, trailing zeros dropped, and the position of the decimal point
counted from before the first digit. -/
def layout (d : Decimal) : List Char × Int :=
  let ds := Nat.toDigits 10 d.digits
  let point := (ds.length : Int) + d.exponent
  ((ds.reverse.dropWhile (· == '0')).reverse, point)

end Decimal

end SlotGrad
