/-!
# Rounding quotients of natural numbers

Every numeral and every conversion between number formats rounds some exact quotient to an
integer.  There is one rule: the nearest integer, and the even one of two equally near.

## Main definitions

* `roundEven num den` — `num / den` rounded to the nearest integer, a tie to the even neighbour.
* `decimalLength n` — the number of decimal digits of `n`.

## Main results

* `roundEven_mul` — an integral quotient is its own rounding.
-/

namespace SlotGrad

/-- The quotient `num / den` rounded to the nearest integer; a tie goes to the even neighbour. -/
def roundEven (num den : Nat) : Nat :=
  let q := num / den
  let r := num % den
  if 2 * r < den then q
  else if den < 2 * r then q + 1
  else q + q % 2

/-- An integral quotient is its own rounding. -/
theorem roundEven_mul (n : Nat) {den : Nat} (h : 0 < den) : roundEven (n * den) den = n := by
  simp [roundEven, Nat.mul_div_cancel _ h, h]

/-- The number of decimal digits of `n`; zero has one. -/
def decimalLength (n : Nat) : Nat :=
  (Nat.toDigits 10 n).length

end SlotGrad
