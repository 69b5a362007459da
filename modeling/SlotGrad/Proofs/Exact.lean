import Mathlib.Algebra.Field.Rat
import Mathlib.Data.Rat.Cast.Defs
import SlotGrad.Number.Arith
import SlotGrad.Number.Binary

/-!
# Exact number systems

Over a field the kernels compute without rounding, and what they compute can be compared with
algebra.  A number system is exact if its operations are those of a field; powers, exponentials,
logarithms and the order are left open, since no identity of a field speaks about them.

## Main definitions

* `ExactArith` — the number systems whose operations are those of a field.
* the instances `Arith ℚ`, `Interchange ℚ` and `ExactArith ℚ`.
-/

namespace SlotGrad

/-- A number system whose operations are those of a field. -/
class ExactArith (K : Type) [Field K] [Arith K] : Prop where
  /-- Integers are those of the field. -/
  ofInt_eq : ∀ n : Int, (Arith.ofInt n : K) = n
  /-- Quotients are those of the field. -/
  ofRatio_eq : ∀ (n : Int) (d : Nat), (Arith.ofRatio n d : K) = n / d
  /-- Sums are those of the field. -/
  add_eq : ∀ x y : K, Arith.add x y = x + y
  /-- Differences are those of the field. -/
  sub_eq : ∀ x y : K, Arith.sub x y = x - y
  /-- Products are those of the field. -/
  mul_eq : ∀ x y : K, Arith.mul x y = x * y
  /-- Quotients of elements are those of the field. -/
  div_eq : ∀ x y : K, Arith.div x y = x / y
  /-- Opposites are those of the field. -/
  neg_eq : ∀ x : K, Arith.neg x = -x
  /-- Numerical equality is equality. -/
  same_iff : ∀ x y : K, Arith.same x y = true ↔ x = y
  /-- Every element is a finite number. -/
  isFinite_eq : ∀ x : K, Arith.isFinite x = true
  /-- No precision is lost. -/
  toSingle_eq : ∀ x : K, Arith.toSingle x = x

attribute [simp] ExactArith.ofInt_eq ExactArith.ofRatio_eq ExactArith.add_eq ExactArith.sub_eq
  ExactArith.mul_eq ExactArith.div_eq ExactArith.neg_eq ExactArith.isFinite_eq
  ExactArith.toSingle_eq

/-- The rationals as a number system.  The elementary functions have no rational values; they are
left at their argument. -/
instance : Arith ℚ where
  ofInt n := n
  ofRatio n d := n / d
  add x y := x + y
  sub x y := x - y
  mul x y := x * y
  div x y := x / y
  neg x := -x
  pow x _ := x
  exp x := x
  log x := x
  tanh x := x
  less x y := decide (x < y)
  same x y := decide (x = y)
  isFinite _ := true
  toSingle x := x
  truncate x := x.num.tdiv x.den

/-- A rational is exchanged as the pattern of the double nearest to it. -/
instance : Interchange ℚ where
  toBits x :=
    let magnitude := BinaryFormat.double.ofRatio x.num.natAbs x.den
    (if x < 0 then BinaryFormat.double.signBit + magnitude else magnitude).toUInt64
  ofBits bits :=
    match (BinaryFormat.double.decode bits.toNat).ratio? with
    | some (negative, n, d) => if negative then -(n / d : ℚ) else n / d
    | none => 0

instance : ExactArith ℚ where
  ofInt_eq _ := rfl
  ofRatio_eq _ _ := rfl
  add_eq _ _ := rfl
  sub_eq _ _ := rfl
  mul_eq _ _ := rfl
  div_eq _ _ := rfl
  neg_eq _ := rfl
  same_iff _ _ := decide_eq_true_iff
  isFinite_eq _ := rfl
  toSingle_eq _ := rfl

end SlotGrad
