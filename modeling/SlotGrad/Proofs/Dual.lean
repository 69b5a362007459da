import SlotGrad.Proofs.Axes
import SlotGrad.Proofs.Exact

/-!
# Dual numbers

A dual number carries a tangent beside its value and propagates it by the rules of differentiation.
The kernels run on dual numbers as they run on any number system; what is decided about a number is
decided about its value, so a run over dual numbers takes the course of the run over the values.

## Main definitions

* `Dual` — dual numbers over a field, and the number system they make.
* `Arith.Hom` — the functions that keep the operations of a number system.

## Main results

* `Dual.hom_re`, `Dual.hom_embed` — the value of a dual number, and constants among them.
* `Dual.additive_eps` — tangents of sums are sums of tangents.
-/

namespace SlotGrad

/-- A value with a tangent. -/
structure Dual (K : Type) where
  /-- The value. -/
  re : K
  /-- The tangent. -/
  eps : K
  deriving DecidableEq

namespace Dual

variable {K : Type} [Field K] [Arith K]

/-- A constant: its tangent is zero. -/
def embed (x : K) : Dual K := ⟨x, 0⟩

omit [Arith K] in
@[simp] theorem re_embed (x : K) : (embed x).re = x := rfl

omit [Arith K] in
@[simp] theorem eps_embed (x : K) : (embed x).eps = 0 := rfl

/-- Dual numbers as a number system: values by the operations of the field's own number system,
tangents by the rules of differentiation, tests by the values. -/
instance : Arith (Dual K) where
  ofInt n := ⟨Arith.ofInt n, 0⟩
  ofRatio n d := ⟨Arith.ofRatio n d, 0⟩
  add x y := ⟨Arith.add x.re y.re, x.eps + y.eps⟩
  sub x y := ⟨Arith.sub x.re y.re, x.eps - y.eps⟩
  mul x y := ⟨Arith.mul x.re y.re, x.re * y.eps + x.eps * y.re⟩
  div x y := ⟨Arith.div x.re y.re, (x.eps * y.re - x.re * y.eps) / (y.re * y.re)⟩
  neg x := ⟨Arith.neg x.re, -x.eps⟩
  pow x p := ⟨Arith.pow x.re p.re,
    p.re * Arith.pow x.re (p.re - 1) * x.eps + Arith.pow x.re p.re * Arith.log x.re * p.eps⟩
  exp x := ⟨Arith.exp x.re, Arith.exp x.re * x.eps⟩
  log x := ⟨Arith.log x.re, x.eps / x.re⟩
  tanh x := ⟨Arith.tanh x.re, (1 - Arith.tanh x.re * Arith.tanh x.re) * x.eps⟩
  less x y := Arith.less x.re y.re
  same x y := Arith.same x.re y.re
  isFinite x := Arith.isFinite x.re
  toSingle x := ⟨Arith.toSingle x.re, x.eps⟩
  truncate x := Arith.truncate x.re

end Dual

/-! ### Functions between number systems -/

/-- A function between number systems that keeps what kernels compute and test. -/
structure Arith.Hom {F G : Type} [Arith F] [Arith G] (φ : F → G) : Prop where
  /-- Integers are kept. -/
  ofInt : ∀ n, φ (Arith.ofInt n) = Arith.ofInt n
  /-- Quotients of integers are kept. -/
  ofRatio : ∀ n d, φ (Arith.ofRatio n d) = Arith.ofRatio n d
  /-- Sums are kept. -/
  add : ∀ x y, φ (Arith.add x y) = Arith.add (φ x) (φ y)
  /-- Differences are kept. -/
  sub : ∀ x y, φ (Arith.sub x y) = Arith.sub (φ x) (φ y)
  /-- Products are kept. -/
  mul : ∀ x y, φ (Arith.mul x y) = Arith.mul (φ x) (φ y)
  /-- Quotients are kept. -/
  div : ∀ x y, φ (Arith.div x y) = Arith.div (φ x) (φ y)
  /-- Opposites are kept. -/
  neg : ∀ x, φ (Arith.neg x) = Arith.neg (φ x)
  /-- Equality is kept. -/
  same : ∀ x y, Arith.same (φ x) (φ y) = Arith.same x y
  /-- Finiteness is kept. -/
  isFinite : ∀ x, Arith.isFinite (φ x) = Arith.isFinite x
  /-- Rounding to single precision is kept. -/
  toSingle : ∀ x, φ (Arith.toSingle x) = Arith.toSingle (φ x)
  /-- Integral parts are kept. -/
  truncate : ∀ x, Arith.truncate (φ x) = Arith.truncate x

namespace Dual

variable {K : Type} [Field K] [Arith K]

/-- A run over dual numbers computes the values. -/
theorem hom_re : Arith.Hom (re : Dual K → K) :=
  ⟨fun _ => rfl, fun _ _ => rfl, fun _ _ => rfl, fun _ _ => rfl, fun _ _ => rfl, fun _ _ => rfl,
    fun _ => rfl, fun _ _ => rfl, fun _ => rfl, fun _ => rfl, fun _ => rfl⟩

/-- What is computed from constants is constant. -/
theorem hom_embed : Arith.Hom (embed : K → Dual K) where
  ofInt _ := rfl
  ofRatio _ _ := rfl
  add x y := congrArg (Dual.mk _) (add_zero 0).symm
  sub x y := congrArg (Dual.mk _) (sub_zero 0).symm
  mul x y := congrArg (Dual.mk _) (by simp)
  div x y := congrArg (Dual.mk _) (by simp)
  neg x := congrArg (Dual.mk _) neg_zero.symm
  same _ _ := rfl
  isFinite _ := rfl
  toSingle _ := rfl
  truncate _ := rfl

/-- Tangents of sums are sums of tangents. -/
theorem additive_eps :
    Additive (eps : Dual K → K) (Elem.add .float64) (Elem.zero .float64) :=
  ⟨rfl, fun _ _ => rfl⟩

end Dual

/-- Sums of exact numbers are sums. -/
theorem ExactArith.additive_id {K : Type} [Field K] [Arith K] [ExactArith K] :
    Additive (id : K → K) (Elem.add .float64) (Elem.zero .float64) :=
  ⟨(ExactArith.ofInt_eq 0).trans Int.cast_zero, ExactArith.add_eq⟩

/-- Outside a grid stands zero. -/
theorem ExactArith.default_eq {K : Type} [Field K] [Arith K] [ExactArith K] : (default : K) = 0 :=
  (ExactArith.ofInt_eq 0).trans Int.cast_zero

end SlotGrad
