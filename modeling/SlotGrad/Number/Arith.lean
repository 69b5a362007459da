import SlotGrad.Number.Numeral

/-!
# Number systems for real elements

Kernels, the store and the engine never name a concrete type of real numbers: they are written
over any type with the operations of `Arith`.  Machine doubles are one instance; an exact field is
another, and what is proved over an exact field is proved of the very definitions that run on
doubles.  What an element looks like as text or bytes is a second class, `Interchange`, that only
the printing and saving modules need.

## Main definitions

* `Arith` — the operations of a number system.
* `Arith.maximum`, `Arith.isNaN` — derived operations.
* `Interchange` — a number system whose elements have 64-bit patterns.
-/

namespace SlotGrad

/-- The operations that kernels need of a type of real numbers. -/
class Arith (F : Type) where
  /-- The number nearest to an integer. -/
  ofInt : Int → F
  /-- The number nearest to the quotient of an integer by a positive natural. -/
  ofRatio : Int → Nat → F
  /-- Addition. -/
  add : F → F → F
  /-- Subtraction. -/
  sub : F → F → F
  /-- Multiplication. -/
  mul : F → F → F
  /-- Division, total: a zero divisor gives whatever the number system has for it. -/
  div : F → F → F
  /-- Negation. -/
  neg : F → F
  /-- Exponentiation. -/
  pow : F → F → F
  /-- The exponential function. -/
  exp : F → F
  /-- The natural logarithm. -/
  log : F → F
  /-- The hyperbolic tangent. -/
  tanh : F → F
  /-- Numerical order. -/
  less : F → F → Bool
  /-- Numerical equality. -/
  same : F → F → Bool
  /-- Whether the element is a number of finite magnitude. -/
  isFinite : F → Bool
  /-- The nearest element of single precision. -/
  toSingle : F → F
  /-- The integral part. -/
  truncate : F → Int

namespace Arith

variable {F : Type} [Arith F]

/-- Whether the element stands for no number: it differs from itself. -/
def isNaN (x : F) : Bool := !same x x

/-- The greater of two elements; an element that is no number wins. -/
def maximum (x y : F) : F :=
  if isNaN x then x else if isNaN y then y else if less y x then x else y

/-- The lesser of two elements; an element that is no number wins. -/
def minimum (x y : F) : F :=
  if isNaN x then x else if isNaN y then y else if less x y then x else y

end Arith

/-- A number system whose elements are exchanged as 64-bit patterns. -/
class Interchange (F : Type) where
  /-- The pattern of an element. -/
  toBits : F → UInt64
  /-- The element of a pattern. -/
  ofBits : UInt64 → F

end SlotGrad
