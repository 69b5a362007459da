import SlotGrad.Kernel.Stretch

/-!
# Elementwise kernels

Each kernel comes with its adjoint: the function that turns the derivative of its output into
derivatives of its operands.  Derivatives of operands that were stretched are summed back to the
operand's shape.

## Main definitions

* `plus`, `minus`, `times`, `rdivide`, `power` with `plusAdjoint` and so on — two operands.
* `square`, `exponential`, `logarithm`, `relu`, `sigmoid`, `hyperbolicTangent` with their
  adjoints — one operand.
* `deal`, `dealAdjoint` — the identity.
-/

namespace SlotGrad
namespace Kernel

variable {F : Type} [Arith F]

/-- The real number one. -/
def one : Value F := .real (Arith.ofInt 1)

/-! ### Two operands -/

/-- The sum. -/
def plus (a b : Value F) : Fallible (Value F) := a.add b

/-- Each operand of a sum takes the output's derivative. -/
def plusAdjoint (a b dy : Value F) : Fallible (Value F) := do
  return .tuple [← unbroadcast dy a, ← unbroadcast dy b]

/-- The difference. -/
def minus (a b : Value F) : Fallible (Value F) := a.sub b

/-- The output's derivative for the minuend, and its negative for the subtrahend. -/
def minusAdjoint (a b dy : Value F) : Fallible (Value F) := do
  let da ← unbroadcast dy a
  let negated ← (Value.ofContents (← dy.contents)).negate
  return .tuple [da, ← unbroadcast negated b]

/-- The product. -/
def times (a b : Value F) : Fallible (Value F) := a.mul b

/-- Each factor takes the output's derivative times the other factor. -/
def timesAdjoint (a b dy : Value F) : Fallible (Value F) := do
  return .tuple [← unbroadcast (← dy.mul b) a, ← unbroadcast (← dy.mul a) b]

/-- The quotient. -/
def rdivide (a b : Value F) : Fallible (Value F) := a.div b

/-- Derivatives of a quotient. -/
def rdivideAdjoint (a b dy : Value F) : Fallible (Value F) := do
  let da ← unbroadcast (← dy.div b) a
  let db ← unbroadcast (← (← (← dy.negate).mul a).div (← b.mul b)) b
  return .tuple [da, db]

/-- The power. -/
def power (x p : Value F) : Fallible (Value F) := x.power p

/-- The value converted to an array of doubles.  The absent value counts as no number. -/
def asDoubles (x : Value F) : Fallible (Value F) := do
  if x.members?.isSome ∨ x.isText then throw .wrongKind
  match x with
  | .none => return .array (.single .float64 (Arith.div (Arith.ofInt 0) (Arith.ofInt 0)))
  | x => match ← x.contents with
    | .numbers t => return .array (t.convert .float64)
    | .texts _ => throw .wrongKind
    | .objects g =>
      let xs ← g.toList.mapM fun v => match v.weak? with
        | some w => w.toReal
        | none => .error .wrongKind
      return .array ⟨.float64, ← Fallible.ofOption .badValue ((Grid.ofList xs).reshape? g.shape)⟩

/-- Derivatives of a power, computed in double precision.  The exponent's is meaningful for
positive bases only. -/
def powerAdjoint (x p dy : Value F) : Fallible (Value F) := do
  let x ← asDoubles x
  let slope ← (← dy.mul p).mul (← x.power (← p.sub (.integer 1)))
  let dx ← unbroadcast slope x
  let growth ← (← dy.mul (← x.power p)).mul (← x.mapReal Arith.log)
  return .tuple [dx, ← unbroadcast growth p]

/-! ### One operand -/

/-- The square. -/
def square (x : Value F) : Fallible (Value F) := x.mul x

/-- Twice the operand times the output's derivative. -/
def squareAdjoint (x dy : Value F) : Fallible (Value F) := do
  (← (Value.integer 2).mul x).mul dy

/-- The exponential function. -/
def exponential (x : Value F) : Fallible (Value F) := x.mapReal Arith.exp

/-- The exponential is its own derivative. -/
def exponentialAdjoint (x dy : Value F) : Fallible (Value F) := do
  (← exponential x).mul dy

/-- The natural logarithm. -/
def logarithm (x : Value F) : Fallible (Value F) := x.mapReal Arith.log

/-- The output's derivative over the operand. -/
def logarithmAdjoint (x dy : Value F) : Fallible (Value F) := dy.div x

/-- The positive part. -/
def relu (x : Value F) : Fallible (Value F) := x.positivePart

/-- The output's derivative where the operand is positive. -/
def reluAdjoint (x dy : Value F) : Fallible (Value F) := do
  dy.mul (← x.isPositive)

/-- The logistic function. -/
def sigmoid (x : Value F) : Fallible (Value F) := do
  one.div (← one.add (← exponential (← x.negate)))

/-- Derivative of the logistic function from its value. -/
def sigmoidAdjoint (x dy : Value F) : Fallible (Value F) := do
  let s ← sigmoid x
  (← dy.mul s).mul (← one.sub s)

/-- The hyperbolic tangent. -/
def hyperbolicTangent (x : Value F) : Fallible (Value F) := x.mapReal Arith.tanh

/-- Derivative of the hyperbolic tangent from its value. -/
def hyperbolicTangentAdjoint (x dy : Value F) : Fallible (Value F) := do
  let t ← hyperbolicTangent x
  dy.mul (← one.sub (← t.mul t))

/-- The identity. -/
def deal (x : Value F) : Fallible (Value F) := .ok x

/-- The identity passes the output's derivative on. -/
def dealAdjoint (_x dy : Value F) : Fallible (Value F) := .ok dy

end Kernel
end SlotGrad
