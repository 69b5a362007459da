import SlotGrad.Number.Arith

/-!
# Element types

Tensors hold flags, machine integers of 32 or 64 bits, or real numbers of single or double
precision.  Two element types have a common one that both convert to; a plain number of the host
program is *weak*: it takes the type of the tensor it meets and raises it only to the next sort
(flag, integer, real).

## Main definitions

* `Dtype`, `Dtype.common` — the element types and the common type of two.
* `Elem F d` — the elements of type `d` over the number system `F`.
* `Elem.convert` — conversion of one element to another type.
* `WeakSort`, `Dtype.withWeak` — the sorts of weak numbers and the type one raises a tensor to.
-/

namespace SlotGrad

/-- The element types of tensors. -/
inductive Dtype where
  /-- Flags. -/
  | bool
  /-- Machine integers of 32 bits. -/
  | int32
  /-- Machine integers of 64 bits. -/
  | int64
  /-- Real numbers of single precision. -/
  | float32
  /-- Real numbers of double precision. -/
  | float64
  deriving DecidableEq, Repr, Inhabited

namespace Dtype

/-- The name of an element type. -/
def name : Dtype → String
  | bool => "bool"
  | int32 => "int32"
  | int64 => "int64"
  | float32 => "float32"
  | float64 => "float64"

/-- The element type of a name. -/
def ofName? (s : String) : Option Dtype :=
  [bool, int32, int64, float32, float64].find? fun d => d.name == s

/-- Whether the elements are real numbers. -/
def isReal : Dtype → Bool
  | float32 => true
  | float64 => true
  | _ => false

/-- Whether the elements are machine integers. -/
def isInteger : Dtype → Bool
  | int32 => true
  | int64 => true
  | _ => false

/-- The bytes that one element takes. -/
def itemSize : Dtype → Nat
  | bool => 1
  | int32 => 4
  | int64 => 8
  | float32 => 4
  | float64 => 8

/-- The least type that both types convert to without losing a value, except that integers of 64
bits convert to doubles.  Single precision cannot hold integers of 32 bits. -/
def common : Dtype → Dtype → Dtype
  | bool, d => d
  | d, bool => d
  | int32, int32 => int32
  | int32, int64 => int64
  | int64, int32 => int64
  | int64, int64 => int64
  | float32, float32 => float32
  | _, _ => float64

theorem common_comm (a b : Dtype) : common a b = common b a := by
  cases a <;> cases b <;> rfl

theorem common_assoc (a b c : Dtype) : common (common a b) c = common a (common b c) := by
  cases a <;> cases b <;> cases c <;> rfl

@[simp] theorem common_self (a : Dtype) : common a a = a := by cases a <;> rfl

/-- The type in which quotients and transcendental functions are computed. -/
def toReal (d : Dtype) : Dtype := if d.isReal then d else float64

/-- Whether a result of type `source` may be stored where elements of type `target` are kept:
flags may become anything, integers may become integers or reals, reals only reals. -/
def storesInto (source target : Dtype) : Bool :=
  match source with
  | bool => true
  | int32 => target != bool
  | int64 => target != bool
  | float32 => target.isReal
  | float64 => target.isReal

end Dtype

/-- The sorts of plain numbers of the host program. -/
inductive WeakSort where
  /-- A flag. -/
  | flag
  /-- An integer of any size. -/
  | integer
  /-- A real number. -/
  | real
  deriving DecidableEq, Repr

namespace WeakSort

/-- The element type of a plain number that meets no tensor. -/
def default : WeakSort → Dtype
  | flag => .bool
  | integer => .int64
  | real => .float64

end WeakSort

/-- The common type of a tensor of type `d` and a plain number: the tensor's own, unless the
number is of a higher sort. -/
def Dtype.withWeak (d : Dtype) : WeakSort → Dtype
  | .flag => d
  | .integer => if d = .bool then .int64 else d
  | .real => if d.isReal then d else .float64

/-! ### Elements -/

/-- The elements of type `d` over the number system `F`. -/
@[reducible] def Elem (F : Type) : Dtype → Type
  | .bool => Bool
  | .int32 => Int32
  | .int64 => Int64
  | .float32 => F
  | .float64 => F

namespace Elem

variable {F : Type} [Arith F]

/-- The element with the value zero. -/
def zero : (d : Dtype) → Elem F d
  | .bool => false
  | .int32 => 0
  | .int64 => 0
  | .float32 => Arith.ofInt 0
  | .float64 => Arith.ofInt 0

instance (d : Dtype) : Inhabited (Elem F d) := ⟨zero d⟩

/-- The element with the value one. -/
def one : (d : Dtype) → Elem F d
  | .bool => true
  | .int32 => 1
  | .int64 => 1
  | .float32 => Arith.ofInt 1
  | .float64 => Arith.ofInt 1

/-- The integer nearest to an element, towards zero. -/
def toInt : (d : Dtype) → Elem F d → Int
  | .bool, b => if b then 1 else 0
  | .int32, n => Int32.toInt n
  | .int64, n => Int64.toInt n
  | .float32, x => Arith.truncate x
  | .float64, x => Arith.truncate x

/-- The element of double precision nearest to an element. -/
def toReal : (d : Dtype) → Elem F d → F
  | .bool, b => Arith.ofInt (if b then 1 else 0)
  | .int32, n => Arith.ofInt (Int32.toInt n)
  | .int64, n => Arith.ofInt (Int64.toInt n)
  | .float32, x => x
  | .float64, x => x

/-- Whether an element is up or non-zero. -/
def isTrue : (d : Dtype) → Elem F d → Bool
  | .bool, b => b
  | .int32, n => n != 0
  | .int64, n => n != 0
  | .float32, x => !Arith.same x (Arith.ofInt 0)
  | .float64, x => !Arith.same x (Arith.ofInt 0)

/-- Conversion of an element to another type: integers wrap around, reals are rounded to single
precision or cut to their integral part. -/
def convert (source target : Dtype) (x : Elem F source) : Elem F target :=
  if h : source = target then h ▸ x
  else match target with
    | .bool => isTrue source x
    | .int32 => Int32.ofInt (toInt source x)
    | .int64 => Int64.ofInt (toInt source x)
    | .float32 => Arith.toSingle (toReal source x)
    | .float64 => toReal source x

@[simp] theorem convert_self (d : Dtype) (x : Elem F d) : convert d d x = x := by
  simp [convert]

/-! ### Arithmetic of elements -/

/-- Addition; of flags, either is up. -/
def add : (d : Dtype) → Elem F d → Elem F d → Elem F d
  | .bool, a, b => a || b
  | .int32, a, b => a + b
  | .int64, a, b => a + b
  | .float32, a, b => Arith.toSingle (Arith.add a b)
  | .float64, a, b => Arith.add a b

/-- Subtraction; flags have none, and the operations that reach here never subtract them. -/
def sub : (d : Dtype) → Elem F d → Elem F d → Elem F d
  | .bool, a, b => xor a b
  | .int32, a, b => a - b
  | .int64, a, b => a - b
  | .float32, a, b => Arith.toSingle (Arith.sub a b)
  | .float64, a, b => Arith.sub a b

/-- Multiplication; of flags, both are up. -/
def mul : (d : Dtype) → Elem F d → Elem F d → Elem F d
  | .bool, a, b => a && b
  | .int32, a, b => a * b
  | .int64, a, b => a * b
  | .float32, a, b => Arith.toSingle (Arith.mul a b)
  | .float64, a, b => Arith.mul a b

/-- Division, which is computed in a real type; any other type gives zero. -/
def div : (d : Dtype) → Elem F d → Elem F d → Elem F d
  | .float32, a, b => Arith.toSingle (Arith.div a b)
  | .float64, a, b => Arith.div a b
  | d, _, _ => zero d

/-- Negation; flags have none, and the operations that reach here never negate them. -/
def neg : (d : Dtype) → Elem F d → Elem F d
  | .bool, a => a
  | .int32, a => -a
  | .int64, a => -a
  | .float32, a => Arith.neg a
  | .float64, a => Arith.neg a

/-- The greater of two elements. -/
def maximum : (d : Dtype) → Elem F d → Elem F d → Elem F d
  | .bool, a, b => a || b
  | .int32, a, b => if a < b then b else a
  | .int64, a, b => if a < b then b else a
  | .float32, a, b => Arith.maximum a b
  | .float64, a, b => Arith.maximum a b

/-- A power with a natural exponent, by repeated squaring. -/
def powNat {α : Type} (mul : α → α → α) (one : α) (x : α) (n : Nat) : α :=
  if h : n = 0 then one
  else
    let half := powNat mul one (mul x x) (n / 2)
    if n % 2 = 0 then half else mul x half
termination_by n
decreasing_by omega

/-- Exponentiation; an integer exponent is taken to be natural. -/
def pow : (d : Dtype) → Elem F d → Elem F d → Elem F d
  | .bool, a, b => a || !b
  | .int32, a, b => powNat (· * ·) 1 a (Int32.toInt b).toNat
  | .int64, a, b => powNat (· * ·) 1 a (Int64.toInt b).toNat
  | .float32, a, b => Arith.toSingle (Arith.pow a b)
  | .float64, a, b => Arith.pow a b

/-- Whether an integer element is negative. -/
def isNegativeInteger : (d : Dtype) → Elem F d → Bool
  | .int32, n => n < 0
  | .int64, n => n < 0
  | _, _ => false

/-- Whether an element is above zero. -/
def isPositive : (d : Dtype) → Elem F d → Bool
  | .bool, b => b
  | .int32, n => 0 < n
  | .int64, n => 0 < n
  | .float32, x => Arith.less (Arith.ofInt 0) x
  | .float64, x => Arith.less (Arith.ofInt 0) x

/-- A function on reals, computed in double precision and kept in the element's own precision;
other types give zero. -/
def realFunction (f : F → F) : (d : Dtype) → Elem F d → Elem F d
  | .float32, x => Arith.toSingle (f x)
  | .float64, x => f x
  | d, _ => zero d

end Elem
end SlotGrad
