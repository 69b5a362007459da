import SlotGrad.Number.Arith

/-!
# Machine doubles as a number system

Arithmetic is the machine's.  Conversions from integers and quotients, and to single precision, go
through the exact rounding of `BinaryFormat`.

## Main definitions

* `Double.ofDecoded` — the double nearest to a decoded number.
* the instances `Arith Float` and `Interchange Float`.
-/

namespace SlotGrad
namespace Double

/-- The double with the given pattern. -/
def ofPattern (bits : Nat) : Float := Float.ofBits bits.toUInt64

/-- The pattern of a double. -/
def pattern (x : Float) : Nat := x.toBits.toNat

/-- The double nearest to a quotient of an integer by a positive natural. -/
def ofRatio (n : Int) (den : Nat) : Float :=
  let magnitude := BinaryFormat.double.ofRatio n.natAbs den
  ofPattern (if n < 0 then BinaryFormat.double.signBit + magnitude else magnitude)

/-- The double nearest to the single-precision number that is nearest to `x`. -/
def toSingle (x : Float) : Float :=
  ofPattern <| BinaryFormat.convert .single .double <|
    BinaryFormat.convert .double .single (pattern x)

/-- The integral part.  An element without one gives the least word of 64 bits. -/
def truncate (x : Float) : Int :=
  match (BinaryFormat.double.decode (pattern x)).ratio? with
  | some (negative, num, den) => if negative then -((num / den : Nat) : Int) else (num / den : Nat)
  | none => -(Nat.pow 2 63 : Nat)

instance : Arith Float where
  ofInt n := ofRatio n 1
  ofRatio := ofRatio
  add := Float.add
  sub := Float.sub
  mul := Float.mul
  div := Float.div
  neg := Float.neg
  pow := Float.pow
  exp := Float.exp
  log := Float.log
  tanh := Float.tanh
  less x y := x < y
  same x y := x == y
  isFinite := Float.isFinite
  toSingle := toSingle
  truncate := truncate

instance : Interchange Float where
  toBits := Float.toBits
  ofBits := Float.ofBits

end Double
end SlotGrad
