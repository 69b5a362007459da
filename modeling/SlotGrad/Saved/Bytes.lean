import SlotGrad.Array.Tensor

/-!
# Elements as bytes

Elements are stored in row-major order, each as the bytes of its machine word, the least
significant byte first.

## Main definitions

* `Bytes` — runs of bytes.
* `Bytes.ofNat`, `Bytes.toNat` — a natural number as bytes.
* `Elem.toBytes`, `Elem.ofBytes` — an element as bytes.
* `Tensor.toBytes` — all elements of a tensor.

## Main results

* `Bytes.toNat_ofNat` — a number that fits is read back.
* `Elem.length_toBytes` — an element takes as many bytes as its type says.
-/

namespace SlotGrad

/-- A run of bytes. -/
abbrev Bytes := List UInt8

namespace Bytes

/-- The `count` least significant bytes of a natural number, the least significant one first. -/
def ofNat : (count n : Nat) → Bytes
  | 0, _ => []
  | count + 1, n => n.toUInt8 :: ofNat count (n / 256)

@[simp] theorem length_ofNat (count n : Nat) : (ofNat count n).length = count := by
  induction count generalizing n with
  | zero => rfl
  | succ count ih => simp [ofNat, ih]

/-- The natural number of some bytes, the least significant one first. -/
def toNat : Bytes → Nat
  | [] => 0
  | b :: bs => b.toNat + 256 * toNat bs

theorem toNat_ofNat {count n : Nat} (h : n < Nat.pow 256 count) : toNat (ofNat count n) = n := by
  induction count generalizing n with
  | zero =>
    simp only [Nat.pow_eq, Nat.pow_zero] at h
    simp only [ofNat, toNat]
    omega
  | succ count ih =>
    have hq : n / 256 < Nat.pow 256 count := by
      rw [Nat.pow_eq, Nat.pow_succ] at h
      rw [Nat.pow_eq]
      exact Nat.div_lt_of_lt_mul (by omega)
    simp only [ofNat, toNat, ih hq, Nat.toUInt8_eq, UInt8.toNat_ofNat']
    omega

end Bytes

namespace Elem

variable {F : Type} [Interchange F]

/-- An element as bytes. -/
def toBytes : (d : Dtype) → Elem F d → Bytes
  | .bool, b => [if b then 1 else 0]
  | .int32, n => Bytes.ofNat 4 n.toUInt32.toNat
  | .int64, n => Bytes.ofNat 8 n.toUInt64.toNat
  | .float32, x =>
    Bytes.ofNat 4 (BinaryFormat.convert .double .single (Interchange.toBits x).toNat)
  | .float64, x => Bytes.ofNat 8 (Interchange.toBits x).toNat

@[simp] theorem length_toBytes (d : Dtype) (x : Elem F d) :
    (toBytes d x).length = d.itemSize := by
  cases d <;> simp [toBytes, Dtype.itemSize]

/-- The element of some bytes. -/
def ofBytes (d : Dtype) (bs : Bytes) : Elem F d :=
  match d with
  | .bool => bs.any (· != 0)
  | .int32 => (Bytes.toNat bs).toUInt32.toInt32
  | .int64 => (Bytes.toNat bs).toUInt64.toInt64
  | .float32 =>
    Interchange.ofBits (BinaryFormat.convert .single .double (Bytes.toNat bs)).toUInt64
  | .float64 => Interchange.ofBits (Bytes.toNat bs).toUInt64

/-- The first `count` elements of some bytes. -/
def listOfBytes (d : Dtype) : (count : Nat) → Bytes → List (Elem F d)
  | 0, _ => []
  | count + 1, bs => ofBytes d (bs.take d.itemSize) :: listOfBytes d count (bs.drop d.itemSize)

@[simp] theorem length_listOfBytes (d : Dtype) (count : Nat) (bs : Bytes) :
    (listOfBytes (F := F) d count bs).length = count := by
  induction count generalizing bs with
  | zero => rfl
  | succ count ih => simp [listOfBytes, ih]

end Elem

/-- The bytes of all elements of a tensor, in row-major order. -/
def Tensor.toBytes {F : Type} [Interchange F] (t : Tensor F) : Bytes :=
  t.grid.toList.flatMap (Elem.toBytes t.dtype)

end SlotGrad
