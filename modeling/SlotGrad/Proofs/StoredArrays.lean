import SlotGrad.Proofs.Completion
import SlotGrad.Proofs.NumeralText
import SlotGrad.Saved.Weights

/-!
# Arrays read back from weights

The elements of an array take their bytes one after another, wherever the array starts among the
weights.  A reader that is told the start, the element type and the extents finds the elements
again; how many bytes there are before and after does not matter.  This needs every element to
be the one of its own pattern: a real number has to be a double, and in an array of single
precision the nearest one of that precision to itself.

## Main definitions

* `IsSingle` — a number of single precision.
* `Elem.Patterned`, `Tensor.Patterned` — elements that are the ones of their own patterns.
* `Elem.Exact`, `Tensor.Exact` — elements that are numbers of their types.

## Main results

* `Elem.ofBytes_toBytes` — an element is the one of its bytes.
* `Saved.arrayAt_toBytes` — an array is read from its place among other bytes.
* `Saved.readArray_entry` — an array is read by the entry that tells its place.
-/

namespace SlotGrad

/-! ### Elements -/

section

variable {F : Type} [Interchange F]

/-- The number is its own nearest one of single precision. -/
def IsSingle (x : F) : Prop :=
  Interchange.ofBits (BinaryFormat.convert .single .double
    (BinaryFormat.convert .double .single (Interchange.toBits x).toNat)).toUInt64 = x

/-- The element is the one of its pattern. -/
def Elem.Patterned : (d : Dtype) → Elem F d → Prop
  | .float32, x => IsSingle x
  | .float64, x => Interchange.ofBits (Interchange.toBits x) = x
  | _, _ => True

/-- The element is a number of its type: real numbers are doubles, and single ones in single
precision. -/
def Elem.Exact : (d : Dtype) → Elem F d → Prop
  | .float32, x => Saved.IsDouble x ∧ IsSingle x
  | .float64, x => Saved.IsDouble x
  | _, _ => True

theorem Elem.Exact.patterned {d : Dtype} {x : Elem F d} (h : Exact d x) : Patterned d x := by
  cases d with
  | float32 => exact h.2
  | float64 => exact h.ofBits_toBits
  | _ => trivial

/-- All elements of the tensor are those of their patterns. -/
def Tensor.Patterned (t : Tensor F) : Prop := ∀ x ∈ t.grid.toList, Elem.Patterned t.dtype x

/-- All elements of the tensor are numbers of its type. -/
def Tensor.Exact (t : Tensor F) : Prop := ∀ x ∈ t.grid.toList, Elem.Exact t.dtype x

theorem Tensor.Exact.patterned {t : Tensor F} (h : t.Exact) : t.Patterned :=
  fun x hx => (h x hx).patterned

end

/-- A pattern of single precision takes four bytes. -/
theorem BinaryFormat.convert_single_lt (source : BinaryFormat) (bits : Nat) :
    source.convert .single bits < Nat.pow 256 4 := by
  have hratio : ∀ num den, BinaryFormat.single.ofRatio num den ≤ BinaryFormat.single.infinity := by
    intro num den
    unfold BinaryFormat.ofRatio
    split_ifs
    · exact Nat.zero_le _
    · exact Nat.min_le_right _ _
  have hinfinity : BinaryFormat.single.infinity = 2139095040 := rfl
  have hsign : BinaryFormat.single.signBit = 2147483648 := rfl
  have hnan : BinaryFormat.single.quietNaN = 2143289344 := rfl
  have hlimit : Nat.pow 256 4 = 4294967296 := rfl
  unfold BinaryFormat.convert BinaryFormat.encode
  cases source.decode bits with
  | nan =>
    dsimp only
    omega
  | infinite negative =>
    dsimp only
    split_ifs <;> omega
  | finite negative m q =>
    have hwhole := hratio (m * Nat.pow 2 q.toNat) 1
    have hpart := hratio m (Nat.pow 2 (-q).toNat)
    dsimp only
    split_ifs <;> omega

namespace Elem

variable {F : Type} [Interchange F]

/-- An element is the one of its bytes. -/
theorem ofBytes_toBytes (d : Dtype) {x : Elem F d} (hx : Patterned d x) :
    ofBytes d (toBytes d x) = x := by
  cases d with
  | bool => cases x <;> rfl
  | int32 =>
    have hword : (x : Int32).toUInt32.toNat < Nat.pow 256 4 := UInt32.toNat_lt _
    simp only [ofBytes, toBytes, Bytes.toNat_ofNat hword]
    simp
  | int64 =>
    have hword : (x : Int64).toUInt64.toNat < Nat.pow 256 8 := UInt64.toNat_lt _
    simp only [ofBytes, toBytes, Bytes.toNat_ofNat hword]
    simp
  | float32 =>
    simp only [ofBytes, toBytes, Bytes.toNat_ofNat (BinaryFormat.convert_single_lt _ _)]
    exact hx
  | float64 =>
    have hword : (Interchange.toBits (x : F)).toNat < Nat.pow 256 8 := UInt64.toNat_lt _
    simp only [ofBytes, toBytes, Bytes.toNat_ofNat hword]
    simpa [Patterned] using hx

/-- Elements are read from their bytes one after another. -/
theorem listOfBytes_toBytes (d : Dtype) {xs : List (Elem F d)} (hxs : ∀ x ∈ xs, Patterned d x)
    (rest : Bytes) : listOfBytes d xs.length (xs.flatMap (toBytes d) ++ rest) = xs := by
  induction xs with
  | nil => rfl
  | cons x xs ih =>
    have hlength : (toBytes d x).length = d.itemSize := length_toBytes d x
    rw [List.length_cons, listOfBytes, List.flatMap_cons, List.append_assoc,
      List.take_left' hlength, List.drop_left' hlength,
      ofBytes_toBytes d (hxs x List.mem_cons_self),
      ih fun y hy => hxs y (List.mem_cons_of_mem _ hy)]

end Elem

/-! ### Extents -/

theorem Shape.foldl_mul (s : Shape) (n : Nat) :
    (s.map Int.ofNat).foldl (· * ·) (n : Int) = (n * s.size : Nat) := by
  induction s generalizing n with
  | nil => simp
  | cons m s ih =>
    rw [List.map_cons, List.foldl_cons, Shape.size_cons, ← Nat.mul_assoc, ← ih (n * m)]
    rfl

/-- Extents that are written as they are stand for themselves. -/
theorem Saved.storedShape_ofNat (s : Shape) : storedShape s.size (s.map Int.ofNat) = .ok s := by
  have hfilter : (s.map Int.ofNat).filter (fun n : Int => decide (0 ≤ n)) = s.map Int.ofNat := by
    apply List.filter_eq_self.mpr
    intro n hn
    obtain ⟨m, -, rfl⟩ := List.mem_map.mp hn
    simp
  have hknown : ((s.map Int.ofNat).filter (fun n : Int => decide (0 ≤ n))).map Int.toNat = s := by
    rw [hfilter, List.map_map]
    exact List.map_id' s
  unfold storedShape
  simp only [hknown]
  simp

/-! ### Arrays -/

section

variable {F : Type} [Interchange F]

theorem Tensor.length_toBytes (t : Tensor F) :
    t.toBytes.length = t.grid.shape.size * t.dtype.itemSize := by
  have hsize : t.grid.toList.length = t.grid.shape.size := by
    rw [← t.grid.size_eq]
    exact Array.length_toList
  unfold Tensor.toBytes
  rw [List.length_flatMap]
  simp [List.map_const', hsize]

theorem Grid.reshape?_ofList {α : Type} (g : Grid α) :
    (Grid.ofList g.toList).reshape? g.shape = some g := by
  have hsize : g.shape.size = (Grid.ofList g.toList).shape.size := by
    rw [← g.size_eq]
    simp [Grid.ofList, Grid.toList]
  unfold Grid.reshape?
  rw [dif_pos hsize]
  simp [Grid.ofList, Grid.toList]

namespace Saved

/-- **An array is read from its place among other bytes.** -/
theorem arrayAt_toBytes {t : Tensor F} (ht : t.Patterned) (before after : Bytes) :
    arrayAt t.dtype (t.shape.map Int.ofNat) before.length (before ++ t.toBytes ++ after)
        = .ok t := by
  have hcount : elementCount t.dtype (t.toBytes ++ after).length
      ((t.shape.map Int.ofNat).foldl (· * ·) 1) = .ok t.shape.size := by
    have hproduct := Shape.foldl_mul t.shape 1
    rw [Nat.one_mul, Nat.cast_one] at hproduct
    unfold elementCount
    rw [hproduct, List.length_append, Tensor.length_toBytes, Int.toNat_natCast,
      if_neg (by omega), if_neg (by unfold Tensor.shape; omega)]
  have hsize : t.shape.size = t.grid.toList.length := by
    unfold Tensor.shape
    rw [← t.grid.size_eq]
    exact Array.length_toList.symm
  have hread : Elem.listOfBytes t.dtype t.shape.size (t.toBytes ++ after) = t.grid.toList := by
    rw [hsize]
    exact Elem.listOfBytes_toBytes t.dtype ht after
  have hinside : ¬((before.length : Int) < 0 ∨
      ((before ++ t.toBytes ++ after).length : Int) < before.length) := by
    simp only [List.length_append]
    omega
  have hrest : (before ++ t.toBytes ++ after).drop ((before.length : Int)).toNat
      = t.toBytes ++ after := by
    rw [Int.toNat_natCast, List.append_assoc, List.drop_left]
  unfold arrayAt
  rw [if_neg hinside, hrest]
  simp only [hcount, storedShape_ofNat, hread, bind, Except.bind, pure, Except.pure]
  rw [show t.shape = t.grid.shape from rfl, Grid.reshape?_ofList]
  rfl

omit [Interchange F] in
/-- Integers in a document are read one by one. -/
theorem mapM_asInt_integer (ns : List Int) :
    (ns.map (Json.integer (F := F))).mapM Json.asInt = .ok ns := by
  rw [mapM_eq_ok, List.forall₂_map_left_iff, List.forall₂_same]
  intro n _
  rfl

omit [Interchange F] in
/-- The fields of an entry are found under their keys. -/
theorem WeightEntry.field_toJson (e : WeightEntry) :
    (e.toJson : Json F).field "dtype" = .ok (.text e.dtype.code) ∧
    (e.toJson : Json F).field "shape" = .ok (.array (e.shape.map .ofNat)) ∧
    (e.toJson : Json F).field "offset" = .ok (.ofNat e.offset) ∧
    (e.toJson : Json F).field "scalar" = .ok (.bool e.scalar) := by
  refine ⟨rfl, rfl, rfl, rfl⟩

/-- **An array is read by its entry.**  The weights may hold other arrays before and after it. -/
theorem readArray_entry [Arith F] {t : Tensor F} (ht : t.Patterned) (w : Weights) (scalar : Bool)
    (after : Bytes) :
    readArray ((w.add t scalar).1.toJson : Json F) (some ((w.add t scalar).2.bytes ++ after))
      = .ok (if scalar then Value.reduced t else .array t) := by
  have hextents : (t.shape.map (Json.ofNat (F := F))).mapM Json.asInt
      = .ok (t.shape.map Int.ofNat) := by
    have hread := mapM_asInt_integer (F := F) (t.shape.map Int.ofNat)
    rw [List.map_map] at hread
    exact hread
  obtain ⟨hdtype, hshape, hoffset, hscalar⟩ := (w.add t scalar).1.field_toJson (F := F)
  have harray : arrayAt t.dtype (t.shape.map Int.ofNat) (w.add t scalar).1.offset
      ((w.add t scalar).2.bytes ++ after) = .ok t := by
    rw [Weights.offset_add, Weights.bytes_add]
    exact arrayAt_toBytes ht w.bytes after
  have htype : storedType (F := F) (.text (w.add t scalar).1.dtype.code)
      = .ok (.elements t.dtype) := by
    unfold storedType
    dsimp only
    rw [show (w.add t scalar).1.dtype = t.dtype from rfl, Dtype.ofCode?_code]
  have hitems : (Json.array ((w.add t scalar).1.shape.map (Json.ofNat (F := F)))).items
      = .ok (t.shape.map .ofNat) := rfl
  have hstart : (Json.ofNat (F := F) (w.add t scalar).1.offset).asInt
      = .ok ((w.add t scalar).1.offset : Int) := rfl
  unfold readArray
  simp only [hdtype, hshape, hoffset, hscalar, htype, hitems, hstart, hextents, harray,
    liftM_eq_lift, Fallible.lift_ok, ok_bind]
  rfl

end Saved

end

end SlotGrad
