import Mathlib.Data.ZMod.Basic
import SlotGrad.Proofs.Pairing

/-!
# Derivatives reduced to the shape of an operand

An operand that is broadcast is read at several positions, and its derivative is the sum of what
stands at these positions.  Reducing a derivative to the shape of an operand is therefore the
transpose of broadcasting the operand: paired with any weights of the operand's shape it is what the
stretched derivative is with the stretched weights.  It succeeds for all operands that can be
broadcast together with the derivative.

Real numbers are summed exactly.  Flags and integers are summed as 64-bit integers, so that their
sums are exact up to multiples of `2 ^ 64`.

## Main definitions

* `Shape.Gathers` — sums of what stands where a position is read.
* `Tensor.Transposes` — a tensor gathers another one, and is paired with weights as it is.

## Main results

* `Tensor.measures_toReal`, `Tensor.measures_toInt` — in which numbers sums are exact.
* `Tensor.transposes_of_unbroadcast` — a reduced tensor gathers the stretched one.
* `unbroadcast_transposes_broadcasting` — the same of derivatives and operands as values.
* `unbroadcast_wraps_around` — sums of integers are not always exact.
-/

namespace SlotGrad

/-! ### Gathering -/

namespace Shape

variable {M : Type*} [AddCommMonoid M]

/-- A sum with one term. -/
theorem total_eq_single {s : Shape} {i : List Nat} (hi : i ∈ indices s) {f : List Nat → M}
    (h : ∀ k, k ≠ i → f k = 0) : total s f = f i := by
  induction s generalizing i f with
  | nil =>
    rw [indices_nil, List.mem_singleton] at hi
    rw [hi, total_nil]
  | cons n s ih =>
    obtain _ | ⟨k, i⟩ := i
    · cases mem_indices.mp hi
    · obtain ⟨hk, hi⟩ := cons_mem_indices.mp hi
      rw [total_cons, Finset.sum_eq_single k]
      · exact ih hi fun j hj => h _ fun heq => hj (List.cons.inj heq).2
      · intro l _ hl
        exact total_eq_zero fun j _ => h _ fun heq => hl (List.cons.inj heq).1
      · intro hnot
        exact absurd (Finset.mem_range.mpr hk) hnot

theorem intCast_total {R : Type*} [Ring R] (s : Shape) (f : List Nat → Int) :
    ((total s f : Int) : R) = total s fun i => ((f i : Int) : R) := by
  rw [total_eq_sum, total_eq_sum, Int.cast_list_sum, List.map_map]
  rfl

/-- What stands at each position of a shape is the sum of what stands at the positions of the common
shape that read it. -/
def Gathers (s common : Shape) (z wide : List Nat → M) : Prop :=
  ∀ i ∈ s.indices, z i = common.total fun j => if s.project j = i then wide j else 0

/-- What is paired with all weights as what is stretched is with the stretched weights gathers
it. -/
theorem gathers_of_weights {K : Type*} [CommSemiring K] {s common : Shape} {z wide : List Nat → K}
    (h : ∀ u : List Nat → K,
      s.total (fun i => z i * u i) = common.total fun j => wide j * u (s.project j)) :
    Gathers s common z wide := by
  intro i hi
  -- The weight is one at the position and zero elsewhere.
  have hone := h fun k => if k = i then 1 else 0
  rw [total_eq_single hi fun k hk => by simp [hk]] at hone
  simpa using hone

end Shape

/-! ### Sums of elements -/

namespace Tensor

variable {K : Type} [Field K] [Arith K] [ExactArith K]

/-- Sums of real numbers are exact. -/
theorem measures_toReal {d : Dtype} (hd : d.isReal = true) :
    Measures (fun d (x : Elem K d) => Elem.toReal d x) d := by
  have hsum : sumDtype d = d := if_pos hd
  constructor
  · rw [hsum]
    cases d with
    | float32 =>
      exact ⟨(ExactArith.ofInt_eq 0).trans Int.cast_zero, fun x y =>
        (ExactArith.toSingle_eq _).trans (ExactArith.add_eq x y)⟩
    | float64 => exact ⟨(ExactArith.ofInt_eq 0).trans Int.cast_zero, ExactArith.add_eq⟩
    | _ => cases hd
  · rw [hsum]
    exact fun x => congrArg _ (Elem.convert_self d x)

/-- Numbers that differ by a multiple of `2 ^ 64` are one 64-bit integer. -/
theorem intCast_bmod (n : Int) : ((n.bmod (2 ^ 64) : Int) : ZMod (2 ^ 64)) = n :=
  (ZMod.intCast_eq_intCast_iff _ _ _).mpr Int.bmod_emod

/-- Sums of flags and integers are exact up to multiples of `2 ^ 64`. -/
theorem measures_toInt {F : Type} [Arith F] {d : Dtype} (hd : d.isReal = false) :
    Measures (fun d (x : Elem F d) => ((Elem.toInt d x : Int) : ZMod (2 ^ 64))) d := by
  have hsum : sumDtype d = .int64 := by simp [sumDtype, hd]
  constructor
  · rw [hsum]
    refine ⟨by simp [Elem.toInt, Elem.zero], fun x y => ?_⟩
    rw [← Int.cast_add, ← intCast_bmod (Elem.toInt _ x + _)]
    exact congrArg _ (Int64.toInt_add x y)
  · intro x
    rw [hsum]
    by_cases h64 : d = .int64
    · subst h64
      rw [Elem.convert_self]
    · rw [← intCast_bmod (Elem.toInt d x)]
      refine congrArg _ ?_
      rw [Elem.convert, dif_neg h64]
      exact Int64.toInt_ofInt

/-- A 64-bit integer is the one that its sum is cut down to. -/
theorem bmod_toInt {F : Type} [Arith F] {d : Dtype} (hd : d.isReal = false) (x : Elem F d) :
    (Elem.toInt d x).bmod (2 ^ 64) = Elem.toInt d x := by
  have hrange : -2 ^ 63 ≤ Elem.toInt d x ∧ Elem.toInt d x < 2 ^ 63 := by
    cases d with
    | bool => cases x <;> simp [Elem.toInt]
    | int32 =>
      have hlo := Int32.le_toInt x
      have hhi := Int32.toInt_lt x
      simp only [Elem.toInt]
      omega
    | int64 => exact ⟨Int64.le_toInt x, Int64.toInt_lt x⟩
    | _ => cases hd
  exact Int.bmod_eq_of_le (by omega) (by omega)

/-! ### Reduced tensors -/

/-- A tensor of a shape `s` in which another one, of a shape to which `s` is broadcast, is gathered.
Paired with any weights it is what the other is with the weights broadcast. -/
structure Transposes (s : Shape) (z wide : Tensor K) : Prop where
  /-- The shape is the given one. -/
  shape : z.shape = s
  /-- The elements keep their type, or have the one in which they were summed. -/
  dtype : z.dtype = wide.dtype ∨ z.dtype = sumDtype wide.dtype
  /-- Real numbers are summed exactly. -/
  reals : wide.dtype.isReal = true →
    s.Gathers wide.shape (fun i => Elem.toReal z.dtype (z.grid.at i))
      fun j => Elem.toReal wide.dtype (wide.grid.at j)
  /-- Sums of flags and integers are cut down to 64 bits. -/
  integers : wide.dtype.isReal = false → ∀ i ∈ s.indices,
    Elem.toInt z.dtype (z.grid.at i) = (wide.shape.total fun j =>
      if s.project j = i then Elem.toInt wide.dtype (wide.grid.at j) else 0).bmod (2 ^ 64)
  /-- Real weights are moved to where they are broadcast. -/
  pairedReals : wide.dtype.isReal = true → ∀ u w : Grid K, u.shape = s →
    u.broadcastTo? wide.shape = some w →
      s.total (fun i => Elem.toReal z.dtype (z.grid.at i) * u.at i)
        = wide.shape.total fun j => Elem.toReal wide.dtype (wide.grid.at j) * w.at j
  /-- So are integral ones, up to multiples of `2 ^ 64`. -/
  pairedIntegers : wide.dtype.isReal = false → ∀ u w : Grid Int, u.shape = s →
    u.broadcastTo? wide.shape = some w →
      s.total (fun i => Elem.toInt z.dtype (z.grid.at i) * u.at i)
        ≡ wide.shape.total fun j => Elem.toInt wide.dtype (wide.grid.at j) * w.at j [ZMOD 2 ^ 64]

/-- Weights of a shape, broadcast to another one, are read through the projection. -/
theorem at_of_broadcastTo? {α : Type} [Inhabited α] {u w : Grid α} {common : Shape}
    (h : u.broadcastTo? common = some w) {j : List Nat} (hj : j ∈ common.indices) :
    w.at j = u.at (u.shape.project j) := by
  obtain ⟨-, rfl⟩ := Grid.broadcastTo?_eq_some h
  exact Grid.at_ofFn hj

/-- A tensor that is reduced to a shape gathers what it is when it is broadcast to the common
shape. -/
theorem transposes_of_unbroadcast {t : Tensor K} {s common : Shape}
    (hcommon : Shape.broadcast? t.shape s = some common) :
    ∃ z wide, t.unbroadcast s = .ok z ∧ t.broadcastTo common = .ok wide ∧ wide.shape = common ∧
      Transposes s z wide := by
  obtain ⟨z, hz, hshape, hdtype⟩ := exists_unbroadcast hcommon
  have hwide : t.broadcastTo common = .ok ⟨t.dtype, .ofFn common t.grid.spread⟩ := by
    unfold broadcastTo
    rw [Grid.broadcastTo?_of_fits (Shape.fits_of_broadcast? hcommon).1]
  -- Whatever elements are measured by, weights can be moved to the common shape.
  have hweights : ∀ {L : Type} [CommSemiring L] {ρ : (d : Dtype) → Elem K d → L},
      Measures ρ t.dtype → ∀ f : List Nat → L,
        s.total (fun i => ρ z.dtype (z.grid.at i) * f i) = common.total fun j =>
          ρ t.dtype ((Grid.ofFn common t.grid.spread).at j) * f (s.project j) := by
    intro L _ ρ hρ f
    refine (hρ.total_unbroadcast hz hcommon f).trans (Shape.total_congr fun j hj => ?_)
    rw [Grid.at_ofFn hj]
  refine ⟨z, _, hz, hwide, rfl, ?_⟩
  constructor
  case shape => exact hshape
  case dtype => exact hdtype
  case reals => exact fun hd => Shape.gathers_of_weights (hweights (measures_toReal hd))
  case integers =>
    intro hd i hi
    have hzd : z.dtype.isReal = false := by
      rcases hdtype with h | h
      · exact h ▸ hd
      · have hsum : sumDtype t.dtype = .int64 := if_neg (by simpa using hd)
        rw [h, hsum]
        rfl
    have hgathers := Shape.gathers_of_weights (hweights (measures_toInt hd)) i hi
    rw [← bmod_toInt hzd, ← Int.emod_bmod, ← Int.emod_bmod (Shape.total _ _)]
    refine congrArg (Int.bmod · _) ((ZMod.intCast_eq_intCast_iff _ _ _).mp (hgathers.trans ?_))
    rw [Shape.intCast_total]
    refine Shape.total_congr fun j _ => ?_
    split_ifs <;> simp
  case pairedReals =>
    intro hd u w hu hw
    refine (hweights (measures_toReal hd) u.at).trans (Shape.total_congr fun j hj => ?_)
    rw [at_of_broadcastTo? hw hj, hu]
  case pairedIntegers =>
    intro hd u w hu hw
    refine (ZMod.intCast_eq_intCast_iff _ _ (2 ^ 64)).mp ?_
    rw [Shape.intCast_total, Shape.intCast_total]
    simp only [Int.cast_mul]
    have hmoved := hweights (measures_toInt hd) fun i => ((u.at i : Int) : ZMod (2 ^ 64))
    refine hmoved.trans (Shape.total_congr fun j hj => ?_)
    rw [at_of_broadcastTo? hw hj, hu]

end Tensor

/-! ### Reduced derivatives -/

/-- The result of a full reduction holds the elements of its tensor. -/
theorem Value.contents_reduced {F : Type} [Arith F] (t : Tensor F) :
    (reduced t).contents = .ok (.numbers t) := by
  obtain ⟨d, g⟩ := t
  by_cases hs : g.shape = []
  · simp [reduced, hs, contents, Tensor.single, Grid.single_first hs]
  · simp [reduced, hs, contents]

section

variable {K : Type} [Field K] [Arith K] [ExactArith K]

/-- **Reducing a derivative to the shape of an operand is the transpose of broadcasting the
operand.** It succeeds exactly if derivative and operand can be broadcast together.  The result
has the operand's shape, and at each position the sum of the derivative, broadcast to the common
shape, over the positions that read this one: exact sums of real numbers, and sums of flags and
integers up to multiples of `2 ^ 64`. -/
theorem unbroadcast_transposes_broadcasting {der like : Value K} {t : Tensor K} {s : Shape}
    (hder : der.contents = .ok (.numbers t)) (hlike : like.shape = .ok s) :
    ((∃ v, unbroadcast der like = .ok v) ↔
      ∃ common, Shape.broadcast? t.shape s = some common) ∧
    ∀ common, Shape.broadcast? t.shape s = some common →
      ∃ (v : Value K) (z wide : Tensor K), unbroadcast der like = .ok v ∧
        v.contents = .ok (.numbers z) ∧ t.broadcastTo common = .ok wide ∧ wide.shape = common ∧
        (t.shape = common → wide = t) ∧ Tensor.Transposes s z wide := by
  have hstep : unbroadcast der like = (do
      let result ← t.unbroadcast s
      return if s = [] ∧ t.shape ≠ [] then Value.reduced result else .array result) := by
    unfold unbroadcast
    rw [hlike, hder]
    rfl
  -- The reduction of the tensor is the transpose; what is left is how its answer is packed.
  have hsucceeds : ∀ common, Shape.broadcast? t.shape s = some common →
      ∃ (v : Value K) (z wide : Tensor K), unbroadcast der like = .ok v ∧
        v.contents = .ok (.numbers z) ∧ t.broadcastTo common = .ok wide ∧ wide.shape = common ∧
        (t.shape = common → wide = t) ∧ Tensor.Transposes s z wide := by
    intro common hcommon
    obtain ⟨z, wide, hz, hwide, hshape, htransposes⟩ := Tensor.transposes_of_unbroadcast hcommon
    have hsame : t.shape = common → wide = t := by
      rintro rfl
      exact Except.ok.inj (hwide.symm.trans t.broadcastTo_self)
    rw [hstep, hz]
    refine ⟨_, z, wide, rfl, ?_, hwide, hshape, hsame, htransposes⟩
    split_ifs
    · exact Value.contents_reduced z
    · rfl
  refine ⟨⟨?_, ?_⟩, hsucceeds⟩
  · rintro ⟨v, hv⟩
    rw [hstep] at hv
    obtain ⟨z, hz, -⟩ := bind_eq_ok.mp hv
    exact Tensor.exists_common_of_unbroadcast hz
  · rintro ⟨common, hcommon⟩
    obtain ⟨v, -, -, hv, -⟩ := hsucceeds common hcommon
    exact ⟨v, hv⟩

end

/-- Derivatives in two layers of three rows and two columns. -/
def layeredDers : Tensor ℚ := ⟨.float64, .ofFn [2, 3, 2] fun i => (i.sum : ℚ)⟩

theorem unbroadcast_transposes_broadcasting_layers :
    (Value.array layeredDers).contents = .ok (.numbers layeredDers) ∧
      (Value.array (.zeros [3, 1] .float64) : Value ℚ).shape = .ok [3, 1] ∧
      ∃ (v : Value ℚ) (z wide : Tensor ℚ),
        unbroadcast (.array layeredDers) (.array (.zeros [3, 1] .float64)) = .ok v ∧
        v.contents = .ok (.numbers z) ∧ wide = layeredDers ∧ Tensor.Transposes [3, 1] z wide := by
  have hder : (Value.array layeredDers).contents = .ok (.numbers layeredDers) := rfl
  have hlike : (Value.array (.zeros [3, 1] .float64) : Value ℚ).shape = .ok [3, 1] := rfl
  obtain ⟨-, htransposes⟩ := unbroadcast_transposes_broadcasting hder hlike
  obtain ⟨v, z, wide, hv, hz, -, -, hwide, h⟩ := htransposes [2, 3, 2] (by decide)
  exact ⟨hder, hlike, v, z, wide, hv, hz, hwide rfl, h⟩

/-- Two integers of which the sum takes more than 64 bits. -/
def largeDers : Tensor ℚ := ⟨.int64, .ofList [4611686018427387904, 4611686018427387904]⟩

/-- **Sums of integers are not always exact**: here the sum over the positions that read the
operand is `2 ^ 63`, and the reduced derivative is its negative.  Objects that are no numbers
are not summed at all. -/
theorem unbroadcast_wraps_around :
    (∃ (v : Value ℚ) (z : Tensor ℚ), unbroadcast (.array largeDers) (.integer 1) = .ok v ∧
      v.contents = .ok (.numbers z) ∧ z.shape = [] ∧
      Elem.toInt z.dtype (z.grid.at []) = -9223372036854775808 ∧
      (largeDers.shape.total fun j => if Shape.project [] j = [] then
        Elem.toInt largeDers.dtype (largeDers.grid.at j) else 0) = 9223372036854775808) ∧
    Shape.broadcast? [2] [] = some [2] ∧
      unbroadcast (.objects [2] [.none, .integer 1] : Value ℚ) (.integer 1)
        = .error .wrongKind :=
  ⟨⟨.scalar .int64 (-9223372036854775808 : Int64), _, rfl, rfl, rfl, rfl, rfl⟩, rfl, rfl⟩

end SlotGrad
