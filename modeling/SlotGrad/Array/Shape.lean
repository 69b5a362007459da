/-!
# Shapes and index lists

A shape is the list of a grid's extents, outermost first.  A position in a grid is a list of
coordinates of the same length; positions are enumerated in row-major order, the last coordinate
fastest, and `ravel` is a position's place in that enumeration.

## Main definitions

* `Shape`, `Shape.size`, `Shape.indices`, `Shape.ravel` — extents, their product, all positions in
  order, and the place of one.
* `Shape.broadcast?` — the common shape of two operands: extents are matched from the last one,
  an extent of one or a missing extent stretches.
* `Shape.project` — the position of an operand that a position of the common shape reads.
* `Shape.axis?` — an axis number counted from either end.

## Main results

* `Shape.length_indices` — a shape has `size` positions.
-/

namespace SlotGrad

/-- The extents of a grid, outermost first. -/
abbrev Shape := List Nat

namespace Shape

/-- The number of positions of a shape. -/
def size : Shape → Nat
  | [] => 1
  | n :: s => n * size s

@[simp] theorem size_nil : size [] = 1 := rfl

@[simp] theorem size_cons (n : Nat) (s : Shape) : size (n :: s) = n * size s := rfl

/-- All positions of a shape in row-major order. -/
def indices : Shape → List (List Nat)
  | [] => [[]]
  | n :: s => (List.range n).flatMap fun i => (indices s).map (i :: ·)

@[simp] theorem indices_nil : indices [] = [[]] := rfl

@[simp] theorem indices_cons (n : Nat) (s : Shape) :
    indices (n :: s) = (List.range n).flatMap fun i => (indices s).map (i :: ·) := rfl

theorem length_indices : ∀ s : Shape, (indices s).length = size s
  | [] => rfl
  | n :: s => by
    simp only [indices_cons, size_cons, List.length_flatMap, List.length_map, length_indices s]
    simp [List.map_const']

/-- The place of a position in the row-major enumeration. -/
def ravel : Shape → List Nat → Nat
  | _ :: s, i :: is => i * size s + ravel s is
  | _, _ => 0

@[simp] theorem ravel_cons (n : Nat) (s : Shape) (i : Nat) (is : List Nat) :
    ravel (n :: s) (i :: is) = i * size s + ravel s is := rfl

/-- A position in range comes before the end of the enumeration. -/
theorem ravel_lt : ∀ {s : Shape} {i : List Nat}, i ∈ indices s → ravel s i < size s
  | [], _, h => by simp_all [ravel]
  | n :: s, i, h => by
    simp only [indices_cons, List.mem_flatMap, List.mem_range, List.mem_map] at h
    obtain ⟨k, hk, is, his, rfl⟩ := h
    have := ravel_lt his
    calc k * size s + ravel s is < k * size s + size s := Nat.add_lt_add_left this _
      _ = (k + 1) * size s := (Nat.succ_mul _ _).symm
      _ ≤ n * size s := Nat.mul_le_mul_right _ hk

/-! ### Broadcasting -/

/-- The common extent of two: equal extents agree, and an extent of one stretches. -/
def commonExtent? (m n : Nat) : Option Nat :=
  if m = n then some m else if m = 1 then some n else if n = 1 then some m else none

/-- The common shape of two shapes given from the innermost extent outwards. -/
def broadcastReversed? : List Nat → List Nat → Option (List Nat)
  | [], t => some t
  | s, [] => some s
  | m :: s, n :: t =>
    match commonExtent? m n, broadcastReversed? s t with
    | some k, some r => some (k :: r)
    | _, _ => none

/-- The common shape of two operands, if they have one. -/
def broadcast? (s t : Shape) : Option Shape :=
  (broadcastReversed? s.reverse t.reverse).map List.reverse

/-- The common shape of several operands, if they have one. -/
def broadcastAll? (shapes : List Shape) : Option Shape :=
  shapes.foldlM broadcast? []

/-- The position of an operand of shape `s` that the position `i` of a common shape reads:
coordinates that the operand does not have are dropped, and a stretched extent is read at zero. -/
def project (s : Shape) (i : List Nat) : List Nat :=
  List.zipWith (fun n k => if n = 1 then 0 else k) s (i.drop (i.length - s.length))

/-! ### Axes -/

/-- The axis with the given number among `rank` axes; a negative number counts from the end. -/
def axis? (rank : Nat) (axis : Int) : Option Nat :=
  if 0 ≤ axis ∧ axis < rank then some axis.toNat
  else if -rank ≤ axis ∧ axis < 0 then some (axis + rank).toNat
  else none

theorem axis?_lt {rank : Nat} {axis : Int} {k : Nat} (h : axis? rank axis = some k) : k < rank := by
  unfold axis? at h
  split at h
  · simp only [Option.some.injEq] at h; omega
  · split at h
    · simp only [Option.some.injEq] at h; omega
    · simp at h

end Shape
end SlotGrad
