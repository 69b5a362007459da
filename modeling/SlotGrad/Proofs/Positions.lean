import Mathlib.Algebra.BigOperators.Group.Finset.Basic
import Mathlib.Algebra.BigOperators.Group.Finset.Sigma
import Mathlib.Algebra.BigOperators.Ring.Finset
import Mathlib.Data.List.Forall2
import Mathlib.Data.List.GetD
import SlotGrad.Array.Grid

/-!
# Positions and sums over them

A position of a shape has one coordinate below each extent.  A sum over all positions is a nest of
sums over coordinates, outermost first; the nest may be opened at any axis, and it may be read along
the row-major enumeration, in which the elements of a grid are kept.

## Main definitions

* `Shape.total` — the sum over all positions of a shape.

## Main results

* `Shape.mem_indices` — what a position is.
* `Shape.map_ravel_indices` — positions are enumerated by their places.
* `Shape.total_eraseIdx` — a sum opened at one axis.
* `Shape.total_append` — a sum opened between two groups of axes.
* `Grid.at_ofFn`, `Grid.ext_at` — a grid is given by its shape and its elements.
-/

namespace SlotGrad

namespace Shape

/-! ### Positions -/

/-- A position has one coordinate below each extent. -/
theorem mem_indices {s : Shape} {i : List Nat} : i ∈ indices s ↔ List.Forall₂ (· < ·) i s := by
  induction s generalizing i with
  | nil => simp
  | cons n s ih =>
    simp only [indices_cons, List.mem_flatMap, List.mem_range, List.mem_map]
    constructor
    · rintro ⟨k, hk, is, his, rfl⟩
      exact .cons hk (ih.mp his)
    · rintro (_ | ⟨hk, his⟩)
      exact ⟨_, hk, _, ih.mpr his, rfl⟩

theorem length_of_mem_indices {s : Shape} {i : List Nat} (h : i ∈ indices s) :
    i.length = s.length :=
  (mem_indices.mp h).length_eq

@[simp] theorem cons_mem_indices {n k : Nat} {s : Shape} {i : List Nat} :
    k :: i ∈ indices (n :: s) ↔ k < n ∧ i ∈ indices s := by
  rw [mem_indices, List.forall₂_cons, ← mem_indices]

/-- A coordinate is below its extent. -/
theorem getD_lt_of_mem_indices {s : Shape} {i : List Nat} (h : i ∈ indices s) {k : Nat}
    (hk : k < s.length) : i.getD k 0 < s.getD k 0 := by
  have hlen := length_of_mem_indices h
  have := (List.forall₂_iff_get.mp (mem_indices.mp h)).2 k (by omega) hk
  rw [List.getD_eq_getElem _ _ (by omega), List.getD_eq_getElem _ _ hk]
  exact this

theorem append_mem_indices {s t : Shape} {i j : List Nat} (hi : i ∈ indices s)
    (hj : j ∈ indices t) : i ++ j ∈ indices (s ++ t) :=
  mem_indices.mpr (List.rel_append (mem_indices.mp hi) (mem_indices.mp hj))

theorem exists_append_of_mem_indices {s t : Shape} {i : List Nat} (h : i ∈ indices (s ++ t)) :
    ∃ u v, u ∈ indices s ∧ v ∈ indices t ∧ i = u ++ v := by
  have h := mem_indices.mp h
  exact ⟨i.take s.length, i.drop s.length, mem_indices.mpr (List.forall₂_take_append _ _ _ h),
    mem_indices.mpr (List.forall₂_drop_append _ _ _ h), (List.take_append_drop _ _).symm⟩

theorem eraseIdx_mem_indices {s : Shape} {i : List Nat} (h : i ∈ indices s) (k : Nat) :
    i.eraseIdx k ∈ indices (s.eraseIdx k) := by
  induction s generalizing i k with
  | nil =>
    rw [indices_nil, List.mem_singleton] at h
    subst h
    simp
  | cons n s ih =>
    obtain _ | ⟨x, i⟩ := i
    · cases mem_indices.mp h
    · rw [cons_mem_indices] at h
      cases k with
      | zero => exact h.2
      | succ k => exact cons_mem_indices.mpr ⟨h.1, ih h.2 k⟩

theorem insertIdx_mem_indices {s : Shape} {i : List Nat} (h : i ∈ indices s) {k n x : Nat}
    (hk : k ≤ s.length) (hx : x < n) : i.insertIdx k x ∈ indices (s.insertIdx k n) := by
  induction k generalizing s i with
  | zero => exact cons_mem_indices.mpr ⟨hx, h⟩
  | succ k ih =>
    obtain _ | ⟨m, s⟩ := s
    · simp at hk
    · obtain _ | ⟨y, i⟩ := i
      · cases mem_indices.mp h
      · rw [cons_mem_indices] at h
        rw [List.length_cons] at hk
        exact cons_mem_indices.mpr ⟨h.1, ih h.2 (by omega)⟩

/-- The coordinates `k * n, …, k * n + n - 1` for `k` below `m` are the numbers below `m * n`. -/
theorem flatMap_range_add (m n : Nat) :
    ((List.range m).flatMap fun k => (List.range n).map fun j => k * n + j)
      = List.range (m * n) := by
  induction m with
  | zero => simp
  | succ m ih =>
    rw [List.range_succ, List.flatMap_append, ih, Nat.succ_mul, List.range_add]
    simp

/-- The enumeration of positions is in the order of their places. -/
theorem map_ravel_indices (s : Shape) : (indices s).map (ravel s) = List.range (size s) := by
  induction s with
  | nil => rfl
  | cons n s ih =>
    rw [size_cons, ← flatMap_range_add, indices_cons, List.map_flatMap]
    congr 1
    funext k
    rw [List.map_map, ← ih, List.map_map]
    rfl

/-- The position at a place of the enumeration has that place. -/
theorem getElem_indices_ravel {s : Shape} {i : List Nat} (h : i ∈ indices s) :
    (indices s)[ravel s i]? = some i := by
  obtain ⟨n, hn⟩ := List.mem_iff_getElem?.mp h
  have hmap : ((indices s).map (ravel s))[n]? = some (ravel s i) := by
    rw [List.getElem?_map, hn]
    rfl
  rw [map_ravel_indices] at hmap
  have hlt := (List.getElem?_eq_some_iff.mp hmap).1
  rw [List.length_range] at hlt
  rw [List.getElem?_range hlt, Option.some.injEq] at hmap
  rw [← hmap, hn]

/-! ### Sums over positions -/

section

variable {M : Type*} [AddCommMonoid M]

/-- The sum over all positions of a shape. -/
def total : Shape → (List Nat → M) → M
  | [], f => f []
  | n :: s, f => ∑ j ∈ Finset.range n, total s fun i => f (j :: i)

@[simp] theorem total_nil (f : List Nat → M) : total [] f = f [] := rfl

theorem total_cons (n : Nat) (s : Shape) (f : List Nat → M) :
    total (n :: s) f = ∑ j ∈ Finset.range n, total s fun i => f (j :: i) := rfl

theorem total_congr {s : Shape} {f g : List Nat → M} (h : ∀ i ∈ indices s, f i = g i) :
    total s f = total s g := by
  induction s generalizing f g with
  | nil => exact h [] (by simp)
  | cons n s ih =>
    refine Finset.sum_congr rfl fun j hj => ih fun i hi => ?_
    exact h _ (cons_mem_indices.mpr ⟨Finset.mem_range.mp hj, hi⟩)

@[simp] theorem total_zero (s : Shape) : total s (fun _ => (0 : M)) = 0 := by
  induction s with
  | nil => rfl
  | cons n s ih => simp only [total_cons, ih, Finset.sum_const_zero]

theorem total_eq_zero {s : Shape} {f : List Nat → M} (h : ∀ i ∈ indices s, f i = 0) :
    total s f = 0 := by
  rw [total_congr h, total_zero]

theorem total_add (s : Shape) (f g : List Nat → M) :
    total s (fun i => f i + g i) = total s f + total s g := by
  induction s generalizing f g with
  | nil => rfl
  | cons n s ih => simp only [total_cons, ih, Finset.sum_add_distrib]

theorem total_sum {ι : Type*} (s : Shape) (r : Finset ι) (f : ι → List Nat → M) :
    total s (fun i => ∑ j ∈ r, f j i) = ∑ j ∈ r, total s (f j) := by
  induction s generalizing f with
  | nil => rfl
  | cons n s ih =>
    simp only [total_cons, ih]
    exact Finset.sum_comm

/-- A sum opened between two groups of axes. -/
theorem total_append (s t : Shape) (f : List Nat → M) :
    total (s ++ t) f = total s fun i => total t fun j => f (i ++ j) := by
  induction s generalizing f with
  | nil => rfl
  | cons n s ih =>
    rw [List.cons_append, total_cons, total_cons]
    exact Finset.sum_congr rfl fun j _ => ih _

/-- A sum opened at one axis. -/
theorem total_eraseIdx {s : Shape} {k : Nat} (hk : k < s.length) (f : List Nat → M) :
    total s f = total (s.eraseIdx k) fun i =>
      ∑ j ∈ Finset.range (s.getD k 0), f (i.insertIdx k j) := by
  induction s generalizing k f with
  | nil => simp at hk
  | cons n s ih =>
    cases k with
    | zero =>
      rw [total_cons, List.eraseIdx_zero, List.tail_cons, total_sum]
      rfl
    | succ k =>
      rw [total_cons, List.eraseIdx_cons_succ, total_cons]
      exact Finset.sum_congr rfl fun j _ => ih (by simpa using hk) _

/-- An axis of extent one adds nothing to a sum. -/
theorem total_insertIdx_one {s : Shape} {k : Nat} (hk : k ≤ s.length) (f : List Nat → M) :
    total (s.insertIdx k 1) f = total s fun i => f (i.insertIdx k 0) := by
  have hlen : k < (s.insertIdx k 1).length := by
    rw [List.length_insertIdx_of_le_length hk]
    omega
  rw [total_eraseIdx hlen, List.eraseIdx_insertIdx_self]
  have hone : (s.insertIdx k 1).getD k 0 = 1 := by
    rw [List.getD_eq_getElem _ _ hlen, List.getElem_insertIdx_self]
  simp only [hone, Finset.sum_range_one]

/-- A sum over positions is a sum along the enumeration. -/
theorem total_eq_sum (s : Shape) (f : List Nat → M) : total s f = ((indices s).map f).sum := by
  induction s generalizing f with
  | nil => simp
  | cons n s ih =>
    have hflat : ∀ l : List Nat,
        ((l.flatMap fun j => (indices s).map (j :: ·)).map f).sum
          = (l.map fun j => total s fun i => f (j :: i)).sum := by
      intro l
      induction l with
      | nil => rfl
      | cons j l ihl =>
        rw [List.flatMap_cons, List.map_append, List.sum_append, ihl, List.map_cons, List.sum_cons,
          ih, List.map_map]
        rfl
    rw [total_cons, indices_cons, hflat]
    exact Multiset.sum_coe _

/-- A sum over positions of what depends on their places only. -/
theorem total_ravel (s : Shape) (f : Nat → M) :
    total s (fun i => f (ravel s i)) = ∑ n ∈ Finset.range (size s), f n := by
  have hmap : (indices s).map (fun i => f (ravel s i)) = (List.range (size s)).map f := by
    rw [← map_ravel_indices, List.map_map]
    rfl
  rw [total_eq_sum, hmap]
  exact (Multiset.sum_coe _).symm

end

theorem mul_total {K : Type*} [Semiring K] (s : Shape) (c : K) (f : List Nat → K) :
    c * total s f = total s fun i => c * f i := by
  induction s generalizing f with
  | nil => rfl
  | cons n s ih => simp only [total_cons, Finset.mul_sum, ih]

end Shape

/-! ### Elements of grids -/

namespace Grid

variable {α β γ : Type}

section

variable [Inhabited α]

theorem at_ofFn {s : Shape} {f : List Nat → α} {i : List Nat} (h : i ∈ s.indices) :
    (ofFn s f).at i = f i := by
  unfold «at» ofFn
  have hget : ((s.indices).map f)[s.ravel i]? = some (f i) := by
    rw [List.getElem?_map, Shape.getElem_indices_ravel h]
    rfl
  simp only [Array.getD_eq_getD_getElem?, List.getElem?_toArray]
  rw [hget]
  rfl

theorem toList_eq_map_at (g : Grid α) : g.toList = (g.shape.indices).map g.at := by
  have hsize : g.toList.length = g.shape.size := by
    rw [← g.size_eq]
    rfl
  have hplaces : (g.shape.indices).map g.at
      = (List.range g.shape.size).map fun n => g.data.getD n default := by
    rw [← Shape.map_ravel_indices, List.map_map]
    rfl
  rw [hplaces]
  refine List.ext_getElem? fun n => ?_
  by_cases hn : n < g.shape.size
  · have hdata : n < g.data.size := by rwa [g.size_eq]
    rw [List.getElem?_map, List.getElem?_range hn, Option.map_some,
      Array.getD_eq_getD_getElem?, Array.getElem?_eq_getElem hdata]
    unfold toList
    rw [Array.getElem?_toList, Array.getElem?_eq_getElem hdata]
    rfl
  · rw [List.getElem?_eq_none (by omega), List.getElem?_eq_none (by simpa using hn)]

/-- A grid is given by its shape and its elements. -/
theorem ext_at {a b : Grid α} (hs : a.shape = b.shape)
    (h : ∀ i ∈ a.shape.indices, a.at i = b.at i) : a = b := by
  have hlist : a.toList = b.toList := by
    rw [toList_eq_map_at, toList_eq_map_at, ← hs]
    exact List.map_congr_left h
  obtain ⟨s, xs, hx⟩ := a
  obtain ⟨t, ys, hy⟩ := b
  have hdata : xs = ys := Array.toList_inj.mp hlist
  have hs : s = t := hs
  subst hs hdata
  rfl

@[simp] theorem ofFn_at (g : Grid α) : ofFn g.shape g.at = g :=
  ext_at rfl fun _ hi => at_ofFn hi

/-- A function that keeps the default element is applied wherever a grid is read. -/
theorem at_map [Inhabited β] {f : α → β} (hf : f default = default) (g : Grid α) (i : List Nat) :
    (g.map f).at i = f (g.at i) := by
  unfold «at» map
  simp only [Array.getD_eq_getD_getElem?, Array.getElem?_map]
  cases g.data[g.shape.ravel i]? with
  | none => exact hf.symm
  | some x => rfl

theorem at_map_of_mem [Inhabited β] {f : α → β} {g : Grid α} {i : List Nat}
    (h : i ∈ g.shape.indices) : (g.map f).at i = f (g.at i) := by
  have hlt : g.shape.ravel i < g.data.size := by
    rw [g.size_eq]
    exact Shape.ravel_lt h
  unfold «at» map
  simp only [Array.getD_eq_getD_getElem?, Array.getElem?_map, Array.getElem?_eq_getElem hlt]
  rfl

@[simp] theorem at_single (x : α) (i : List Nat) : (single x).at i = x := by
  cases i <;> rfl

@[simp] theorem first_single (x : α) : (single x).first = x := rfl

/-- The first element is the one at the first position. -/
theorem first_eq_at {g : Grid α} (h : g.shape = []) (i : List Nat) : g.first = g.at i := by
  unfold first «at»
  rw [h]
  cases i <;> rfl

end

theorem ofFn_congr {s : Shape} {f g : List Nat → α} (h : ∀ i ∈ s.indices, f i = g i) :
    ofFn s f = ofFn s g := by
  unfold ofFn
  simp only [List.map_congr_left h]

@[simp] theorem map_ofFn (s : Shape) (f : List Nat → α) (φ : α → β) :
    (ofFn s f).map φ = ofFn s fun i => φ (f i) := by
  unfold map ofFn
  simp only [List.map_toArray, List.map_map]
  rfl

theorem map_map (g : Grid α) (f : α → β) (φ : β → γ) :
    (g.map f).map φ = g.map fun x => φ (f x) := by
  unfold map
  simp only [Array.map_map]
  rfl

@[simp] theorem map_single (x : α) (φ : α → β) : (single x).map φ = single (φ x) := by
  simp [map, single]

end Grid

end SlotGrad
