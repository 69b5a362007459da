import SlotGrad.Kernel.Stretch
import SlotGrad.Proofs.Broadcasting
import SlotGrad.Proofs.Completion

/-!
# Folding axes away and putting them back

Summing a grid along axes gathers, at each position of the result, the elements at the positions
that become it when the coordinates of those axes are erased.  Seen from a sum over all positions
this is a change of variables: a weight that is a function of the result's positions is moved to the
positions of the grid.  Inserting axes of extent one is a change of variables as well, and reducing
a derivative to the shape of a stretched operand is a chain of them.

## Main definitions

* `Additive` — a function that turns the steps of a fold into sums.
* `eraseAll`, `insertAll`, `setAll` — several places of a list erased, inserted or replaced.
* `Tensor.Measures` — measures of elements that turn their sums into sums.
* `Tensor.shrunk` — a tensor stretched to a common shape and summed back to an operand's.

## Main results

* `insertAll_eraseAll` — erasing places and putting them back replaces their members.
* `Grid.total_foldAxes`, `Grid.total_insertAxes` — the two changes of variables.
* `Tensor.exists_unbroadcast` — a derivative is reduced to the shapes with which its own has a
  common one.
* `Tensor.Measures.total_unbroadcast` — what reducing it gathers.
-/

namespace SlotGrad

/-! ### Several places of a list -/

section

variable {α : Type}

/-- A list without the members at some places, given in increasing order. -/
def eraseAll (ks : List Nat) (l : List α) : List α := ks.foldr (fun k l => l.eraseIdx k) l

/-- A list with one member inserted at some places of the result, given in increasing order. -/
def insertAll (x : α) (ks : List Nat) (l : List α) : List α :=
  ks.foldl (fun l k => l.insertIdx k x) l

/-- A list with one member at some places instead of what was there. -/
def setAll (x : α) (ks : List Nat) (l : List α) : List α := ks.foldl (fun l k => l.set k x) l

/-- Places in increasing order that are below a bound. -/
structure Places (n : Nat) (ks : List Nat) : Prop where
  /-- Places increase. -/
  increasing : ks.Pairwise (· < ·)
  /-- Places are below the bound. -/
  below : ∀ k ∈ ks, k < n

theorem Places.tail {n k : Nat} {ks : List Nat} (h : Places n (k :: ks)) : Places n ks :=
  ⟨(List.pairwise_cons.mp h.increasing).2, fun j hj => h.below j (List.mem_cons_of_mem _ hj)⟩

/-- There are as many places below the bound as there are places, and those behind a place are
among the ones that follow it. -/
theorem Places.add_length_lt {n k : Nat} {ks : List Nat} (h : Places n (k :: ks)) :
    k + ks.length < n := by
  induction ks generalizing k with
  | nil => exact h.below k (List.mem_cons_self ..)
  | cons j ks ih =>
    have hkj : k < j := (List.pairwise_cons.mp h.increasing).1 j (List.mem_cons_self ..)
    have := ih h.tail
    rw [List.length_cons]
    omega

theorem Places.length_le {n : Nat} {ks : List Nat} (h : Places n ks) : ks.length ≤ n := by
  cases ks with
  | nil => exact Nat.zero_le n
  | cons k ks =>
    have := h.add_length_lt
    rw [List.length_cons]
    omega

/-- Members can be inserted one after another at places below the length of the result. -/
theorem Places.insertIdx {k : Nat} {ks : List Nat} {l : List α}
    (h : Places (l.length + (k :: ks).length) (k :: ks)) (x : α) :
    k ≤ l.length ∧ Places ((l.insertIdx k x).length + ks.length) ks := by
  have hlt := h.add_length_lt
  rw [List.length_cons] at hlt
  have hk : k ≤ l.length := by omega
  refine ⟨hk, h.tail.increasing, fun j hj => ?_⟩
  have := h.tail.below j hj
  rw [List.length_cons] at this
  rw [List.length_insertIdx_of_le_length hk]
  omega

theorem Places.init {n k : Nat} {ks : List Nat} (h : Places n (ks ++ [k])) : Places k ks := by
  obtain ⟨hinc, -⟩ := h
  rw [List.pairwise_append] at hinc
  exact ⟨hinc.1, fun j hj => hinc.2.2 j hj k (List.mem_singleton.mpr rfl)⟩

theorem length_eraseAll {ks : List Nat} {l : List α} (h : Places l.length ks) :
    (eraseAll ks l).length + ks.length = l.length := by
  induction ks with
  | nil => rfl
  | cons k ks ih =>
    have hrest := ih h.tail
    have hk := h.add_length_lt
    unfold eraseAll at hrest ⊢
    rw [List.foldr_cons, List.length_eraseIdx_of_lt (by omega), List.length_cons]
    omega

theorem eraseAll_append (js ks : List Nat) (l : List α) :
    eraseAll (js ++ ks) l = eraseAll js (eraseAll ks l) := List.foldr_append

theorem insertAll_append (x : α) (js ks : List Nat) (l : List α) :
    insertAll x (js ++ ks) l = insertAll x ks (insertAll x js l) := List.foldl_append

theorem setAll_append (x : α) (js ks : List Nat) (l : List α) :
    setAll x (js ++ ks) l = setAll x ks (setAll x js l) := List.foldl_append

@[simp] theorem length_setAll (x : α) (ks : List Nat) (l : List α) :
    (setAll x ks l).length = l.length := by
  induction ks generalizing l with
  | nil => rfl
  | cons k ks ih => exact (ih _).trans List.length_set

/-- Places before one that is erased are replaced as they were. -/
theorem setAll_eraseIdx (x : α) {k : Nat} {ks : List Nat} (h : ∀ j ∈ ks, j < k) (l : List α) :
    setAll x ks (l.eraseIdx k) = (setAll x ks l).eraseIdx k := by
  induction ks generalizing l with
  | nil => rfl
  | cons j ks ih =>
    have hjk := h j (List.mem_cons_self ..)
    have hset : (l.eraseIdx k).set j x = (l.set j x).eraseIdx k := by
      rw [List.eraseIdx_set_gt hjk]
    have := ih (fun i hi => h i (List.mem_cons_of_mem _ hi)) (l.set j x)
    rw [← hset] at this
    exact this

/-- Erasing places and putting them back replaces their members. -/
theorem insertAll_eraseAll (x : α) {ks : List Nat} {l : List α} (h : Places l.length ks) :
    insertAll x ks (eraseAll ks l) = setAll x ks l := by
  induction ks using List.reverseRecOn generalizing l with
  | nil => rfl
  | append_singleton ks k ih =>
    have hk : k < l.length := h.below k (by simp)
    have hinit := h.init
    have hplaces : Places (l.eraseIdx k).length ks := by
      refine ⟨hinit.increasing, fun j hj => ?_⟩
      have := hinit.below j hj
      rw [List.length_eraseIdx_of_lt hk]
      omega
    rw [eraseAll_append, insertAll_append, setAll_append]
    have hlast : eraseAll [k] l = l.eraseIdx k := rfl
    rw [hlast, ih hplaces, setAll_eraseIdx x hinit.below]
    have hlen : k < (setAll x ks l).length := by rwa [length_setAll]
    change ((setAll x ks l).eraseIdx k).insertIdx k x = (setAll x ks l).set k x
    exact List.insertIdx_eraseIdx_self (Nat.ne_of_lt hlen) x

theorem getElem?_setAll (x : α) (ks : List Nat) (l : List α) (k : Nat) :
    (setAll x ks l)[k]? = if k ∈ ks ∧ k < l.length then some x else l[k]? := by
  induction ks generalizing l with
  | nil => simp [setAll]
  | cons j ks ih =>
    have hstep : setAll x (j :: ks) l = setAll x ks (l.set j x) := rfl
    rw [hstep, ih, List.length_set, List.getElem?_set]
    grind

end

/-! ### Sums along axes -/

/-- A function that turns the steps of a fold into sums. -/
structure Additive {α K : Type*} [AddCommMonoid K] (ψ : α → K) (f : α → α → α) (start : α) :
    Prop where
  /-- The start counts nothing. -/
  zero : ψ start = 0
  /-- A step counts both members. -/
  add : ∀ x y, ψ (f x y) = ψ x + ψ y

theorem Additive.foldl {α K : Type*} [AddCommMonoid K] {ψ : α → K} {f : α → α → α} {start : α}
    (h : Additive ψ f start) (n : Nat) (g : Nat → α) :
    ψ ((List.range n).foldl (fun acc j => f acc (g j)) start)
      = ∑ j ∈ Finset.range n, ψ (g j) := by
  induction n with
  | zero => exact h.zero
  | succ n ih =>
    rw [List.range_succ, List.foldl_append, Finset.sum_range_succ, ← ih]
    exact h.add _ _

namespace Shape

theorem eraseAll_mem_indices (ks : List Nat) {s : Shape} {i : List Nat} (h : i ∈ indices s) :
    eraseAll ks i ∈ indices (eraseAll ks s) := by
  induction ks with
  | nil => exact h
  | cons k ks ih => exact eraseIdx_mem_indices ih k

theorem size_insertIdx_one {s : Shape} {k : Nat} (hk : k ≤ s.length) :
    size (s.insertIdx k 1) = size s := by
  induction k generalizing s with
  | zero => exact Nat.one_mul _
  | succ k ih =>
    cases s with
    | nil => simp at hk
    | cons n s =>
      rw [List.insertIdx_succ_cons, size_cons, size_cons, ih (by simpa using hk)]

/-- An axis of extent one does not move a position. -/
theorem ravel_insertIdx_one {s : Shape} {i : List Nat} (h : i ∈ indices s) {k : Nat}
    (hk : k ≤ s.length) : ravel (s.insertIdx k 1) (i.insertIdx k 0) = ravel s i := by
  induction k generalizing s i with
  | zero => simp
  | succ k ih =>
    obtain _ | ⟨n, s⟩ := s
    · simp at hk
    · obtain _ | ⟨x, i⟩ := i
      · cases mem_indices.mp h
      · have hk : k ≤ s.length := by simpa using hk
        rw [List.insertIdx_succ_cons, List.insertIdx_succ_cons, ravel_cons, ravel_cons,
          ih (cons_mem_indices.mp h).2 hk, size_insertIdx_one hk]

end Shape

namespace Grid

variable {α : Type} [Inhabited α] {K : Type*} [CommSemiring K] {ψ : α → K} {f : α → α → α}
  {start : α}

/-- Folding along one axis gathers the elements that become one when its coordinate is erased. -/
theorem total_foldAxis (h : Additive ψ f start) (g : Grid α) {k : Nat} (hk : k < g.shape.length)
    (t : List Nat → K) :
    Shape.total (g.shape.eraseIdx k) (fun i => ψ ((g.foldAxis k f start).at i) * t i)
      = g.shape.total fun i => ψ (g.at i) * t (i.eraseIdx k) := by
  rw [Shape.total_eraseIdx hk]
  refine Shape.total_congr fun i hi => ?_
  unfold foldAxis
  rw [at_ofFn hi, h.foldl, Finset.sum_mul]
  refine Finset.sum_congr rfl fun j _ => ?_
  rw [List.eraseIdx_insertIdx_self]

theorem shape_foldAxes (g : Grid α) (ks : List Nat) :
    (g.foldAxes ks f start).shape = eraseAll ks g.shape := by
  induction ks with
  | nil => rfl
  | cons k ks ih =>
    have hstep : (g.foldAxes (k :: ks) f start).shape = (g.foldAxes ks f start).shape.eraseIdx k :=
      rfl
    rw [hstep, ih]
    rfl

/-- Folding along several axes gathers the elements that become one when their coordinates are
erased. -/
theorem total_foldAxes (h : Additive ψ f start) (g : Grid α) {ks : List Nat}
    (hks : Places g.shape.length ks) (t : List Nat → K) :
    Shape.total (eraseAll ks g.shape) (fun i => ψ ((g.foldAxes ks f start).at i) * t i)
      = g.shape.total fun i => ψ (g.at i) * t (eraseAll ks i) := by
  induction ks generalizing t with
  | nil => rfl
  | cons k ks ih =>
    have hk : k < (g.foldAxes ks f start).shape.length := by
      have hlen := length_eraseAll hks.tail
      have := hks.add_length_lt
      rw [shape_foldAxes]
      omega
    have hstep := total_foldAxis h (g.foldAxes ks f start) hk t
    rw [shape_foldAxes] at hstep
    exact hstep.trans (ih hks.tail _)

/-! ### Axes of extent one -/

omit [Inhabited α] in
theorem shape_insertAxis (g : Grid α) {k : Nat} (hk : k ≤ g.shape.length) :
    (g.insertAxis k).shape = g.shape.insertIdx k 1 := by
  unfold insertAxis reshape?
  rw [dif_pos (Shape.size_insertIdx_one hk)]

theorem at_insertAxis (g : Grid α) {k : Nat} (hk : k ≤ g.shape.length) {i : List Nat}
    (hi : i ∈ g.shape.indices) : (g.insertAxis k).at (i.insertIdx k 0) = g.at i := by
  unfold insertAxis reshape?
  rw [dif_pos (Shape.size_insertIdx_one hk)]
  unfold «at»
  dsimp only
  rw [Shape.ravel_insertIdx_one hi hk]

omit [Inhabited α] in
theorem reshape?_self {g : Grid α} {s : Shape} (h : g.shape = s) : g.reshape? s = some g := by
  subst h
  unfold reshape?
  rw [dif_pos rfl]

/-- The grid with axes of extent one at some places of the result. -/
def insertAxes (ks : List Nat) (g : Grid α) : Grid α := ks.foldl (fun g k => g.insertAxis k) g

omit [Inhabited α] in
theorem shape_insertAxes (g : Grid α) {ks : List Nat}
    (hks : Places (g.shape.length + ks.length) ks) :
    (insertAxes ks g).shape = insertAll 1 ks g.shape := by
  induction ks generalizing g with
  | nil => rfl
  | cons k ks ih =>
    obtain ⟨hk, hrest⟩ := hks.insertIdx 1
    have hshape := shape_insertAxis g hk
    rw [← hshape] at hrest
    have := ih _ hrest
    rw [hshape] at this
    exact this

theorem at_insertAxes (g : Grid α) {ks : List Nat}
    (hks : Places (g.shape.length + ks.length) ks) {i : List Nat} (hi : i ∈ g.shape.indices) :
    (insertAxes ks g).at (insertAll 0 ks i) = g.at i := by
  induction ks generalizing g i with
  | nil => rfl
  | cons k ks ih =>
    obtain ⟨hk, hrest⟩ := hks.insertIdx 1
    have hshape := shape_insertAxis g hk
    rw [← hshape] at hrest
    have hmem : i.insertIdx k 0 ∈ (g.insertAxis k).shape.indices := by
      rw [hshape]
      exact Shape.insertIdx_mem_indices hi hk Nat.one_pos
    exact (ih _ hrest hmem).trans (at_insertAxis g hk hi)

end Grid

namespace Shape

variable {K : Type*} [AddCommMonoid K]

/-- Axes of extent one add nothing to a sum. -/
theorem total_insertAll_one {s : Shape} {ks : List Nat} (hks : Places (s.length + ks.length) ks)
    (t : List Nat → K) : total (insertAll 1 ks s) t = total s fun i => t (insertAll 0 ks i) := by
  induction ks generalizing s t with
  | nil => rfl
  | cons k ks ih =>
    obtain ⟨hk, hrest⟩ := hks.insertIdx 1
    exact (ih hrest t).trans (total_insertIdx_one hk _)

end Shape

/-! ### Reducing a derivative to an operand's shape -/

namespace Shape

theorem eraseAll_range {α : Type} (n : Nat) (l : List α) :
    eraseAll (List.range n) l = l.drop n := by
  induction n generalizing l with
  | zero => rfl
  | succ n ih =>
    rw [List.range_succ, eraseAll_append, ih]
    change (l.eraseIdx n).drop n = l.drop (n + 1)
    refine List.ext_getElem? fun k => ?_
    rw [List.getElem?_drop, List.getElem?_drop, List.getElem?_eraseIdx, if_neg (by omega)]
    congr 1
    omega

variable {s own : Shape}

/-- The axes on which an operand has extent one and a derivative has another. -/
theorem places_stretchedAxes (s t : Shape) : Places s.length (Tensor.stretchedAxes s t) := by
  refine ⟨List.pairwise_lt_range.filter _, fun k hk => ?_⟩
  exact List.mem_range.mp (List.mem_of_mem_filter hk)

theorem mem_stretchedAxes {s t : Shape} {k : Nat} :
    k ∈ Tensor.stretchedAxes s t ↔ k < s.length ∧ s.getD k 0 = 1 ∧ t.getD k 0 ≠ 1 := by
  unfold Tensor.stretchedAxes
  rw [List.mem_filter, List.mem_range]
  simp

/-- Stretched extents set back to one are the operand's. -/
theorem setAll_stretchedAxes_shape (h : List.Forall₂ Stretches s own) :
    setAll 1 (Tensor.stretchedAxes s own) own = s := by
  refine List.ext_getElem? fun k => ?_
  have hlen := h.length_eq
  rw [getElem?_setAll]
  simp only [mem_stretchedAxes]
  by_cases hk : k < s.length
  · have hkown : k < own.length := by omega
    have hpair := (List.forall₂_iff_get.mp h).2 k hk hkown
    unfold Stretches at hpair
    simp only [List.get_eq_getElem] at hpair
    rw [List.getD_eq_getElem _ _ hk, List.getD_eq_getElem _ _ hkown,
      List.getElem?_eq_getElem hk, List.getElem?_eq_getElem hkown]
    split_ifs with hst
    · rw [hst.1.2.1]
    · congr 1
      omega
  · rw [if_neg (by omega), List.getElem?_eq_none (by omega), List.getElem?_eq_none (by omega)]

/-- Coordinates at stretched extents set to zero are those of the position that is read. -/
theorem setAll_stretchedAxes_index (h : List.Forall₂ Stretches s own) {i : List Nat}
    (hi : i ∈ indices own) : setAll 0 (Tensor.stretchedAxes s own) i = clip s i := by
  refine List.ext_getElem? fun k => ?_
  have hlen := h.length_eq
  have hilen := length_of_mem_indices hi
  rw [getElem?_setAll]
  simp only [mem_stretchedAxes]
  unfold clip
  by_cases hk : k < s.length
  · have hkown : k < own.length := by omega
    have hki : k < i.length := by omega
    have hpair := (List.forall₂_iff_get.mp h).2 k hk hkown
    have hlt := getD_lt_of_mem_indices hi hkown
    unfold Stretches at hpair
    simp only [List.get_eq_getElem] at hpair
    rw [List.getD_eq_getElem _ _ hki, List.getD_eq_getElem _ _ hkown] at hlt
    rw [List.getElem?_zipWith, List.getD_eq_getElem _ _ hk, List.getD_eq_getElem _ _ hkown,
      List.getElem?_eq_getElem hk, List.getElem?_eq_getElem hki]
    dsimp only
    split_ifs <;> first | rfl | (congr 1; omega)
  · rw [if_neg (by omega), List.getElem?_eq_none (by omega),
      List.getElem?_eq_none (by rw [List.length_zipWith]; omega)]

end Shape

section

variable {F : Type} [Arith F]

namespace Tensor

variable {t : Tensor F} {ks : List Nat}

@[simp] theorem shape_gridAs (t : Tensor F) (d : Dtype) : (t.gridAs d).shape = t.grid.shape := by
  obtain ⟨e, g⟩ := t
  by_cases hd : e = d
  · subst hd
    rw [gridAs_self]
  · rw [show gridAs ⟨e, g⟩ d = g.map (Elem.convert e d) from dif_neg hd]
    rfl

theorem at_gridAs (t : Tensor F) (d : Dtype) {i : List Nat} (hi : i ∈ t.grid.shape.indices) :
    (t.gridAs d).at i = Elem.convert t.dtype d (t.grid.at i) := by
  obtain ⟨e, g⟩ := t
  by_cases hd : e = d
  · subst hd
    rw [gridAs_self, Elem.convert_self]
  · rw [show gridAs ⟨e, g⟩ d = g.map (Elem.convert e d) from dif_neg hd]
    exact Grid.at_map_of_mem hi

theorem shape_sumAs (d : Dtype) (ks : List Nat) (t : Tensor F) :
    (t.sumAs d ks).grid.shape = eraseAll ks t.grid.shape := by
  cases ks with
  | nil => exact shape_gridAs t d
  | cons k ks => exact (Grid.shape_foldAxes _ _).trans (congrArg _ (shape_gridAs t d))

omit [Arith F] in
theorem shape_insertAxes (t : Tensor F) (hks : Places (t.grid.shape.length + ks.length) ks) :
    (t.insertAxes ks).grid.shape = insertAll 1 ks t.grid.shape :=
  Grid.shape_insertAxes t.grid hks

/-- The sum along axes, if there are any. -/
def sumOver (ks : List Nat) (t : Tensor F) : Tensor F := if ks.isEmpty then t else t.sum ks

theorem shape_sumOver (ks : List Nat) (t : Tensor F) :
    (t.sumOver ks).grid.shape = eraseAll ks t.grid.shape := by
  cases ks with
  | nil => rfl
  | cons k ks => exact shape_sumAs (sumDtype t.dtype) (k :: ks) t

/-- The elements keep their type, or have the one in which they were summed. -/
theorem dtype_sumOver (ks : List Nat) (t : Tensor F) :
    (t.sumOver ks).dtype = t.dtype ∨ (t.sumOver ks).dtype = sumDtype t.dtype := by
  cases ks with
  | nil => exact .inl rfl
  | cons k ks => exact .inr rfl

/-- Axes that are summed in place stay with extent one. -/
theorem shape_insertAxes_sumOver (t : Tensor F) (hks : Places t.grid.shape.length ks) :
    ((t.sumOver ks).insertAxes ks).grid.shape = setAll 1 ks t.grid.shape := by
  have hback : Places ((t.sumOver ks).grid.shape.length + ks.length) ks := by
    rw [shape_sumOver, length_eraseAll hks]
    exact hks
  rw [shape_insertAxes _ hback, shape_sumOver, insertAll_eraseAll 1 hks]

theorem sumKeep_eq (ks : List Nat) (t : Tensor F) :
    (if ks.isEmpty then t else t.sumKeep ks) = (t.sumOver ks).insertAxes ks := by
  cases ks <;> rfl

/-! ### Measures of sums -/

theorem sumDtype_sumDtype (d : Dtype) : sumDtype (sumDtype d) = sumDtype d := by
  cases d <;> rfl

variable {K : Type*} [CommSemiring K] {ρ : (d : Dtype) → Elem F d → K}

/-- A measure of elements under which the steps of their sums are sums. -/
structure Measures (ρ : (d : Dtype) → Elem F d → K) (d : Dtype) : Prop where
  /-- In the type in which elements are summed, steps are sums of measures. -/
  additive : Additive (ρ (sumDtype d)) (Elem.add (sumDtype d)) (Elem.zero (sumDtype d))
  /-- Elements have the measure there that they have in their own type. -/
  convert : ∀ x, ρ (sumDtype d) (Elem.convert d (sumDtype d) x) = ρ d x

theorem Measures.sumDtype {d : Dtype} (h : Measures ρ d) : Measures ρ (sumDtype d) := by
  refine ⟨?_, fun x => ?_⟩
  · rw [sumDtype_sumDtype]
    exact h.additive
  · rw [sumDtype_sumDtype, Elem.convert_self]

theorem Measures.sumOver (h : Measures ρ t.dtype) (ks : List Nat) :
    Measures ρ (t.sumOver ks).dtype := by
  rcases dtype_sumOver ks t with hd | hd
  · exact hd ▸ h
  · exact hd ▸ h.sumDtype

/-- A sum along axes gathers the elements that become one when their coordinates are erased. -/
theorem total_sumOver (h : Measures ρ t.dtype) (hks : Places t.grid.shape.length ks)
    (f : List Nat → K) :
    (t.sumOver ks).grid.shape.total
        (fun i => ρ (t.sumOver ks).dtype ((t.sumOver ks).grid.at i) * f i)
      = t.grid.shape.total fun i => ρ t.dtype (t.grid.at i) * f (eraseAll ks i) := by
  cases ks with
  | nil => rfl
  | cons k ks =>
    have hfold := Grid.total_foldAxes h.additive (t.gridAs (Tensor.sumDtype t.dtype))
      ((shape_gridAs t _).symm ▸ hks) f
    rw [shape_gridAs] at hfold
    rw [shape_sumOver]
    refine hfold.trans (Shape.total_congr fun i hi => ?_)
    rw [at_gridAs t _ hi, h.convert]

/-- A sum in place gathers the elements at positions that differ in the coordinates of the axes that
are summed. -/
theorem total_insertAxes_sumOver (h : Measures ρ t.dtype) (hks : Places t.grid.shape.length ks)
    (f : List Nat → K) :
    ((t.sumOver ks).insertAxes ks).grid.shape.total
        (fun i => ρ (t.sumOver ks).dtype (((t.sumOver ks).insertAxes ks).grid.at i) * f i)
      = t.grid.shape.total fun i => ρ t.dtype (t.grid.at i) * f (setAll 0 ks i) := by
  have hback : Places ((t.sumOver ks).grid.shape.length + ks.length) ks := by
    rw [shape_sumOver, length_eraseAll hks]
    exact hks
  rw [shape_insertAxes _ hback, Shape.total_insertAll_one hback]
  calc (t.sumOver ks).grid.shape.total (fun i =>
        ρ (t.sumOver ks).dtype (((t.sumOver ks).insertAxes ks).grid.at (insertAll 0 ks i))
          * f (insertAll 0 ks i))
      = (t.sumOver ks).grid.shape.total fun i =>
          ρ (t.sumOver ks).dtype ((t.sumOver ks).grid.at i) * f (insertAll 0 ks i) := by
        refine Shape.total_congr fun i hi => ?_
        rw [show ((t.sumOver ks).insertAxes ks).grid.at (insertAll 0 ks i) = _ from
          Grid.at_insertAxes (t.sumOver ks).grid hback hi]
    _ = t.grid.shape.total fun i =>
          ρ t.dtype (t.grid.at i) * f (insertAll 0 ks (eraseAll ks i)) :=
        total_sumOver h hks fun i => f (insertAll 0 ks i)
    _ = t.grid.shape.total fun i => ρ t.dtype (t.grid.at i) * f (setAll 0 ks i) := by
        refine Shape.total_congr fun i hi => ?_
        rw [insertAll_eraseAll 0 ((Shape.length_of_mem_indices hi).symm ▸ hks)]

/-! ### Shrinking a tensor to the shape of an operand -/

variable {s lead own : Shape}

/-- A tensor stretched to the extents `lead` and `own`, with those of `lead` summed away. -/
def gathered (t : Tensor F) (lead own : Shape) : Tensor F :=
  (⟨t.dtype, .ofFn (lead ++ own) t.grid.spread⟩ : Tensor F).sumOver (List.range lead.length)

/-- A tensor stretched to the extents `lead` and `own` and shrunk to a shape `s` that fits them: the
extents that the shape lacks are summed away, and those that it has as one are summed in place. -/
def shrunk (t : Tensor F) (s lead own : Shape) : Tensor F :=
  ((t.gathered lead own).sumOver (stretchedAxes s own)).insertAxes (stretchedAxes s own)

theorem shape_gathered (t : Tensor F) (lead own : Shape) : (t.gathered lead own).grid.shape = own :=
  (shape_sumOver _ _).trans (by rw [Grid.shape_ofFn, Shape.eraseAll_range, List.drop_left])

theorem places_stretchedAxes_gathered (t : Tensor F) (lead : Shape)
    (hown : List.Forall₂ Shape.Stretches s own) :
    Places (t.gathered lead own).grid.shape.length (stretchedAxes s own) := by
  rw [shape_gathered, ← hown.length_eq]
  exact Shape.places_stretchedAxes s own

theorem shape_shrunk (t : Tensor F) (lead : Shape) (hown : List.Forall₂ Shape.Stretches s own) :
    (t.shrunk s lead own).grid.shape = s := by
  unfold shrunk
  rw [shape_insertAxes_sumOver _ (places_stretchedAxes_gathered t lead hown), shape_gathered,
    Shape.setAll_stretchedAxes_shape hown]

/-- The elements keep their type, or have the one in which they were summed. -/
theorem dtype_shrunk (t : Tensor F) (s lead own : Shape) :
    (t.shrunk s lead own).dtype = t.dtype ∨ (t.shrunk s lead own).dtype = sumDtype t.dtype := by
  have hfirst : (t.gathered lead own).dtype = t.dtype ∨
      (t.gathered lead own).dtype = sumDtype t.dtype := dtype_sumOver _ _
  have hsecond : (t.shrunk s lead own).dtype = (t.gathered lead own).dtype ∨
      (t.shrunk s lead own).dtype = sumDtype (t.gathered lead own).dtype := dtype_sumOver _ _
  rcases hfirst with hfirst | hfirst
  · rwa [hfirst] at hsecond
  · rw [hfirst, sumDtype_sumDtype, or_self] at hsecond
    exact .inr hsecond

/-- A shrunk tensor gathers at each position the elements at the positions that read it. -/
theorem total_shrunk (h : Measures ρ t.dtype) (hown : List.Forall₂ Shape.Stretches s own)
    (f : List Nat → K) :
    s.total (fun i => ρ (t.shrunk s lead own).dtype ((t.shrunk s lead own).grid.at i) * f i)
      = (lead ++ own).total fun i => ρ t.dtype (t.grid.spread i) * f (s.project i) := by
  have hmeasures : Measures ρ (t.gathered lead own).dtype :=
    Measures.sumOver (t := ⟨t.dtype, .ofFn (lead ++ own) t.grid.spread⟩) h _
  have hranges : Places (lead ++ own).length (List.range lead.length) := by
    refine ⟨List.pairwise_lt_range, fun k hk => ?_⟩
    have := List.mem_range.mp hk
    rw [List.length_append]
    omega
  calc s.total (fun i => ρ (t.shrunk s lead own).dtype ((t.shrunk s lead own).grid.at i) * f i)
      = own.total fun j => ρ (t.gathered lead own).dtype ((t.gathered lead own).grid.at j)
          * f (setAll 0 (stretchedAxes s own) j) := by
        -- Stretched axes are summed and put back with extent one.
        have hplace := total_insertAxes_sumOver hmeasures
          (places_stretchedAxes_gathered t lead hown) f
        rw [shape_gathered] at hplace
        rw [← hplace]
        exact congrArg (fun r => Shape.total r _) (shape_shrunk t lead hown).symm
    _ = own.total fun j => ρ (t.gathered lead own).dtype ((t.gathered lead own).grid.at j)
          * f (s.clip j) := by
        refine Shape.total_congr fun j hj => ?_
        rw [Shape.setAll_stretchedAxes_index hown hj]
    _ = (lead ++ own).total fun i =>
          ρ t.dtype ((Grid.ofFn (lead ++ own) t.grid.spread).at i)
            * f (s.clip (eraseAll (List.range lead.length) i)) := by
        -- Leading axes are summed and dropped.
        have hlead := total_sumOver (t := ⟨t.dtype, .ofFn (lead ++ own) t.grid.spread⟩) h hranges
          fun j => f (s.clip j)
        refine Eq.trans ?_ hlead
        exact congrArg (fun r => Shape.total r _) (shape_gathered t lead own).symm
    _ = (lead ++ own).total fun i => ρ t.dtype (t.grid.spread i) * f (s.project i) := by
        refine Shape.total_congr fun i hi => ?_
        rw [Grid.at_ofFn hi]
        obtain ⟨a, b, ha, hb, rfl⟩ := Shape.exists_append_of_mem_indices hi
        rw [Shape.eraseAll_range, ← Shape.length_of_mem_indices ha, List.drop_left,
          Shape.project_append ((Shape.length_of_mem_indices hb).trans hown.length_eq.symm)]

omit [Arith F] in
theorem reshape_self (h : t.grid.shape = s) : t.reshape s = .ok t := by
  unfold reshape
  rw [Grid.reshape?_self h]

theorem broadcastTo_self (t : Tensor F) : t.broadcastTo t.shape = .ok t := by
  unfold broadcastTo Grid.broadcastTo? shape
  rw [if_pos rfl]

/-- A derivative of another shape is stretched to the common shape and shrunk to the operand's. -/
theorem unbroadcast_eq_shrunk (hs : t.shape ≠ s)
    (hcommon : Shape.broadcast? t.shape s = some (lead ++ own))
    (hown : List.Forall₂ Shape.Stretches s own) : t.unbroadcast s = .ok (t.shrunk s lead own) := by
  have hwide : t.broadcastTo (lead ++ own) = .ok ⟨t.dtype, .ofFn (lead ++ own) t.grid.spread⟩ := by
    unfold broadcastTo
    rw [Grid.broadcastTo?_of_fits (Shape.fits_of_broadcast? hcommon).1]
  have hlead : leadingAxes (lead ++ own) s = List.range lead.length := by
    unfold leadingAxes
    rw [List.length_append, hown.length_eq, Nat.add_sub_cancel]
  have hgathered : (if (List.range lead.length).isEmpty
      then (⟨t.dtype, .ofFn (lead ++ own) t.grid.spread⟩ : Tensor F)
      else sum (List.range lead.length) ⟨t.dtype, .ofFn (lead ++ own) t.grid.spread⟩)
        = t.gathered lead own := rfl
  unfold unbroadcast
  rw [if_neg hs, hcommon, Fallible.ofOption_some, ok_bind, hwide, ok_bind, hlead]
  dsimp only
  rw [hgathered, show (t.gathered lead own).shape = own from shape_gathered t lead own, sumKeep_eq]
  exact reshape_self (shape_shrunk t lead hown)

/-- A derivative is reduced to the shape of every operand with which it has a common shape. -/
theorem exists_unbroadcast {common : Shape} (h : Shape.broadcast? t.shape s = some common) :
    ∃ z, t.unbroadcast s = .ok z ∧ z.grid.shape = s ∧
      (z.dtype = t.dtype ∨ z.dtype = sumDtype t.dtype) := by
  by_cases hs : t.shape = s
  · exact ⟨t, if_pos hs, hs, .inl rfl⟩
  · obtain ⟨lead, own, rfl, hown⟩ := (Shape.fits_of_broadcast? h).2
    exact ⟨_, unbroadcast_eq_shrunk hs h hown, shape_shrunk t lead hown, dtype_shrunk t s lead own⟩

/-- If a derivative is reduced to the shape of an operand, they have a common shape. -/
theorem exists_common_of_unbroadcast {z : Tensor F} (h : t.unbroadcast s = .ok z) :
    ∃ common, Shape.broadcast? t.shape s = some common := by
  unfold unbroadcast at h
  split at h
  · rename_i hs
    exact ⟨s, hs ▸ (Shape.Fits.refl _).broadcast?.1⟩
  · obtain ⟨common, hcommon, -⟩ := bind_eq_ok.mp h
    exact ⟨common, ofOption_eq_ok.mp hcommon⟩

/-- What reducing a derivative to an operand's shape gathers: at each position, what stands at the
positions that read it. -/
theorem Measures.total_unbroadcast (h : Measures ρ t.dtype) {z : Tensor F}
    (hz : t.unbroadcast s = .ok z) {common : Shape}
    (hcommon : Shape.broadcast? t.shape s = some common) (f : List Nat → K) :
    s.total (fun i => ρ z.dtype (z.grid.at i) * f i)
      = common.total fun i => ρ t.dtype (t.grid.spread i) * f (s.project i) := by
  by_cases hs : t.shape = s
  · subst hs
    obtain rfl : t = z := Except.ok.inj ((if_pos rfl).symm.trans hz)
    obtain rfl : t.shape = common :=
      Option.some.inj ((Shape.Fits.refl t.shape).broadcast?.1.symm.trans hcommon)
    refine Shape.total_congr fun i hi => ?_
    rw [Grid.spread_of_mem hi, Shape.project_self hi]
  · obtain ⟨lead, own, rfl, hown⟩ := (Shape.fits_of_broadcast? hcommon).2
    obtain rfl : t.shrunk s lead own = z :=
      Except.ok.inj ((unbroadcast_eq_shrunk hs hcommon hown).symm.trans hz)
    exact total_shrunk h hown f

end Tensor

/-! ### Sums of real numbers -/

/-- Zero stands wherever a grid of real numbers is read outside. -/
instance (priority := low) inhabitedReal : Inhabited F := Elem.instInhabited .float64

variable {K : Type*} [CommSemiring K] {ψ : F → K}

/-- Real numbers summed along axes, in increasing order, each sum from zero. -/
def Grid.sumAlong (ks : List Nat) (g : Grid F) : Grid F :=
  if ks.isEmpty then g.map (Elem.add .float64 (Elem.zero .float64))
  else g.foldAxes ks (Elem.add .float64) (Elem.zero .float64)

theorem Tensor.sumAs_reals (g : Grid F) (ks : List Nat) :
    (⟨.float64, g⟩ : Tensor F).sumAs .float64 ks = ⟨.float64, g.sumAlong ks⟩ := by
  unfold sumAs Grid.sumAlong
  rw [gridAs_self]
  split_ifs <;> rfl

theorem Tensor.sum_reals (g : Grid F) (ks : List Nat) :
    (⟨.float64, g⟩ : Tensor F).sum ks = ⟨.float64, g.sumAlong ks⟩ := sumAs_reals g ks

theorem Grid.shape_sumAlong (g : Grid F) (ks : List Nat) :
    (g.sumAlong ks).shape = eraseAll ks g.shape := by
  unfold sumAlong
  split_ifs with hks
  · rw [List.isEmpty_iff.mp hks]
    rfl
  · exact shape_foldAxes g ks

/-- Summing along axes gathers the elements that become one when their coordinates are erased. -/
theorem Grid.total_sumAlong (h : Additive ψ (Elem.add .float64) (Elem.zero .float64)) (g : Grid F)
    {ks : List Nat} (hks : Places g.shape.length ks) (t : List Nat → K) :
    (g.sumAlong ks).shape.total (fun i => ψ ((g.sumAlong ks).at i) * t i)
      = g.shape.total fun i => ψ (g.at i) * t (eraseAll ks i) := by
  rw [shape_sumAlong]
  unfold sumAlong
  split_ifs with hempty
  · rw [List.isEmpty_iff.mp hempty]
    refine Shape.total_congr fun i hi => ?_
    rw [at_map_of_mem hi, h.add, h.zero, zero_add]
    rfl
  · exact total_foldAxes h g hks t

/-- What reducing a derivative of real numbers to an operand's shape gathers. -/
theorem Tensor.total_unbroadcast (h : Additive ψ (Elem.add .float64) (Elem.zero .float64))
    {d : Grid F} {s : Shape} {z : Tensor F}
    (hz : (⟨.float64, d⟩ : Tensor F).unbroadcast s = .ok z) :
    ∃ (w : Grid F) (common : Shape), z = ⟨.float64, w⟩ ∧ w.shape = s ∧
      Shape.broadcast? d.shape s = some common ∧
      ∀ t : List Nat → K, s.total (fun i => ψ (w.at i) * t i)
        = common.total fun i => ψ (d.spread i) * t (s.project i) := by
  obtain ⟨common, hcommon⟩ := exists_common_of_unbroadcast hz
  obtain ⟨u, hu, hshape, hdtype⟩ := exists_unbroadcast hcommon
  obtain rfl : u = z := Except.ok.inj (hu.symm.trans hz)
  obtain ⟨e, w⟩ := u
  obtain rfl : e = .float64 := hdtype.elim id id
  have hmeasures : Measures (fun d x => ψ (Elem.toReal d x)) .float64 :=
    ⟨h, fun x => congrArg ψ (congrArg (Elem.toReal .float64) (Elem.convert_self .float64 x))⟩
  exact ⟨w, common, rfl, hshape, hcommon, hmeasures.total_unbroadcast hz hcommon⟩

end

end SlotGrad
