import SlotGrad.Array.Join
import SlotGrad.Array.Product
import SlotGrad.Array.Select
import SlotGrad.Kernel.Layout
import SlotGrad.Proofs.Axes

/-!
# Positions of products, joins and selections

What stands at each position of a product of stacks of matrices, of grids joined along an axis, and
of the parts that a joined grid is cut into again; and what adding into one place of a grid does to
a sum over its places.

## Main results

* `Grid.matrixProduct?_eq_some` — shapes and elements of a product of stacks of matrices.
* `Grid.join?_eq_some`, `Grid.sum_atJoined` — shapes of joined grids, and sums along the joined
  axis.
* `Grid.cut_cuttingPoints` — cutting at the places where grids of given extents were joined.
* `Grid.sum_update` — a sum over places after an addition at one of them.
-/

namespace SlotGrad

/-! ### Stacks of matrices -/

/-- A shape of at least two axes ends in two extents. -/
theorem Shape.exists_eq_append_pair {s : Shape} (h : 2 ≤ s.length) :
    ∃ (batch : Shape) (m n : Nat), s = batch ++ [m, n] := by
  refine ⟨s.take (s.length - 2), s.getD (s.length - 2) 0, s.getD (s.length - 2 + 1) 0, ?_⟩
  refine List.ext_getElem? fun k => ?_
  grind

namespace Grid

variable {α : Type} [Inhabited α]

theorem getD_append_pair (s : Shape) (m n : Nat) :
    (s ++ [m, n]).getD s.length 0 = m ∧ (s ++ [m, n]).getD (s.length + 1) 0 = n := by
  constructor <;> grind

/-- Shapes and elements of a product of stacks of matrices. -/
theorem matrixProduct?_eq_some {f g : α → α → α} {start : α} {a b c : Grid α}
    (h : matrixProduct? f g start a b = some c) :
    ∃ (sa sb batch : Shape) (m k n : Nat), a.shape = sa ++ [m, k] ∧ b.shape = sb ++ [k, n] ∧
      Shape.broadcast? sa sb = some batch ∧ c.shape = batch ++ [m, n] ∧
      ∀ i ∈ batch.indices, ∀ r < m, ∀ q < n, c.at (i ++ [r, q])
        = (List.range k).foldl (fun acc j =>
            g acc (f (a.at (sa.project i ++ [r, j])) (b.at (sb.project i ++ [j, q])))) start := by
  unfold matrixProduct? at h
  dsimp only at h
  split_ifs at h with hcond
  obtain ⟨ha, hb, hinner⟩ := hcond
  obtain ⟨sa, m, k, hsa⟩ := Shape.exists_eq_append_pair ha
  obtain ⟨sb, k', n, hsb⟩ := Shape.exists_eq_append_pair hb
  have hra : a.rank - 2 = sa.length := by
    unfold rank
    rw [hsa]
    simp
  have hrb : b.rank - 2 = sb.length := by
    unfold rank
    rw [hsb]
    simp
  rw [hra, hrb, hsa, hsb, (getD_append_pair sa m k).2, (getD_append_pair sb k' n).1] at hinner
  rw [hra, hrb, hsa, hsb, (getD_append_pair sa m k).1, (getD_append_pair sa m k).2,
    (getD_append_pair sb k' n).2, List.take_left, List.take_left] at h
  subst hinner
  obtain ⟨batch, hbatch, rfl⟩ := Option.map_eq_some_iff.mp h
  refine ⟨sa, sb, batch, m, k, n, hsa, hsb, hbatch, rfl, fun i hi r hr q hq => ?_⟩
  have hmem : i ++ [r, q] ∈ Shape.indices (batch ++ [m, n]) :=
    Shape.append_mem_indices hi (by simp [hr, hq])
  have hlen := Shape.length_of_mem_indices hi
  rw [at_ofFn hmem]
  rw [← hlen, List.take_left, (getD_append_pair i r q).1, (getD_append_pair i r q).2]

theorem swapEnd_append_pair (s : List Nat) (m n : Nat) : swapEnd (s ++ [m, n]) = s ++ [n, m] := by
  simp [swapEnd]

theorem shape_swapLast {a : Grid α} {s : Shape} {m n : Nat} (h : a.shape = s ++ [m, n]) :
    a.swapLast.shape = s ++ [n, m] := by
  unfold swapLast
  rw [shape_ofFn, h, swapEnd_append_pair]

theorem at_swapLast {a : Grid α} {s : Shape} {m n : Nat} (h : a.shape = s ++ [m, n]) {i : List Nat}
    (hi : i ∈ s.indices) {r q : Nat} (hr : r < n) (hq : q < m) :
    a.swapLast.at (i ++ [r, q]) = a.at (i ++ [q, r]) := by
  unfold swapLast
  rw [h, swapEnd_append_pair, at_ofFn (Shape.append_mem_indices hi (by simp [hr, hq])),
    swapEnd_append_pair]

/-- A product of grids of at least two axes each adds and removes no axis. -/
theorem product?_eq_matrixProduct? {f g : α → α → α} {start : α} {a b : Grid α} (ha : 2 ≤ a.rank)
    (hb : 2 ≤ b.rank) : product? f g start a b = matrixProduct? f g start a b := by
  have ha' : ¬ a.rank = 1 := by omega
  have hb' : ¬ b.rank = 1 := by omega
  unfold product?
  simp only [if_neg ha', if_neg hb']
  cases h : matrixProduct? f g start a b with
  | none => rfl
  | some c =>
    obtain ⟨-, -, batch, m, -, n, -, -, -, hc, -⟩ := matrixProduct?_eq_some h
    have hrank : c.rank - 2 = batch.length := by
      unfold rank
      rw [hc]
      simp
    have hshape : c.shape.take (c.rank - 2) ++ [c.shape.getD (c.rank - 2) 0]
        ++ [c.shape.getD (c.rank - 2 + 1) 0] = c.shape := by
      rw [hrank, hc, List.take_left, (getD_append_pair batch m n).1,
        (getD_append_pair batch m n).2, List.append_assoc]
      rfl
    change c.reshape? _ = some c
    exact reshape?_self hshape.symm

end Grid

/-! ### Joined grids -/

namespace Grid

variable {α : Type} [Inhabited α]

/-- The extents of some grids along an axis added up. -/
def extentSum (k : Nat) (gs : List (Grid α)) : Nat := (gs.map fun g => g.shape.getD k 0).sum

omit [Inhabited α] in
theorem foldl_extents (k : Nat) (gs : List (Grid α)) (n : Nat) :
    gs.foldl (fun n b => n + b.shape.getD k 0) n = n + extentSum k gs := by
  induction gs generalizing n with
  | nil => rfl
  | cons g gs ih =>
    rw [List.foldl_cons, ih]
    unfold extentSum
    rw [List.map_cons, List.sum_cons, Nat.add_assoc]

/-- Grids of one shape except along an axis. -/
structure Joinable (k : Nat) (cross : Shape) (gs : List (Grid α)) : Prop where
  /-- The axis is one of the first grid's and so of every grid. -/
  axis : ∀ g ∈ gs, k < g.shape.length
  /-- The other extents agree. -/
  agree : ∀ g ∈ gs, g.shape.eraseIdx k = cross

omit [Inhabited α] in
theorem Joinable.tail {k : Nat} {cross : Shape} {g : Grid α} {gs : List (Grid α)}
    (h : Joinable k cross (g :: gs)) : Joinable k cross gs :=
  ⟨fun b hb => h.axis b (List.mem_cons_of_mem _ hb),
    fun b hb => h.agree b (List.mem_cons_of_mem _ hb)⟩

omit [Inhabited α] in
theorem Joinable.shape_eq {k : Nat} {cross : Shape} {gs : List (Grid α)}
    (h : Joinable k cross gs) {g : Grid α} (hg : g ∈ gs) :
    g.shape = cross.insertIdx k (g.shape.getD k 0) := by
  have hk := h.axis g hg
  rw [← h.agree g hg, List.insertIdx_eraseIdx_self (Nat.ne_of_lt hk),
    List.getD_eq_getElem _ _ hk, List.set_getElem_self]

/-- Shapes and elements of joined grids. -/
theorem join?_eq_some {k : Nat} {gs : List (Grid α)} {w : Grid α} (h : join? k gs = some w) :
    ∃ cross : Shape, gs ≠ [] ∧ k ≤ cross.length ∧ Joinable k cross gs ∧
      w.shape = cross.insertIdx k (extentSum k gs) ∧
      ∀ i ∈ cross.indices, ∀ j < extentSum k gs,
        w.at (i.insertIdx k j) = atJoined k (i.insertIdx k j) gs j := by
  unfold join? at h
  split at h
  · cases h
  · rename_i a rest
    split_ifs at h with hcond
    obtain ⟨hk, hall⟩ := hcond
    have hk : k < a.shape.length := hk
    have htotal : (a :: rest).foldl (fun n b => n + b.shape.getD k 0) 0
        = extentSum k (a :: rest) := by
      rw [foldl_extents, Nat.zero_add]
    dsimp only at h
    rw [htotal] at h
    cases h
    -- The joined extent stands where the first grid had its own.
    have hset : a.shape.set k (extentSum k (a :: rest))
        = (a.shape.eraseIdx k).insertIdx k (extentSum k (a :: rest)) :=
      (List.insertIdx_eraseIdx_self (Nat.ne_of_lt hk) _).symm
    have hle : k ≤ (a.shape.eraseIdx k).length := by
      rw [List.length_eraseIdx_of_lt hk]
      omega
    refine ⟨a.shape.eraseIdx k, List.cons_ne_nil _ _, hle, ⟨?_, ?_⟩, hset, ?_⟩
    · intro g hg
      rcases List.mem_cons.mp hg with rfl | hg
      · exact hk
      · have := List.all_eq_true.mp hall g hg
        have hrank : g.shape.length = a.shape.length := (of_decide_eq_true this).1
        omega
    · intro g hg
      rcases List.mem_cons.mp hg with rfl | hg
      · rfl
      · exact (of_decide_eq_true (List.all_eq_true.mp hall g hg)).2
    · intro i hi j hj
      have hlen : k < (i.insertIdx k j).length := by
        rw [List.length_insertIdx_of_le_length] <;> rw [Shape.length_of_mem_indices hi] <;> omega
      rw [at_ofFn (hset ▸ Shape.insertIdx_mem_indices hi hle hj), List.getD_eq_getElem _ _ hlen,
        List.getElem_insertIdx_self]

omit [Inhabited α] in
theorem set_insertIdx_self (l : List α) (k : Nat) (x y : α) :
    (l.insertIdx k x).set k y = l.insertIdx k y := by
  induction k generalizing l with
  | zero => rfl
  | succ k ih =>
    cases l with
    | nil => rfl
    | cons z l => rw [List.insertIdx_succ_cons, List.insertIdx_succ_cons, List.set_cons_succ, ih]

theorem atJoined_cons (k : Nat) (i : List Nat) (g : Grid α) (gs : List (Grid α)) (j : Nat) :
    atJoined k i (g :: gs) j = if j < g.shape.getD k 0 then g.at (i.set k j)
      else atJoined k i gs (j - g.shape.getD k 0) := rfl

/-- A joined grid is read at the counted coordinate, whatever stands in the position. -/
theorem atJoined_insertIdx (k : Nat) (i : List Nat) (gs : List (Grid α)) (x y j : Nat) :
    atJoined k (i.insertIdx k x) gs j = atJoined k (i.insertIdx k y) gs j := by
  induction gs generalizing j with
  | nil => rfl
  | cons g gs ih =>
    rw [atJoined_cons, atJoined_cons, set_insertIdx_self, set_insertIdx_self, ih]

/-- The runs of layers that belong to grids joined along an axis. -/
def partsOf {β : Type} [Inhabited β] (k : Nat) (d : Grid β) : Nat → List (Grid α) → List (Grid β)
  | _, [] => []
  | start, g :: gs =>
    d.layers k start (g.shape.getD k 0) :: partsOf k d (start + g.shape.getD k 0) gs

/-- Against a joined grid a sum falls apart into one for each of the grids. -/
theorem total_atJoined {K : Type} [CommSemiring K] [Inhabited K] (ψ : α → K) (start : Nat)
    {k : Nat} {cross : Shape} (hk : k ≤ cross.length) {gs : List (Grid α)}
    (hgs : Joinable k cross gs) {d : Grid K} {n : Nat} (hd : d.shape = cross.insertIdx k n)
    (hn : start + extentSum k gs ≤ n) :
    cross.total (fun i => ∑ j ∈ Finset.range (extentSum k gs),
        d.at (i.insertIdx k (start + j)) * ψ (atJoined k (i.insertIdx k j) gs j))
      = (((partsOf k d start gs).zip gs).map fun p =>
          p.2.shape.total fun i => p.1.at i * ψ (p.2.at i)).sum := by
  induction gs generalizing start with
  | nil =>
    refine Shape.total_eq_zero fun i _ => ?_
    rfl
  | cons g gs ih =>
    have hsum : extentSum k (g :: gs) = g.shape.getD k 0 + extentSum k gs := rfl
    rw [hsum] at hn ⊢
    have hrest := ih (start + g.shape.getD k 0) hgs.tail (by omega)
    have hshape := hgs.shape_eq (List.mem_cons_self ..)
    have hgk := hgs.axis g (List.mem_cons_self ..)
    -- The first grid's share of the sum, and what is left.
    have hsplit : ∀ i ∈ cross.indices,
        ∑ j ∈ Finset.range (g.shape.getD k 0 + extentSum k gs), d.at (i.insertIdx k (start + j))
          * ψ (atJoined k (i.insertIdx k j) (g :: gs) j)
        = (∑ j ∈ Finset.range (g.shape.getD k 0),
            d.at (i.insertIdx k (start + j)) * ψ (g.at (i.insertIdx k j)))
          + ∑ j ∈ Finset.range (extentSum k gs),
            d.at (i.insertIdx k (start + g.shape.getD k 0 + j))
              * ψ (atJoined k (i.insertIdx k j) gs j) := by
      intro i _
      rw [Finset.sum_range_add]
      congr 1
      · refine Finset.sum_congr rfl fun j hj => ?_
        rw [atJoined_cons, if_pos (Finset.mem_range.mp hj), set_insertIdx_self]
      · refine Finset.sum_congr rfl fun j _ => ?_
        rw [atJoined_cons, if_neg (by omega), Nat.add_sub_cancel_left, Nat.add_assoc,
          atJoined_insertIdx k i gs (g.shape.getD k 0 + j) j]
    rw [Shape.total_congr hsplit, Shape.total_add, hrest]
    -- The layers of the first part make up a tensor of its shape.
    have hfirst : cross.total (fun i => ∑ j ∈ Finset.range (g.shape.getD k 0),
        d.at (i.insertIdx k (start + j)) * ψ (g.at (i.insertIdx k j)))
        = g.shape.total fun i => (d.layers k start (g.shape.getD k 0)).at i * ψ (g.at i) := by
      rw [Shape.total_eraseIdx hgk, hgs.agree g (List.mem_cons_self ..)]
      refine Shape.total_congr fun i hi => Finset.sum_congr rfl fun j hj => ?_
      have hj := Finset.mem_range.mp hj
      have hmem : i.insertIdx k j ∈ Shape.indices (d.shape.set k (g.shape.getD k 0)) := by
        rw [hd, set_insertIdx_self]
        exact Shape.insertIdx_mem_indices hi hk hj
      have hlen : k < (i.insertIdx k j).length := by
        rw [List.length_insertIdx_of_le_length] <;> rw [Shape.length_of_mem_indices hi] <;> omega
      unfold layers
      rw [at_ofFn hmem, set_insertIdx_self, List.getD_eq_getElem _ _ hlen,
        List.getElem_insertIdx_self, Nat.add_comm j start]
    rw [hfirst]
    rfl

omit [Inhabited α] in
/-- The layers of a grid that belong to the joined grids, each by its place. -/
theorem partsOf_eq_map {β : Type} [Inhabited β] (k : Nat) (d : Grid β) (start : Nat)
    (gs : List (Grid α)) :
    partsOf k d start gs = (List.range gs.length).map fun j =>
      d.layers k (start + ((gs.map fun g => g.shape.getD k 0).take j).sum)
        ((gs.map fun g => g.shape.getD k 0).getD j 0) := by
  induction gs generalizing start with
  | nil => rfl
  | cons g gs ih =>
    rw [List.length_cons, List.range_succ_eq_map, List.map_cons, List.map_map]
    unfold partsOf
    rw [ih]
    refine congrArg₂ List.cons rfl (List.map_congr_left fun j _ => ?_)
    simp [Nat.add_assoc]

omit [Inhabited α] in
/-- Cutting at the places where grids of given extents were joined gives back their layers. -/
theorem cut_cuttingPoints {β : Type} [Inhabited β] {k : Nat} {d : Grid β} {gs : List (Grid α)}
    (hgs : gs ≠ []) (hd : d.shape.getD k 0 = extentSum k gs) :
    d.cut k (Kernel.cuttingPoints (gs.map fun g => g.shape.getD k 0)) = partsOf k d 0 gs := by
  unfold extentSum at hd
  rw [partsOf_eq_map]
  obtain ⟨m, hm⟩ : ∃ m, gs.length = m + 1 := ⟨gs.length - 1, by
    have := List.length_pos_iff.mpr hgs
    omega⟩
  have hsizes : (gs.map fun g => g.shape.getD k 0).length = m + 1 := by rw [List.length_map, hm]
  rw [hm]
  generalize (gs.map fun g => g.shape.getD k 0) = sizes at hd hsizes ⊢
  -- Prefix sums are the places between the runs.
  have hpoints : Kernel.cuttingPoints sizes
      = (List.range m).map fun j => (sizes.take (j + 1)).sum := by
    unfold Kernel.cuttingPoints
    rw [hsizes, List.range_succ_eq_map, List.drop_one, List.tail_cons, List.map_map]
    refine List.map_congr_left fun j _ => ?_
    rw [Function.comp_apply, List.sum_eq_foldl]
  have hwhole : (sizes.take (m + 1)).sum = d.shape.getD k 0 := by
    rw [hd, ← hsizes, List.take_length]
  have hle : ∀ j, min (d.shape.getD k 0) (sizes.take j).sum = (sizes.take j).sum := by
    intro j
    have := List.sum_take_add_sum_drop sizes j
    omega
  have hstarts : (0 :: Kernel.cuttingPoints sizes).map (min (d.shape.getD k 0))
      = (List.range (m + 1)).map fun j => (sizes.take j).sum := by
    rw [hpoints, List.range_succ_eq_map]
    simp only [List.map_cons, List.map_map, Nat.min_zero, List.take_zero, List.sum_nil]
    refine congrArg₂ List.cons rfl (List.map_congr_left fun j _ => ?_)
    exact hle _
  have hstops : (Kernel.cuttingPoints sizes ++ [d.shape.getD k 0]).map (min (d.shape.getD k 0))
      = (List.range (m + 1)).map fun j => (sizes.take (j + 1)).sum := by
    rw [hpoints, List.range_succ, List.map_append, List.map_append, List.map_map]
    refine congrArg₂ (· ++ ·) (List.map_congr_left fun j _ => hle _) ?_
    rw [List.map_singleton, List.map_singleton, Nat.min_self, hwhole]
  unfold cut
  dsimp only
  rw [hstarts, hstops, List.zipWith_map, List.zipWith_self]
  refine List.map_congr_left fun j hj => ?_
  have hj : j < sizes.length := by
    have := List.mem_range.mp hj
    omega
  rw [List.take_add_one, List.sum_append, Nat.zero_add, Nat.add_sub_cancel_left,
    List.getElem?_eq_getElem hj, List.getD_eq_getElem _ _ hj]
  simp

/-! ### Adding at a place -/

/-- A sum over the positions of two grids of one shape goes along their elements. -/
theorem total_eq_sum_data {K : Type} [CommSemiring K] [Inhabited K] {ψ : α → K} {d : Grid K}
    {x : Grid α} (hs : d.shape = x.shape) : x.shape.total (fun j => d.at j * ψ (x.at j))
      = ∑ n ∈ Finset.range x.shape.size, d.data.getD n default * ψ (x.data.getD n default) := by
  rw [← Shape.total_ravel]
  unfold «at»
  rw [hs]

/-- Grids with the same elements in row-major order have the same sums. -/
theorem total_of_data_eq {K : Type} [CommSemiring K] [Inhabited K] {ψ : α → K} {d e : Grid K}
    {x y : Grid α} (hd : d.shape = x.shape) (he : e.shape = y.shape) (hde : d.data = e.data)
    (hxy : x.data = y.data) :
    x.shape.total (fun j => d.at j * ψ (x.at j)) = y.shape.total fun j => e.at j * ψ (y.at j) := by
  rw [total_eq_sum_data hd, total_eq_sum_data he, hde, hxy, ← x.size_eq, ← y.size_eq, hxy]

/-- An addition at one place of a grid adds that much, weighted, to a sum over its places. -/
theorem total_update {K : Type} [CommSemiring K] [Inhabited K] {ψ : α → K} (hψ : ψ default = 0)
    {d : Grid K} {x : Grid α} (hs : d.shape = x.shape) (i : List Nat) (v : K) :
    x.shape.total (fun j => (d.update i fun old => old + v).at j * ψ (x.at j))
      = x.shape.total (fun j => d.at j * ψ (x.at j)) + v * ψ (x.at i) := by
  have hupdated : (d.update i fun old => old + v).shape = x.shape := hs
  rw [total_eq_sum_data hupdated, total_eq_sum_data hs]
  -- The element at the place gains the addend, and every other one is as it was.
  have hterm : ∀ n ∈ Finset.range x.shape.size,
      (d.update i fun old => old + v).data.getD n default * ψ (x.data.getD n default)
        = d.data.getD n default * ψ (x.data.getD n default)
          + if x.shape.ravel i = n then v * ψ (x.at i) else 0 := by
    intro n hn
    have hn : n < d.data.size := by
      rw [d.size_eq, hs]
      exact Finset.mem_range.mp hn
    unfold update
    simp only [Array.getD_eq_getD_getElem?, Array.getElem?_modify, hs]
    split_ifs with hin
    · unfold «at»
      rw [hin, Array.getElem?_eq_getElem hn, Array.getD_eq_getD_getElem?, Option.map_some,
        Option.getD_some, Option.getD_some, add_mul]
    · rw [add_zero]
  rw [Finset.sum_congr rfl hterm, Finset.sum_add_distrib, Finset.sum_ite_eq]
  split_ifs with hin
  · rfl
  · have hout : x.at i = default := by
      have hge : x.data.size ≤ x.shape.ravel i := by
        rw [x.size_eq]
        exact Nat.le_of_not_lt fun h => hin (Finset.mem_range.mpr h)
      unfold «at»
      rw [Array.getD_eq_getD_getElem?, Array.getElem?_eq_none hge, Option.getD_none]
    rw [hout, hψ, mul_zero]

end Grid

end SlotGrad
