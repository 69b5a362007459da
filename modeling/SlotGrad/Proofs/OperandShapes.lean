import SlotGrad.Proofs.ShapedKernels

/-!
# Shapes of products of matrices, parts and joins

The kernels that rearrange members answer derivatives in the shapes of their operands: the
factors of a product of stacks of matrices, a value under another shape, the whole that a part
was taken of, and what was joined.  Of a join not even the kind of the operands matters.  They
are read as arrays, and the derivative is cut where they meet.

## Main definitions

* `Kernel.BelongTo` — real derivatives of the shapes of values.

## Main results

* `Kernel.exists_mtimesAdjoint` — the factors of a product.
* `Kernel.exists_reshapeAdjoint`, `Kernel.exists_sliceAdjoint` — the value behind another shape
  or a part.
* `Kernel.exists_catAdjoint`, `Kernel.exists_rootsAdjoint_shaped` — what was joined.
-/

namespace SlotGrad

variable {F : Type} [Arith F]

/-! ### Kernels that move members about -/

section

variable {α : Type} [Inhabited α]

/-- Stacks of matrices that agree on the inner extent have a product. -/
theorem Grid.exists_matrixProduct? {f g : α → α → α} {z : α} {a b : Grid α}
    {sa sb batch : Shape} {m k n : Nat} (ha : a.shape = sa ++ [m, k]) (hb : b.shape = sb ++ [k, n])
    (hbatch : Shape.broadcast? sa sb = some batch) :
    ∃ c, matrixProduct? f g z a b = some c ∧ c.shape = batch ++ [m, n] := by
  have hra : a.rank = sa.length + 2 := by
    unfold rank
    rw [ha, List.length_append]
    rfl
  have hrb : b.rank = sb.length + 2 := by
    unfold rank
    rw [hb, List.length_append]
    rfl
  unfold matrixProduct?
  simp only [hra, hrb, Nat.add_sub_cancel, ha, hb, (getD_append_pair sa m k).1,
    (getD_append_pair sa m k).2, (getD_append_pair sb k n).1, (getD_append_pair sb k n).2,
    List.take_left, hbatch, Nat.le_add_left, and_self, if_true, Option.map_some]
  exact ⟨_, rfl, rfl⟩

end

namespace Kernel

open Value

variable {a b x y dy : Value F} {s t r : Shape}

/-- A value of at least two axes is read as an array of numbers. -/
theorem contents_of_rank {s : Shape} {m n : Nat} (ha : a.Shaped (s ++ [m, n])) :
    ∃ t : Tensor F, a.contents = .ok (.numbers t) ∧ t.grid.shape = s ++ [m, n] :=
  ha.contents.resolve_right fun h => by
    have := h.2.1
    simp at this

/-- The product of two tensors in the type in which they meet. -/
theorem mtimes_numbers {s t : Tensor F} (ha : a.contents = .ok (.numbers s))
    (hb : b.contents = .ok (.numbers t)) (hs : 2 ≤ s.grid.rank) (ht : 2 ≤ t.grid.rank) :
    mtimes a b = do
      let d := s.dtype.common t.dtype
      let w ← Fallible.ofOption .badValue
        (Grid.matrixProduct? (Elem.mul d) (Elem.add d) (Elem.zero d) (s.gridAs d) (t.gridAs d))
      return reduced ⟨d, w⟩ := by
  have hrank : ¬ (s.rank = 0 ∨ t.rank = 0) := by
    unfold Tensor.rank
    unfold Grid.rank at hs ht
    omega
  have hproduct : s.product t = do
      let w ← Fallible.ofOption .badValue (Grid.matrixProduct? (Elem.mul (s.dtype.common t.dtype))
        (Elem.add (s.dtype.common t.dtype)) (Elem.zero (s.dtype.common t.dtype))
        (s.gridAs (s.dtype.common t.dtype)) (t.gridAs (s.dtype.common t.dtype)))
      return ⟨s.dtype.common t.dtype, w⟩ := by
    rw [Tensor.product_eq rfl hrank, Grid.product?_eq_matrixProduct?]
    · unfold Grid.rank
      rwa [Tensor.shape_gridAs]
    · unfold Grid.rank
      rwa [Tensor.shape_gridAs]
  unfold mtimes
  rw [ha, hb, ok_bind, ok_bind]
  dsimp only
  rw [hproduct, bind_assoc]
  rfl

theorem rank_append_pair {α : Type} {g : Grid α} {s : Shape} {m n : Nat}
    (h : g.shape = s ++ [m, n]) :
    2 ≤ g.rank := by
  unfold Grid.rank
  rw [h, List.length_append]
  exact Nat.le_add_left ..

/-- A product of stacks of matrices has the common batch and the outer extents. -/
theorem mtimes_shaped (ha : a.Shaped s) (hb : b.Shaped t) (hs : 2 ≤ s.length) (ht : 2 ≤ t.length)
    (h : mtimes a b = .ok y) :
    ∃ (sa sb batch : Shape) (m k n : Nat), s = sa ++ [m, k] ∧ t = sb ++ [k, n] ∧
      Shape.broadcast? sa sb = some batch ∧ y.Shaped (batch ++ [m, n]) := by
  obtain ⟨sa, m, k, rfl⟩ := Shape.exists_eq_append_pair hs
  obtain ⟨sb, k', n, rfl⟩ := Shape.exists_eq_append_pair ht
  obtain ⟨v, hv, hvs⟩ := contents_of_rank ha
  obtain ⟨w, hw, hws⟩ := contents_of_rank hb
  rw [mtimes_numbers hv hw (rank_append_pair hvs) (rank_append_pair hws)] at h
  obtain ⟨c, hc, h⟩ := bind_eq_ok.mp h
  obtain ⟨sa', sb', batch, m', k'', n', hsa, hsb, hbatch, hcs, -⟩ :=
    Grid.matrixProduct?_eq_some (ofOption_eq_ok.mp hc)
  rw [Tensor.shape_gridAs, hvs] at hsa
  rw [Tensor.shape_gridAs, hws] at hsb
  obtain ⟨rfl, rfl, rfl⟩ := append_pair_inj hsa
  obtain ⟨rfl, rfl, rfl⟩ := append_pair_inj hsb
  exact ⟨_, _, batch, _, _, _, rfl, rfl, hbatch, hcs ▸ pure_eq_ok.mp h ▸ shaped_reduced c⟩

/-- Tensors of which one is real have a real common type. -/
theorem isReal_common_of_contents {v w : Tensor F} (ha : a.Shaped s) (hb : b.Shaped t)
    (hv : a.contents = .ok (.numbers v)) (hw : b.contents = .ok (.numbers w))
    (hreal : a.isFractional = true ∨ b.isFractional = true) :
    (v.dtype.common w.dtype).isReal = true := by
  rcases hreal with h | h
  · obtain ⟨v', hv', -, hd⟩ := (ha.realShaped h).contents
    cases hv.symm.trans hv'
    exact Dtype.isReal_common hd _
  · obtain ⟨w', hw', -, hd⟩ := (hb.realShaped h).contents
    cases hw.symm.trans hw'
    rw [Dtype.common_comm]
    exact Dtype.isReal_common hd _

theorem exists_mtimes {sa sb batch : Shape} {m k n : Nat} (ha : a.Shaped (sa ++ [m, k]))
    (hb : b.Shaped (sb ++ [k, n])) (hbatch : Shape.broadcast? sa sb = some batch)
    (hreal : a.isFractional = true ∨ b.isFractional = true) :
    ∃ v, mtimes a b = .ok v ∧ v.RealShaped (batch ++ [m, n]) := by
  obtain ⟨v, hv, hvs⟩ := contents_of_rank ha
  obtain ⟨w, hw, hws⟩ := contents_of_rank hb
  have hdtype := isReal_common_of_contents ha hb hv hw hreal
  obtain ⟨c, hc, hcs⟩ := Grid.exists_matrixProduct? (f := Elem.mul (v.dtype.common w.dtype))
    (g := Elem.add (v.dtype.common w.dtype)) (z := Elem.zero (v.dtype.common w.dtype))
    ((Tensor.shape_gridAs v _).trans hvs) ((Tensor.shape_gridAs w _).trans hws) hbatch
  refine ⟨_, ?_, hcs ▸ realShaped_reduced hdtype c⟩
  rw [mtimes_numbers hv hw (rank_append_pair hvs) (rank_append_pair hws)]
  dsimp only
  rw [hc]
  rfl

theorem exists_transpose {m n : Nat} (ha : a.Shaped (s ++ [m, n])) :
    ∃ v, transpose a = .ok v ∧ v.Shaped (s ++ [n, m]) := by
  obtain ⟨t, ht, hts⟩ := contents_of_rank ha
  have hrank : ¬ t.rank < 2 := Nat.not_lt.mpr (rank_append_pair hts)
  refine ⟨.array ⟨t.dtype, t.grid.swapLast⟩, ?_, Grid.shape_swapLast hts ▸ shaped_array _⟩
  unfold transpose Tensor.swapLast
  rw [ht, ok_bind]
  dsimp only
  rw [if_neg hrank]
  rfl

/-- **Derivatives of the factors of stacks of matrices have the shapes of the factors.** -/
theorem exists_mtimesAdjoint (ha : a.Shaped s) (hb : b.Shaped t) (hs : 2 ≤ s.length)
    (ht : 2 ≤ t.length) (hy : mtimes a b = .ok y) (hr : y.shape = .ok r) (hdy : dy.RealShaped r) :
    ∃ da db, mtimesAdjoint a b dy = .ok (.tuple [da, db]) ∧ da.RealShaped s ∧ db.RealShaped t := by
  obtain ⟨sa, sb, batch, m, k, n, rfl, rfl, hbatch, hys⟩ := mtimes_shaped ha hb hs ht hy
  obtain rfl := hys.eq_of_shape hr
  obtain ⟨hsa, hsb⟩ := Shape.fits_of_broadcast? hbatch
  have hfits : ∀ {u : Shape} {i j : Nat}, u.Fits batch →
      Shape.Fits (u ++ [i, j]) (batch ++ [i, j]) :=
    fun hu => hu.append (List.forall₂_same.mpr fun _ _ => .inl rfl)
  obtain ⟨b', hb', hbs⟩ := exists_transpose hb
  obtain ⟨v, hv, hvs⟩ := exists_mtimes hdy.shaped hbs hsb.broadcast?.2 (.inl hdy.isFractional)
  obtain ⟨a', ha', has⟩ := exists_transpose ha
  obtain ⟨w, hw, hws⟩ := exists_mtimes has hdy.shaped hsa.broadcast?.1 (.inr hdy.isFractional)
  obtain ⟨da, hda, hdas⟩ := exists_unbroadcast hvs.realFits ha.shape (hfits hsa)
  obtain ⟨db, hdb, hdbs⟩ := exists_unbroadcast hws.realFits hb.shape (hfits hsb)
  refine ⟨da, db, ?_, hdas, hdbs⟩
  unfold mtimesAdjoint
  rw [hb', ok_bind, hv, ok_bind, ha', ok_bind, hw, ok_bind, hda, ok_bind, hdb]
  rfl

/-! #### Changes of shape -/

theorem shape_ofContents (c : Contents F) : (ofContents c).shape = .ok c.shape := by
  cases c <;> rfl

/-- Contents under another shape have that shape, and as many members. -/
theorem contents_reshape_eq_ok {c e : Contents F} {s : Shape} (h : c.reshape s = .ok e) :
    e.shape = s ∧ s.size = c.shape.size := by
  have hgrid : ∀ {α : Type} {g w : Grid α}, g.reshape? s = some w →
      w.shape = s ∧ s.size = g.shape.size := by
    intro α g w hw
    unfold Grid.reshape? at hw
    split at hw
    · rename_i hsize
      cases hw
      exact ⟨rfl, hsize⟩
    · cases hw
  unfold Contents.reshape Contents.restructure at h
  cases c <;>
  · obtain ⟨w, hw, h⟩ := bind_eq_ok.mp h
    cases pure_eq_ok.mp h
    exact hgrid (ofOption_eq_ok.mp hw)

/-- Real numbers are put under every shape of their size. -/
theorem exists_contents_reshape {w : Tensor F} {s : Shape} (h : s.size = w.grid.shape.size) :
    ∃ g : Grid (Elem F w.dtype), (Contents.numbers w).reshape s = .ok (.numbers ⟨w.dtype, g⟩) ∧
      g.shape = s := by
  have hg : w.grid.reshape? s = some ⟨s, w.grid.data, by rw [w.grid.size_eq, h]⟩ := dif_pos h
  refine ⟨⟨s, w.grid.data, by rw [w.grid.size_eq, h]⟩, ?_, rfl⟩
  unfold Contents.reshape Contents.restructure
  dsimp only
  rw [hg]
  rfl

theorem exists_reshapeTo (hdy : dy.RealShaped r) (h : s.size = r.size) :
    ∃ v, reshapeTo dy (s.map Int.ofNat) = .ok v ∧ v.RealShaped s := by
  obtain ⟨w, hw, rfl, hreal⟩ := hdy.contents
  obtain ⟨g, hg, hgs⟩ := exists_contents_reshape h
  unfold reshapeTo
  rw [hw, ok_bind, closeShape_ofNat, ok_bind, hg, ok_bind]
  split_ifs
  · exact ⟨_, rfl, hgs ▸ realShaped_reduced hreal g⟩
  · exact ⟨_, rfl, hgs ▸ realShaped_array (t := ⟨w.dtype, g⟩) hreal⟩

/-- A value under another shape has as many members. -/
theorem size_reshape {shape : Value F} (hx : x.Shaped s) (hy : reshape x shape = .ok y) :
    ∃ r : Shape, y.shape = .ok r ∧ s.size = r.size := by
  have hcontents : ∃ c, x.contents = .ok c ∧ c.shape = s := by
    have h := hx.shape
    unfold Value.shape at h
    obtain ⟨c, hc, h⟩ := bind_eq_ok.mp h
    exact ⟨c, hc, pure_eq_ok.mp h⟩
  obtain ⟨c, hc, rfl⟩ := hcontents
  cases hnone : shape.isNone with
  | true =>
    obtain rfl : shape = .none := by cases shape <;> first | rfl | cases hnone
    unfold reshape at hy
    dsimp only at hy
    split_ifs at hy
    · cases hy
      exact ⟨_, hx.shape, rfl⟩
    · rw [hc] at hy
      cases hy
      exact ⟨_, shape_ofContents c, rfl⟩
  | false =>
    -- Contents keep their number under every shape that is accepted.
    rw [reshape_of_isNone _ hnone] at hy
    obtain ⟨es, -, hy⟩ := bind_eq_ok.mp hy
    unfold reshapeTo at hy
    rw [hc, ok_bind] at hy
    obtain ⟨u, hu, hy⟩ := bind_eq_ok.mp hy
    obtain ⟨e, he, hy⟩ := bind_eq_ok.mp hy
    obtain ⟨hes, hsize⟩ := contents_reshape_eq_ok he
    refine ⟨e.shape, ?_, by rw [← hsize, ← hes]⟩
    split_ifs at hy with helement
    · -- Only an element of a tensor stays one.
      obtain ⟨d, z, rfl⟩ : ∃ d z, x = scalar d z := by
        cases x <;> first | exact ⟨_, _, rfl⟩ | cases helement.1
      cases hc
      obtain ⟨g, hg, h⟩ := bind_eq_ok.mp he
      cases pure_eq_ok.mp h
      rw [← pure_eq_ok.mp hy]
      exact (shaped_reduced g).shape
    · rw [← pure_eq_ok.mp hy]
      exact shape_ofContents e

/-- A derivative of as many members as a value is put under the value's shape. -/
theorem exists_reshapeAdjoint_of_size {shape : Value F} (hx : x.Shaped s) (hsize : s.size = r.size)
    (hdy : dy.RealShaped r) : ∃ dx, reshapeAdjoint x shape dy = .ok dx ∧ dx.RealShaped s := by
  obtain ⟨dx, hdx, hdxs⟩ := exists_reshapeTo hdy hsize
  refine ⟨dx, ?_, hdxs⟩
  unfold reshapeAdjoint
  rw [hx.shape, ok_bind, hdx]

/-- **The derivative of a change of shape has the shape from before.** -/
theorem exists_reshapeAdjoint {shape : Value F} (hx : x.Shaped s) (hy : reshape x shape = .ok y)
    (hr : y.shape = .ok r) (hdy : dy.RealShaped r) :
    ∃ dx, reshapeAdjoint x shape dy = .ok dx ∧ dx.RealShaped s := by
  obtain ⟨r', hr', hsize⟩ := size_reshape hx hy
  cases hr.symm.trans hr'
  exact exists_reshapeAdjoint_of_size hx hsize hdy

/-! #### Indexing -/

/-- The part at an index has the shape of the selection. -/
theorem getAt_shape {index : Value F} (hx : x.Shaped s) (hy : x.getAt index = .ok y) :
    ∃ picks sel, index.picks = .ok picks ∧ Selection.resolve picks s = .ok sel ∧
      y.shape = .ok sel.shape := by
  unfold getAt at hy
  rcases hx.contents with ⟨t, ht, rfl⟩ | ⟨hv, rfl, n, rfl⟩
  · rw [ht, ok_bind] at hy
    obtain ⟨picks, hpicks, hy⟩ := bind_eq_ok.mp hy
    obtain ⟨sel, hsel, hy⟩ := bind_eq_ok.mp hy
    refine ⟨picks, sel, hpicks, hsel, ?_⟩
    have hy : (if sel.isElement ∧ sel.shape = [] then reducedContents (.numbers (t.select sel))
      else ofContents (.numbers (t.select sel))) = y := pure_eq_ok.mp hy
    rw [← hy]
    split_ifs
    · exact (shaped_reduced (t.grid.select sel)).shape
    · exact shape_ofContents _
  · -- An integer is its only part without axes.
    rw [hv, ok_bind] at hy
    obtain ⟨picks, hpicks, hy⟩ := bind_eq_ok.mp hy
    obtain ⟨sel, hsel, hy⟩ := bind_eq_ok.mp hy
    refine ⟨picks, sel, hpicks, hsel, ?_⟩
    set part : Grid (Value F) := (Grid.single (integer n)).select sel with hpart
    have hy : (if sel.isElement ∧ sel.shape = [] then reducedContents (.objects part)
      else ofContents (.objects part)) = y := pure_eq_ok.mp hy
    rw [← hy]
    split_ifs with helement
    · have hfirst : part.first = integer n := by
        rw [Grid.first_eq_at (i := []) helement.2, hpart]
        unfold Grid.select
        rw [helement.2, Grid.at_ofFn (by simp), Grid.at_single]
      have hreduced : reducedContents (.objects part) = integer n :=
        (if_pos helement.2).trans hfirst
      rw [hreduced, helement.2]
      exact (shaped_of_weak? rfl).shape
    · exact shape_ofContents _

theorem commonDtype_of_operands {o p : Operand F} (hx : x.operand? = some o)
    (hdy : dy.operand? = some p) : x.commonDtype dy = .ok (o.meetDtype p) := by
  unfold Value.commonDtype
  dsimp only
  rcases operand?_eq_some hx with ⟨w, hw, rfl⟩ | ⟨t, hw, ht, rfl, -⟩
  · rcases operand?_eq_some hdy with ⟨w', hw', rfl⟩ | ⟨t', hw', ht', rfl, -⟩
    · rw [hw, hw']
      rfl
    · rw [hw, hw', ht']
      rfl
  · rcases operand?_eq_some hdy with ⟨w', hw', rfl⟩ | ⟨t', hw', ht', rfl, -⟩
    · rw [hw, ht, hw']
      rfl
    · rw [hw, ht, hw', ht']
      rfl

/-- Numbers that can be stretched to a selection's shape are added into real numbers. -/
theorem exists_addAtSelection {t w : Tensor F} {sel : Selection} (ht : t.dtype.isReal = true)
    (h : w.grid.shape.Fits sel.shape) :
    ∃ z, t.addAtSelection sel w = .ok z ∧ z.grid.shape = t.grid.shape ∧ z.dtype = t.dtype := by
  have hstores : ((t.dtype.common w.dtype).storesInto t.dtype) = true :=
    Dtype.storesInto_of_isReal (Dtype.isReal_common ht _) ht
  have hwide : w.broadcastTo sel.shape = .ok ⟨w.dtype, .ofFn sel.shape w.grid.spread⟩ := by
    unfold Tensor.broadcastTo
    rw [Grid.broadcastTo?_of_fits h]
  unfold Tensor.addAtSelection
  simp only [hstores, hwide, Bool.not_true, Bool.false_eq_true, if_false, ok_bind]
  exact ⟨_, rfl, shape_foldl_update .., rfl⟩

/-- A derivative is added into real numbers at an index that selects a part which it can be
stretched to. -/
theorem exists_addAtIndex {index : Value F} {t : Tensor F} (ht : t.dtype.isReal = true)
    {picks : List Pick} {sel : Selection} (hpicks : index.picks = .ok picks)
    (hsel : Selection.resolve picks t.grid.shape = .ok sel) (hdy : dy.RealFits sel.shape) :
    ∃ z, t.addAtIndex index dy = .ok z ∧ z.grid.shape = t.grid.shape ∧ z.dtype.isReal = true := by
  obtain ⟨u, hu, hdy⟩ := hdy
  obtain ⟨w, hw, rfl, -⟩ := hdy.contents
  obtain ⟨z, hz, hzs, hzd⟩ := exists_addAtSelection ht hu
  refine ⟨z, ?_, hzs, hzd ▸ ht⟩
  unfold Tensor.addAtIndex
  rw [hpicks, ok_bind, show t.shape = t.grid.shape from rfl, hsel, ok_bind, hw, ok_bind]
  exact hz

/-- The type in which a value meets a real one is real. -/
theorem exists_commonDtype (hx : x.Shaped s) (hdy : dy.RealShaped t) :
    ∃ d, x.commonDtype dy = .ok d ∧ d.isReal = true := by
  obtain ⟨o, ho, -⟩ := hx
  obtain ⟨p, hp, -, hfractional⟩ := hdy
  refine ⟨_, commonDtype_of_operands ho hp, ?_⟩
  rw [Operand.meetDtype_comm]
  exact Operand.isReal_meetDtype hfractional o

/-- **The derivative of a part has the shape of the whole.** -/
theorem exists_sliceAdjoint {index : Value F} (hx : x.Shaped s) (hy : slice x index = .ok y)
    (hr : y.shape = .ok r) (hdy : dy.RealFits r) :
    ∃ dx, sliceAdjoint x index dy = .ok dx ∧ dx.RealShaped s := by
  obtain ⟨picks, sel, hpicks, hsel, hsr⟩ := getAt_shape hx hy
  cases hr.symm.trans hsr
  obtain ⟨u, hu, hdys⟩ := hdy
  obtain ⟨d, hd, hreal⟩ := exists_commonDtype hx hdys
  obtain ⟨z, hz, hzs, hzreal⟩ := exists_addAtIndex (t := .zeros s d) hreal hpicks hsel ⟨u, hu, hdys⟩
  have hzs : z.grid.shape = s := hzs
  refine ⟨.array z, ?_, hzs ▸ realShaped_array hzreal⟩
  unfold sliceAdjoint
  rw [hx.shape, ok_bind, hd, ok_bind]
  dsimp only
  rw [hz]
  rfl

/-! #### Joins -/

/-- A grid of the shape of joined grids is cut into parts of the shapes of these grids. -/
theorem shapes_cut {α β : Type} [Inhabited α] [Inhabited β] {k : Nat} {gs : List (Grid α)}
    {u : Grid α} {d : Grid β} (hu : Grid.join? k gs = some u) (hd : d.shape = u.shape) :
    k < u.shape.length ∧ gs ≠ [] ∧ (∀ g ∈ gs, g.shape.length = u.shape.length) ∧
      List.Forall₂ (fun p g => p.shape = g.shape)
        (d.cut k (cuttingPoints (gs.map fun g => g.shape.getD k 0))) gs := by
  obtain ⟨cross, hne, hk, hjoin, hus, -⟩ := Grid.join?_eq_some hu
  have hlength : (cross.insertIdx k (Grid.extentSum k gs)).length = cross.length + 1 :=
    List.length_insertIdx_of_le_length hk _
  have hextent : (cross.insertIdx k (Grid.extentSum k gs)).getD k 0 = Grid.extentSum k gs := by
    rw [List.getD_eq_getElem _ _ (by omega), List.getElem_insertIdx_self]
  refine ⟨?_, hne, fun g hg => ?_, ?_⟩
  · rw [hus, hlength]
    omega
  · rw [hjoin.shape_eq hg, hus, List.length_insertIdx_of_le_length hk, hlength]
  · rw [Grid.cut_cuttingPoints hne (by rw [hd, hus, hextent])]
    exact Grid.shape_partsOf 0 hjoin (hd.trans hus)

/-- Contents are joined as grids of one type. -/
theorem join_eq_ok {k : Nat} {cs : List (Contents F)} {c : Contents F}
    (h : Contents.join k cs = .ok c) :
    ∃ (α : Type) (_ : Inhabited α) (gs : List (Grid α)) (u : Grid α), Grid.join? k gs = some u ∧
      u.shape = c.shape ∧ gs.map Grid.shape = cs.map Contents.shape := by
  unfold Contents.join at h
  dsimp only at h
  split_ifs at h with hall
  · obtain ⟨t, ht, h⟩ := bind_eq_ok.mp h
    cases pure_eq_ok.mp h
    obtain ⟨ts, rfl⟩ | ⟨e, he, hnone⟩ := Contents.all_numbers_or cs
    · have hts : (ts.map Contents.numbers).filterMap Contents.tensor? = ts := by
        rw [List.filterMap_map]
        exact List.filterMap_some
      rw [hts] at ht
      unfold Tensor.join at ht
      dsimp only at ht
      split at ht
      · rename_i g hg
        cases ht
        refine ⟨_, inferInstance, _, g, hg, rfl, ?_⟩
        rw [List.map_map, List.map_map]
        exact List.map_congr_left fun t _ => Tensor.shape_gridAs t _
      · cases ht
    · have := List.filterMap_length_eq_length.mp hall e he
      rw [hnone] at this
      cases this
  · split at h
    · rename_i g hg
      cases h
      refine ⟨_, inferInstance, _, g, hg, rfl, ?_⟩
      rw [List.map_map]
      exact List.map_congr_left fun e _ => by cases e <;> rfl
    · cases h

/-- **A derivative of the shape of joined contents is cut into parts of their shapes.** -/
theorem shapes_cut_join {k : Nat} {cs : List (Contents F)} {c : Contents F}
    (h : Contents.join k cs = .ok c) {α : Type} [Inhabited α] {d : Grid α}
    (hd : d.shape = c.shape) :
    k < c.shape.length ∧ cs ≠ [] ∧ (∀ e ∈ cs, e.shape.length = c.shape.length) ∧
      List.Forall₂ (fun p e => p.shape = e.shape)
        (d.cut k (cuttingPoints (cs.map fun e => e.shape.getD k 0))) cs := by
  obtain ⟨β, _, gs, u, hu, hus, hshapes⟩ := join_eq_ok h
  obtain ⟨hk, hne, hlengths, hparts⟩ := shapes_cut hu (hd.trans hus.symm)
  rw [hus] at hk hlengths
  have hextents : (gs.map fun g => g.shape.getD k 0) = cs.map fun e => e.shape.getD k 0 := by
    have := congrArg (List.map fun s : Shape => s.getD k 0) hshapes
    rwa [List.map_map, List.map_map] at this
  rw [hextents] at hparts
  refine ⟨hk, ?_, ?_, ?_⟩
  · rintro rfl
    exact hne (List.map_eq_nil_iff.mp hshapes)
  · intro e he
    obtain ⟨g, hg, hge⟩ := List.mem_map.mp (hshapes ▸ List.mem_map_of_mem he)
    rw [← hge, hlengths g hg]
  · have hmap := (List.forall₂_map_right_iff (R := fun (p : Grid _) (s : Shape) => p.shape = s)
      (f := Grid.shape)).mpr hparts
    rw [hshapes, List.forall₂_map_right_iff] at hmap
    exact hmap

/-- Tensors are cut as their grids. -/
theorem cut_numbers (w : Tensor F) (k : Nat) (points : List Nat) :
    (Contents.numbers w).cut k points = (w.grid.cut k points).map fun p => .numbers ⟨w.dtype, p⟩ :=
  List.map_map ..

/-- Lists that are related through a third one member by member. -/
theorem forall₂_comp {α β γ : Type} {R : α → β → Prop} {S : β → γ → Prop} {T : α → γ → Prop}
    (h : ∀ a b c, R a b → S b c → T a c) {as : List α} {bs : List β} (hab : List.Forall₂ R as bs) :
    ∀ {cs : List γ}, List.Forall₂ S bs cs → List.Forall₂ T as cs := by
  induction hab with
  | nil =>
    intro cs hbc
    cases hbc
    exact .nil
  | cons hR _ ih =>
    intro cs hbc
    obtain _ | ⟨hS, hbc⟩ := hbc
    exact .cons (h _ _ _ hR hS) (ih hbc)

/-- Related lists have related members at every place. -/
theorem exists_getElem?_of_forall₂ {α β : Type} {R : α → β → Prop} {as : List α} {bs : List β}
    (h : List.Forall₂ R as bs) {q : Nat} {a : α} (ha : as[q]? = some a) :
    ∃ b, bs[q]? = some b ∧ R a b := by
  induction h generalizing q with
  | nil => cases ha
  | cons hR _ ih =>
    cases q with
    | zero =>
      cases ha
      exact ⟨_, rfl, hR⟩
    | succ q => exact ih ha

/-- Derivatives that belong to values one by one. -/
def BelongTo (xs outs : List (Value F)) : Prop :=
  List.Forall₂ (fun x o => ∃ s, x.shape = .ok s ∧ o.RealShaped s) xs outs

/-- Parts of the sizes of values are put under their shapes. -/
theorem exists_reshapeParts_of_size {d : Dtype} (hd : d.isReal = true) {ps : List (Grid (Elem F d))}
    {xs : List (Value F)}
    (h : List.Forall₂ (fun p x => ∃ s, x.shape = .ok s ∧ s.size = p.shape.size) ps xs) :
    ∃ outs, reshapeParts (ps.map fun p => .numbers ⟨d, p⟩) xs = .ok outs ∧ BelongTo xs outs := by
  induction h with
  | nil => exact ⟨[], rfl, .nil⟩
  | @cons p x ps xs hx _ ih =>
    obtain ⟨s, hs, hsize⟩ := hx
    obtain ⟨outs, houts, hbelong⟩ := ih
    obtain ⟨g, hg, hgs⟩ := exists_contents_reshape (w := ⟨d, p⟩) hsize
    refine ⟨.array ⟨d, g⟩ :: outs, ?_,
      .cons ⟨s, hs, hgs ▸ realShaped_array (t := ⟨d, g⟩) hd⟩ hbelong⟩
    unfold reshapeParts at houts ⊢
    rw [List.map_cons, List.zip_cons_cons, List.mapM_cons, houts]
    dsimp only
    rw [hs, ok_bind, hg]
    rfl

omit [Arith F] in
/-- The vector of the members is as long as there are members. -/
theorem shape_flatten (c : Contents F) : c.flatten.shape = [c.shape.size] := by
  cases c with
  | numbers t => exact congrArg (fun n => [n]) t.grid.size_eq
  | texts g => exact congrArg (fun n => [n]) g.size_eq
  | objects g => exact congrArg (fun n => [n]) g.size_eq

omit [Arith F] in
/-- A vector of numbers is its vector of members. -/
theorem flatten_of_vector {w : Tensor F} (h : ∃ n, w.grid.shape = [n]) :
    (Contents.numbers w).flatten = .numbers w := by
  obtain ⟨n, hn⟩ := h
  obtain ⟨d, s, xs, hsize⟩ := w
  cases hn
  obtain rfl : xs.size = n := hsize.trans (Nat.mul_one n)
  rfl

omit [Arith F] in
theorem size_flatten (c : Contents F) : c.flatten.shape.size = c.shape.size := by
  rw [shape_flatten]
  exact Nat.mul_one _

omit [Arith F] in
theorem size_atLeastVector (c : Contents F) : c.atLeastVector.shape.size = c.shape.size := by
  unfold Contents.atLeastVector
  split_ifs
  · exact size_flatten c
  · rfl

/-- The parts of a derivative of a join have as many members as what was joined, which was made
vectors before. -/
theorem sizes_of_parts {α : Type} {f : Contents F → Contents F}
    (hf : ∀ c, (f c).shape.size = c.shape.size) {ps : List (Grid α)} {cs : List (Contents F)}
    {xs : List (Value F)} (hparts : List.Forall₂ (fun p e => p.shape = e.shape) ps (cs.map f))
    (hread : List.Forall₂ (fun x c => x.contents = .ok c) xs cs) :
    List.Forall₂ (fun p x => ∃ s, x.shape = .ok s ∧ s.size = p.shape.size) ps xs := by
  rw [List.forall₂_map_right_iff] at hparts
  refine forall₂_comp (fun p e x hp hx => ⟨e.shape, ?_, ?_⟩) hparts hread.flip
  · unfold Value.shape
    rw [hx]
    rfl
  · rw [hp, hf]

omit [Arith F] in
/-- A tensor of the shape of a join has axes. -/
theorem shape_ne_nil {w : Tensor F} {c : Contents F} {k : Nat} (hws : w.grid.shape = c.shape)
    (hk : k < c.shape.length) : ¬ (Contents.numbers w).shape = [] := by
  intro h
  rw [← hws, show w.grid.shape = [] from h] at hk
  cases hk

/-- Operands of one rank have their extents along the axis of a join. -/
theorem mapM_extents {axis : Value F} {n : Int} {k rank : Nat} {xs : List (Value F)}
    {cs : List (Contents F)} (hplace : axis.asPlace = .ok n) (hk : Shape.axis? rank n = some k)
    (hrank : ∀ e ∈ cs, e.atLeastVector.shape.length = rank)
    (hread : List.Forall₂ (fun x c => x.contents = .ok c) xs cs) :
    xs.mapM (fun v => (do
      let s := (← v.contents).atLeastVector.shape
      let k ← Fallible.ofOption .outOfRange (Shape.axis? s.length (← axis.asPlace))
      return s.getD k 0 : Fallible Nat))
        = .ok ((cs.map Contents.atLeastVector).map fun e => e.shape.getD k 0) := by
  have hboth := ((List.forall₂_and_left _ _).mpr ⟨hrank, hread.flip⟩).flip
  rw [mapM_eq_ok, List.map_map, List.forall₂_map_right_iff]
  refine hboth.imp fun x e hx => ?_
  obtain ⟨hlen, hxe⟩ := hx
  rw [hxe, ok_bind, hplace, ok_bind, hlen, hk]
  rfl

/-- A single number goes to every operand, in its shape. -/
theorem exists_mapM_unbroadcast {xs : List (Value F)} {cs : List (Contents F)}
    (hread : List.Forall₂ (fun x c => x.contents = .ok c) xs cs) (hdy : dy.RealShaped []) :
    ∃ outs, xs.mapM (unbroadcast dy) = .ok outs ∧ BelongTo xs outs := by
  induction hread with
  | nil => exact ⟨[], rfl, .nil⟩
  | @cons x c xs cs hx _ ih =>
    obtain ⟨outs, houts, hbelong⟩ := ih
    have hxs : x.shape = .ok c.shape := by
      unfold Value.shape
      rw [hx]
      rfl
    obtain ⟨v, hv, hvs⟩ := exists_unbroadcast (RealOver.realFits (.inr hdy)) hxs (Shape.Fits.refl _)
    refine ⟨v :: outs, ?_, .cons ⟨_, hxs, hvs⟩ hbelong⟩
    rw [List.mapM_cons, hv, houts]
    rfl

/-- A join is an array. -/
theorem exists_cat {axis : Value F} {xs : List (Value F)} (h : cat axis xs = .ok y) :
    ∃ c, y = ofContents c := by
  cases hnone : axis.isNone with
  | true =>
    obtain rfl : axis = .none := by cases axis <;> first | rfl | cases hnone
    obtain ⟨cs, -, h⟩ := bind_eq_ok.mp h
    obtain ⟨c, -, h⟩ := bind_eq_ok.mp h
    exact ⟨c, (pure_eq_ok.mp h).symm⟩
  | false =>
    rw [cat_of_isNone xs hnone] at h
    obtain ⟨cs, -, h⟩ := bind_eq_ok.mp h
    obtain ⟨n, -, h⟩ := bind_eq_ok.mp h
    obtain ⟨k, -, h⟩ := bind_eq_ok.mp h
    obtain ⟨c, -, h⟩ := bind_eq_ok.mp h
    exact ⟨c, (pure_eq_ok.mp h).symm⟩

/-- Nothing joins to nothing. -/
theorem cat_nil (axis y : Value F) : ¬ cat axis [] = .ok y := by
  intro h
  have hjoin : ∀ (k : Nat) (c : Contents F), ¬ Contents.join k [] = .ok c := by
    intro k c h
    exact (shapes_cut_join h (d := .full c.shape ()) rfl).2.1 rfl
  cases hnone : axis.isNone with
  | true =>
    obtain rfl : axis = .none := by cases axis <;> first | rfl | cases hnone
    obtain ⟨cs, hcs, h⟩ := bind_eq_ok.mp h
    cases hcs
    obtain ⟨c, hc, -⟩ := bind_eq_ok.mp h
    exact hjoin _ _ hc
  | false =>
    rw [cat_of_isNone [] hnone] at h
    obtain ⟨cs, hcs, h⟩ := bind_eq_ok.mp h
    cases hcs
    obtain ⟨n, -, h⟩ := bind_eq_ok.mp h
    obtain ⟨k, -, h⟩ := bind_eq_ok.mp h
    obtain ⟨c, hc, -⟩ := bind_eq_ok.mp h
    exact hjoin _ _ hc

/-- A derivative of a join among its operands: a part for each of one that has axes, and a
single number for all of them. -/
def shareOut (k : Nat) (points : List Nat) (xs : List (Value F)) (dy : Value F) :
    Fallible (List (Value F)) := do
  let c ← dy.contents
  if c.shape = [] then xs.mapM (unbroadcast dy) else reshapeParts (c.cut k points) xs

/-- **A derivative is shared out in the shapes of what was joined**, after it was made vectors. -/
theorem exists_shareOut {f : Contents F → Contents F}
    (hf : ∀ c, (f c).shape.size = c.shape.size) {k : Nat} {xs : List (Value F)}
    {cs : List (Contents F)} {c : Contents F}
    (hread : List.Forall₂ (fun x c => x.contents = .ok c) xs cs)
    (hc : Contents.join k (cs.map f) = .ok c) (hdy : dy.RealOver c.shape) :
    ∃ outs, shareOut k (cuttingPoints ((cs.map f).map fun e => e.shape.getD k 0)) xs dy = .ok outs ∧
      BelongTo xs outs := by
  unfold shareOut
  rcases hdy with hdy | hdy
  · obtain ⟨w, hw, hws, hreal⟩ := hdy.contents
    obtain ⟨hk, -, -, hparts⟩ := shapes_cut_join hc hws
    rw [hw, ok_bind, if_neg (shape_ne_nil hws hk), cut_numbers]
    exact exists_reshapeParts_of_size hreal (sizes_of_parts hf hparts hread)
  · obtain ⟨w, hw, hws, -⟩ := hdy.contents
    rw [hw, ok_bind, if_pos (show (Contents.numbers w).shape = [] from hws)]
    exact exists_mapM_unbroadcast hread hdy

/-- **The adjoint of a join along an axis shares the derivative out.** -/
theorem catAdjoint_eq_shareOut {axis : Value F} {xs : List (Value F)} (haxis : axis.isNone = false)
    (hy : cat axis xs = .ok y) (hr : y.shape = .ok r) :
    ∃ (k : Nat) (cs : List (Contents F)) (c : Contents F),
      List.Forall₂ (fun x c => x.contents = .ok c) xs cs ∧
      Contents.join k (cs.map Contents.atLeastVector) = .ok c ∧ c.shape = r ∧
      ∀ dy, dy.RealOver r → catAdjoint axis (xs ++ [dy]) = (do
        return .tuple (.none :: (← shareOut k (cuttingPoints
          ((cs.map Contents.atLeastVector).map fun e => e.shape.getD k 0)) xs dy))) := by
  rw [cat_of_isNone xs haxis] at hy
  obtain ⟨cs, hcs, hy⟩ := bind_eq_ok.mp hy
  obtain ⟨n, hn, hy⟩ := bind_eq_ok.mp hy
  obtain ⟨k, hk, hy⟩ := bind_eq_ok.mp hy
  obtain ⟨c, hc, hy⟩ := bind_eq_ok.mp hy
  have hread := mapM_eq_ok.mp hcs
  have hcr : c.shape = r := by
    rw [← pure_eq_ok.mp hy, shape_ofContents] at hr
    exact Except.ok.inj hr
  refine ⟨k, cs, c, hread, hc, hcr, fun dy hdy => ?_⟩
  unfold catAdjoint shareOut
  rw [List.getLast?_concat, List.dropLast_concat]
  rcases hdy with hdy | hdy
  · obtain ⟨w, hw, hws, -⟩ := hdy.contents
    have hws : w.grid.shape = c.shape := hws.trans hcr.symm
    obtain ⟨hkc, hne, hlengths, -⟩ := shapes_cut_join hc hws
    -- The axis is found among as many axes in every operand, in the result and in its derivative.
    have hfound : Shape.axis? c.shape.length n = some k := by
      cases cs with
      | nil => exact absurd rfl hne
      | cons e cs =>
        rw [← hlengths _ (List.mem_map_of_mem (List.mem_cons_self ..))]
        exact ofOption_eq_ok.mp hk
    have hplace := asPlace_of_asInteger hn
    have hsizes := mapM_extents hplace hfound
      (fun e he => hlengths _ (List.mem_map_of_mem he)) hread
    have haxes := shape_ne_nil hws hkc
    have hrank : (Contents.numbers w).shape.length = c.shape.length := congrArg List.length hws
    simp only [Fallible.ofOption_some, ok_bind, hw, if_neg haxes]
    rw [hsizes, ok_bind, hplace, ok_bind, hrank, hfound, Fallible.ofOption_some, ok_bind]
  · obtain ⟨w, hw, hws, -⟩ := hdy.contents
    have hws : (Contents.numbers w).shape = [] := hws
    simp only [Fallible.ofOption_some, ok_bind, hw, if_pos hws]

/-- **The adjoint of a vector of several values shares the derivative out.** -/
theorem rootsAdjoint_eq_shareOut {xs : List (Value F)} (hy : roots xs = .ok y)
    (hr : y.shape = .ok r) :
    ∃ (cs : List (Contents F)) (c : Contents F),
      List.Forall₂ (fun x c => x.contents = .ok c) xs cs ∧
      Contents.join 0 (cs.map Contents.flatten) = .ok c ∧ c.shape = r ∧
      ∀ dy, dy.RealOver r → rootsAdjoint (xs ++ [dy]) = (do
        return .tuple (← shareOut 0 (cuttingPoints
          ((cs.map Contents.flatten).map fun e => e.shape.getD 0 0)) xs dy)) := by
  obtain ⟨cs, hcs, hy⟩ := bind_eq_ok.mp hy
  obtain ⟨c, hc, hy⟩ := bind_eq_ok.mp hy
  have hread := mapM_eq_ok.mp hcs
  have hcr : c.shape = r := by
    rw [← pure_eq_ok.mp hy, shape_ofContents] at hr
    exact Except.ok.inj hr
  refine ⟨cs, c, hread, hc, hcr, fun dy hdy => ?_⟩
  have hsizes : xs.mapM Value.size
      = .ok ((cs.map Contents.flatten).map fun e => e.shape.getD 0 0) := by
    rw [mapM_eq_ok, List.map_map, List.forall₂_map_right_iff]
    refine hread.imp fun x e hx => ?_
    unfold Value.size Value.shape
    rw [hx, Function.comp_apply, shape_flatten]
    rfl
  unfold rootsAdjoint shareOut
  rw [List.getLast?_concat, List.dropLast_concat]
  rcases hdy with hdy | hdy
  · obtain ⟨w, hw, hws, -⟩ := hdy.contents
    have hws : w.grid.shape = c.shape := hws.trans hcr.symm
    obtain ⟨hkc, hne, hlengths, -⟩ := shapes_cut_join hc hws
    -- The result is a vector, and so is its derivative.
    have hvector : ∃ n, w.grid.shape = [n] := by
      obtain ⟨e, he⟩ := List.exists_mem_of_ne_nil _ hne
      obtain ⟨e', -, rfl⟩ := List.mem_map.mp he
      have hone := hlengths _ he
      rw [shape_flatten, ← hws] at hone
      exact List.length_eq_one_iff.mp hone.symm
    have haxes := shape_ne_nil hws hkc
    simp only [Fallible.ofOption_some, ok_bind, hw, if_neg haxes, hsizes, flatten_of_vector hvector]
  · obtain ⟨w, hw, hws, -⟩ := hdy.contents
    have hws : (Contents.numbers w).shape = [] := hws
    simp only [Fallible.ofOption_some, ok_bind, hw, if_pos hws]

/-- **Derivatives of what was joined along an axis have its shapes.** -/
theorem exists_catAdjoint {axis : Value F} {xs : List (Value F)} (haxis : axis.isNone = false)
    (hy : cat axis xs = .ok y) (hr : y.shape = .ok r) (hdy : dy.RealOver r) :
    ∃ outs, catAdjoint axis (xs ++ [dy]) = .ok (.tuple (.none :: outs)) ∧ BelongTo xs outs := by
  obtain ⟨k, cs, c, hread, hc, rfl, hadjoint⟩ := catAdjoint_eq_shareOut haxis hy hr
  obtain ⟨outs, houts, hbelong⟩ := exists_shareOut size_atLeastVector hread hc hdy
  refine ⟨outs, ?_, hbelong⟩
  rw [hadjoint dy hdy, houts]
  rfl

/-- **Derivatives of the values in a vector of several have their shapes.** -/
theorem exists_rootsAdjoint_shaped {xs : List (Value F)} (hy : roots xs = .ok y)
    (hr : y.shape = .ok r) (hdy : dy.RealOver r) :
    ∃ outs, rootsAdjoint (xs ++ [dy]) = .ok (.tuple outs) ∧ BelongTo xs outs := by
  obtain ⟨cs, c, hread, hc, rfl, hadjoint⟩ := rootsAdjoint_eq_shareOut hy hr
  obtain ⟨outs, houts, hbelong⟩ := exists_shareOut size_flatten hread hc hdy
  refine ⟨outs, ?_, hbelong⟩
  rw [hadjoint dy hdy, houts]
  rfl

end Kernel

end SlotGrad
