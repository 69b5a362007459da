import SlotGrad.Proofs.FilledDerivatives
import SlotGrad.Proofs.ReducedDerivatives

/-!
# Values that stand for one array

Stretched to a shape, a number stands for the array of its copies, and an array for itself.  In
exact arithmetic most kernels cannot tell values apart that stand for the same array: what they
answer stands for the same array again.  Precisions do not matter either, and neither does
whether a single number is plain, an element of a tensor or an array.

A derivative that is reduced to the shape of an operand is an exception.  It is summed over the
common shape of the two, so it must reach the shape that it stands for together with the
operand.

## Main definitions

* `Value.StandsFor` — a real value that is an array of given numbers when it is stretched.
* `Value.Alike` — values that stand for one array.

## Main results

* `Value.operate_figures` — operators calculate with the numbers that values stand for.
* `Value.Alike.operate`, `Value.Alike.negate`, `Value.Alike.plus` — operators.
* `Value.Alike.unbroadcast`, `Value.Alike.expandReduced` — derivatives of stretched and of reduced
  operands.
* `Value.Alike.sparseAddend` — what is added at an index.
-/

namespace SlotGrad

variable {K : Type} [Field K] [Arith K] [ExactArith K]

/-! ### Numbers of results -/

omit [Field K] [ExactArith K] in
/-- The numbers of a tensor are read as its elements are. -/
theorem Tensor.at_toReals (t : Tensor K) (i : List Nat) :
    t.toReals.at i = Elem.toReal t.dtype (t.grid.at i) := by
  refine Grid.at_map ?_ t.grid i
  obtain ⟨d, g⟩ := t
  cases d <;> rfl

omit [Field K] [ExactArith K] in
theorem Tensor.spread_toReals (t : Tensor K) (i : List Nat) :
    t.toReals.spread i = Elem.toReal t.dtype (t.grid.spread i) := t.at_toReals _

/-- As real elements a tensor has the numbers that it is read as, in single precision too. -/
theorem Tensor.gridAs_eq_toReals (t : Tensor K) :
    t.gridAs .float32 = t.toReals ∧ t.gridAs .float64 = t.toReals :=
  ⟨eq_of_heq (Tensor.mk.inj (gridAs_toReals (d := .float32) rfl t)).2,
    eq_of_heq (Tensor.mk.inj (gridAs_toReals (d := .float64) rfl t)).2⟩

/-- Tensors of real numbers meet number by number. -/
theorem Tensor.toReals_binary (op : Operator) {d : Dtype} (hd : d.isReal = true) {a b w : Tensor K}
    (h : binary op.onElements d a b = .ok w) :
    w.dtype = d ∧ Grid.zipWith? op.onReals a.toReals b.toReals = some w.toReals := by
  obtain ⟨ha, ha'⟩ := a.gridAs_eq_toReals
  obtain ⟨hb, hb'⟩ := b.gridAs_eq_toReals
  unfold binary at h
  cases hz : Grid.zipWith? (op.onElements d) (a.gridAs d) (b.gridAs d) with
  | none =>
    rw [hz] at h
    cases h
  | some g =>
    rw [hz] at h
    cases h
    refine ⟨rfl, ?_⟩
    rcases Dtype.isReal_iff.mp hd with rfl | rfl
    · have hop : (op.onElements .float32 : K → K → K) = op.onReals := by
        funext x y
        cases op <;> exact ExactArith.toSingle_eq _
      rw [ha, hb, hop] at hz
      exact hz.trans (congrArg some (Grid.map_eq_self (fun _ => rfl) g).symm)
    · have hop : (op.onElements .float64 : K → K → K) = op.onReals := by
        funext x y
        cases op <;> rfl
      rw [ha', hb', hop] at hz
      exact hz.trans (congrArg some (Grid.map_eq_self (fun _ => rfl) g).symm)

/-- Stacks of matrices of real numbers are multiplied number by number. -/
theorem Tensor.toReals_matrixProduct? {d : Dtype} (hd : d.isReal = true) {a b : Tensor K}
    {g : Grid (Elem K d)}
    (h : Grid.matrixProduct? (Elem.mul d) (Elem.add d) (Elem.zero d) (a.gridAs d)
      (b.gridAs d) = some g) :
    Grid.matrixProduct? Arith.mul Arith.add (Arith.ofInt 0) a.toReals b.toReals
      = some (toReals ⟨d, g⟩) := by
  obtain ⟨ha, ha'⟩ := a.gridAs_eq_toReals
  obtain ⟨hb, hb'⟩ := b.gridAs_eq_toReals
  rcases Dtype.isReal_iff.mp hd with rfl | rfl
  · have hmul : (Elem.mul .float32 : K → K → K) = Arith.mul := by
      funext x y
      exact ExactArith.toSingle_eq _
    have hadd : (Elem.add .float32 : K → K → K) = Arith.add := by
      funext x y
      exact ExactArith.toSingle_eq _
    rw [ha, hb, hmul, hadd] at h
    exact h.trans (congrArg some (Grid.map_eq_self (fun _ => rfl) g).symm)
  · rw [ha', hb'] at h
    exact h.trans (congrArg some (Grid.map_eq_self (fun _ => rfl) g).symm)

namespace Value

variable {a b v w : Value K} {g h : Grid K} {s t u r c : Shape}

omit [Field K] [ExactArith K] in
/-- A tensor of real numbers stands for them, also as the result of a reduction. -/
theorem figures?_reduced_real {t : Tensor K} (ht : t.dtype.isReal = true) :
    (reduced t).figures? = some t.toReals ∧ (reduced t).isFractional = true := by
  have hofReals : t = .ofReals t.dtype t.toReals := Tensor.eq_ofReals ht rfl
  rw [hofReals, Tensor.toReals_ofReals]
  exact figures?_reduced ht _

omit [Field K] [ExactArith K] in
theorem shaped_of_figures? (hg : v.figures? = some g) : v.Shaped g.shape := by
  obtain ⟨o, ho, hg⟩ := Option.bind_eq_some_iff.mp hg
  refine ⟨o, ho, ?_⟩
  cases o with
  | weak w =>
    obtain ⟨x, -, rfl⟩ := Option.map_eq_some_iff.mp hg
    rfl
  | solid t =>
    cases hg
    rfl

/-- A plain number or a tensor stands for numbers. -/
theorem Shaped.exists_figures (hv : v.Shaped s) : ∃ g, v.figures? = some g ∧ g.shape = s := by
  have hfinite : v.Finite := fun _ _ => ExactArith.isFinite_eq _
  obtain ⟨g, hg⟩ : ∃ g, v.figures? = some g := by
    rcases hv.cases with ⟨w, hw, ho, -⟩ | ⟨t, -, -, ho, -⟩
    · obtain ⟨x, hx⟩ := hfinite.toReal hw
      refine ⟨.single x, ?_⟩
      unfold figures?
      rw [ho, Option.bind_some]
      unfold Operand.figures?
      dsimp only
      rw [hx]
      rfl
    · refine ⟨t.toReals, ?_⟩
      unfold figures?
      rw [ho, Option.bind_some]
      rfl
  exact ⟨g, hg, (shaped_of_figures? hg).eq_of_shape hv.shape⟩

/-- **Operators calculate with the numbers that values stand for**, if one of them is real. -/
theorem operate_figures {op : Operator} (hreal : a.isFractional = true ∨ b.isFractional = true)
    (hg : a.figures? = some g) (hh : b.figures? = some h) (hv : operate op a b = .ok v) :
    ∃ w, Grid.zipWith? op.onReals g h = some w ∧ v.figures? = some w ∧ v.isFractional = true := by
  obtain ⟨x, hx, hxg⟩ := Option.bind_eq_some_iff.mp hg
  obtain ⟨y, hy, hyh⟩ := Option.bind_eq_some_iff.mp hh
  -- The types meet in a real one, in which no sum wraps around and every quotient is taken.
  have hmeet : (x.meetDtype y).isReal = true := by
    unfold isFractional at hreal
    rw [hx, hy, Option.any_some, Option.any_some] at hreal
    rcases hreal with h | h
    · exact Operand.isReal_meetDtype h y
    · rw [Operand.meetDtype_comm]
      exact Operand.isReal_meetDtype h x
  -- With an array or an element among the operands, the operator works in the common type.
  have hsolid : a.weak? = Option.none ∨ b.weak? = Option.none →
      ∃ w, Grid.zipWith? op.onReals g h = some w ∧ v.figures? = some w ∧ v.isFractional = true := by
    intro hsolid
    rw [operate_elementwise op hx hy hsolid] at hv
    obtain ⟨d, hd, hv⟩ := bind_eq_ok.mp hv
    obtain rfl : d = x.meetDtype y := by
      cases op with
      | sub =>
        have hne : x.meetDtype y ≠ .bool := fun h => by
          rw [h] at hmeet
          cases hmeet
        exact (Except.ok.inj ((if_neg hne).symm.trans hd)).symm
      | div => exact (Except.ok.inj hd).symm.trans (if_pos hmeet)
      | _ => exact (Except.ok.inj hd).symm
    obtain ⟨z, hz, hv⟩ := bind_eq_ok.mp hv
    obtain ⟨p, hp, hpg⟩ := Operand.toTensor_figures hxg hmeet
    obtain ⟨q, hq, hqh⟩ := Operand.toTensor_figures hyh hmeet
    unfold Operand.apply at hz
    rw [hp, hq, ok_bind, ok_bind] at hz
    obtain ⟨hzd, hzip⟩ := Tensor.toReals_binary op hmeet hz
    rw [hpg, hqh] at hzip
    rw [← pure_eq_ok.mp hv]
    exact ⟨z.toReals, hzip, figures?_reduced_real (hzd ▸ hmeet)⟩
  rcases figures?_eq_some hg with ⟨p, m, hp, hm, rfl⟩ | ⟨_, hnone, -⟩
  · rcases figures?_eq_some hh with ⟨q, n, hq, hn, rfl⟩ | ⟨_, hnone, -⟩
    · -- Two plain numbers, of which one is real.
      rw [operate_plain_reals op hp hq hreal hm hn] at hv
      have hv : v = real (op.onReals m n) := by
        unfold Weak.combineReals at hv
        cases op with
        | div =>
          dsimp only at hv
          split_ifs at hv
          exact (Except.ok.inj hv).symm
        | _ => exact (Except.ok.inj hv).symm
      exact ⟨.single (op.onReals m n), rfl, by rw [hv]; rfl, by rw [hv]; rfl⟩
    · exact hsolid (.inr hnone)
  · exact hsolid (.inl hnone)

omit [Field K] [ExactArith K] in
/-- The negative of a real value. -/
theorem negate_figures (hreal : a.isFractional = true) (hg : a.figures? = some g)
    (hv : a.negate = .ok v) : v.figures? = some (g.map Arith.neg) ∧ v.isFractional = true := by
  unfold negate at hv
  rcases (shaped_of_figures? hg).cases with ⟨w, hw, ho, -⟩ | ⟨t, -, ht, ho, -⟩
  · cases a with
    | real x =>
      cases hg
      cases hv
      exact ⟨congrArg some (Grid.map_single ..).symm, rfl⟩
    | _ => first | cases hreal | cases hw
  · unfold isFractional at hreal
    rw [ho, Option.any_some] at hreal
    have hreal : t.dtype.isReal = true := hreal
    have hg : t.toReals = g := by
      unfold figures? at hg
      rw [ho] at hg
      exact Option.some.inj hg
    rw [ht] at hv
    dsimp only at hv
    split_ifs at hv
    cases hv
    obtain ⟨hw, hfractional⟩ := figures?_reduced_real (t := t.unary Elem.neg t.dtype) hreal
    refine ⟨hw.trans (congrArg some ?_), hfractional⟩
    subst hg
    obtain ⟨d, e⟩ := t
    unfold Tensor.unary Tensor.toReals
    dsimp only
    rw [Tensor.gridAs_self, Grid.map_map, Grid.map_map]
    rcases Dtype.isReal_iff.mp hreal with rfl | rfl <;> rfl

/-! ### Values that are stretched -/

/-- A real value that is an array of the given numbers when it is stretched to a shape. -/
structure StandsFor {F : Type} [Arith F] (v : Value F) (r : Shape) (f : List Nat → F) : Prop where
  /-- The value is real. -/
  real : v.isFractional = true
  /-- It can be stretched to the shape, and is read as the numbers. -/
  reads : ∃ g, v.figures? = some g ∧ g.shape.Fits r ∧ ∀ i ∈ r.indices, g.spread i = f i

/-- Values that stand for one array of a shape. -/
def Alike {F ι : Type} [Arith F] (r : Shape) (v : ι → Value F) : Prop :=
  ∃ f, ∀ i, (v i).StandsFor r f

variable {ι : Type} {x y z : ι → Value K} {f : List Nat → K}

omit [Field K] [ExactArith K] in
theorem standsFor_of_figures (hreal : v.isFractional = true) (hg : v.figures? = some g)
    (hs : g.shape = s) : v.StandsFor s g.at :=
  ⟨hreal, g, hg, hs ▸ Shape.Fits.refl _, fun _ hi => Grid.spread_of_mem (hs ▸ hi)⟩

omit [Field K] [ExactArith K] in
theorem StandsFor.congr {k : List Nat → K} (hv : v.StandsFor r f) (h : ∀ i ∈ r.indices, f i = k i) :
    v.StandsFor r k := by
  obtain ⟨hreal, g, hg, hfits, hat⟩ := hv
  exact ⟨hreal, g, hg, hfits, fun i hi => (hat i hi).trans (h i hi)⟩

omit [Field K] [ExactArith K] in
/-- What a value of the full shape stands for are its numbers. -/
theorem StandsFor.figures_eq (hv : v.StandsFor r f) (hs : v.Shaped r) :
    v.figures? = some (.ofFn r f) := by
  obtain ⟨-, g, hg, -, hat⟩ := hv
  have hgr : g.shape = r := (shaped_of_figures? hg).eq_of_shape hs.shape
  rw [hg]
  refine congrArg some (Grid.ext_at hgr fun i hi => ?_)
  rw [Grid.at_ofFn (hgr ▸ hi), ← hat i (hgr ▸ hi), Grid.spread_of_mem hi]

/-- A number stands for an array of its copies. -/
theorem RealShaped.exists_standsFor (hv : v.RealShaped []) (r : Shape) :
    ∃ x, v.figures? = some (.single x) ∧ v.StandsFor r fun _ => x := by
  obtain ⟨g, hg, hs⟩ := hv.shaped.exists_figures
  rw [← Grid.single_first hs] at hg
  exact ⟨g.first, hg, hv.isFractional, _, hg, Shape.fits_nil r, fun _ _ => Grid.spread_single ..⟩

/-- One real value for all is alike. -/
theorem RealShaped.alike (hv : v.RealShaped s) (hs : s.Fits r) : Alike r fun _ : ι => v := by
  obtain ⟨g, hg, rfl⟩ := hv.shaped.exists_figures
  exact ⟨g.spread, fun _ => ⟨hv.isFractional, g, hg, hs, fun _ _ => rfl⟩⟩

/-! ### Operators -/

/-- An operator on a value that stands for an array and another operand, in either order. -/
theorem StandsFor.operate {op : Operator} (ha : a.StandsFor r f) (hb : b.figures? = some h)
    (hc : Shape.broadcast? r h.shape = some c) :
    (operate op a b = .ok v →
      v.StandsFor c fun i => op.onReals (f (r.project i)) (h.spread i)) ∧
    (operate op b a = .ok v →
      v.StandsFor c fun i => op.onReals (h.spread i) (f (r.project i))) := by
  obtain ⟨hreal, g, hg, hfits, hat⟩ := ha
  obtain ⟨hrc, hhc⟩ := Shape.fits_of_broadcast? hc
  have hread : ∀ i ∈ c.indices, g.spread i = f (r.project i) := fun i hi => by
    rw [← Grid.spread_project hfits hrc hi, hat _ (hrc.project_mem hi)]
  constructor
  · intro hv
    obtain ⟨w, hw, hvw, hvreal⟩ := operate_figures (.inl hreal) hg hb hv
    have hwc : w.shape.Fits c :=
      Shape.broadcast?_fits (Grid.zipWith?_eq_some hw).2.2.1 (hfits.trans hrc) hhc
    refine ⟨hvreal, w, hvw, hwc, fun i hi => ?_⟩
    rw [Grid.spread_zipWith? hw hwc hi, hread i hi]
  · intro hv
    obtain ⟨w, hw, hvw, hvreal⟩ := operate_figures (.inr hreal) hb hg hv
    have hwc : w.shape.Fits c :=
      Shape.broadcast?_fits (Grid.zipWith?_eq_some hw).2.2.1 hhc (hfits.trans hrc)
    refine ⟨hvreal, w, hvw, hwc, fun i hi => ?_⟩
    rw [Grid.spread_zipWith? hw hwc hi, hread i hi]

/-- **Operators cannot tell values that are alike apart.** -/
theorem Alike.operate {op : Operator} (hx : Alike r x) (hb : b.Shaped t)
    (hc : Shape.broadcast? r t = some c) (hy : ∀ i, Value.operate op (x i) b = .ok (y i)) :
    Alike c y := by
  obtain ⟨f, hf⟩ := hx
  obtain ⟨h, hh, rfl⟩ := hb.exists_figures
  exact ⟨_, fun i => ((hf i).operate hh hc).1 (hy i)⟩

theorem Alike.operate_left {op : Operator} (hx : Alike r x) (hb : b.Shaped t)
    (hc : Shape.broadcast? r t = some c) (hy : ∀ i, Value.operate op b (x i) = .ok (y i)) :
    Alike c y := by
  obtain ⟨f, hf⟩ := hx
  obtain ⟨h, hh, rfl⟩ := hb.exists_figures
  exact ⟨_, fun i => ((hf i).operate hh hc).2 (hy i)⟩

theorem Alike.negate (hx : Alike r x) (hy : ∀ i, (x i).negate = .ok (y i)) : Alike r y := by
  obtain ⟨f, hf⟩ := hx
  refine ⟨fun j => -f j, fun i => ?_⟩
  obtain ⟨hreal, g, hg, hfits, hat⟩ := hf i
  obtain ⟨hyg, hyreal⟩ := negate_figures hreal hg (hy i)
  have hzero : Arith.neg (default : K) = default := by
    rw [ExactArith.default_eq, ExactArith.neg_eq, neg_zero]
  refine ⟨hyreal, _, hyg, hfits, fun j hj => ?_⟩
  rw [Grid.spread_map hzero, hat j hj, ExactArith.neg_eq]

omit [Field K] [ExactArith K] in
/-- Read as an array, a value stands for the same. -/
theorem StandsFor.ofContents {e : Contents K} (hv : v.StandsFor r f) (he : v.contents = .ok e) :
    (ofContents e).StandsFor r f := by
  obtain ⟨hreal, g, hg, hfits, hat⟩ := hv
  obtain ⟨t, ht, rfl⟩ := contents_of_isFractional hreal hg
  obtain ⟨u, hu, -, hureal⟩ := ((shaped_of_figures? hg).realShaped hreal).contents
  cases ht.symm.trans hu
  cases ht.symm.trans he
  exact ⟨hureal, t.toReals, rfl, hfits, hat⟩

omit [ExactArith K] in
/-- Values remain alike if they gain grids that are. -/
theorem Alike.gains {h : ι → Grid K} {k : List Nat → K} (hx : Alike r x)
    (hy : ∀ i, (x i).Gains (h i) (y i)) (hfits : ∀ i, (h i).shape.Fits r)
    (hk : ∀ i, ∀ j ∈ r.indices, (h i).spread j = k j) : Alike r y := by
  obtain ⟨f, hf⟩ := hx
  refine ⟨fun j => f j + k j, fun i => ?_⟩
  obtain ⟨-, g, hg, hgr, hat⟩ := hf i
  obtain ⟨⟨g', w, hg', hw, hyw⟩, hreal⟩ := hy i
  cases hg.symm.trans hg'
  have hwr : w.shape.Fits r := Shape.broadcast?_fits (Grid.zipWith?_eq_some hw).2.2.1 hgr (hfits i)
  refine ⟨hreal, w, hyw, hwr, fun j hj => ?_⟩
  rw [Grid.spread_zipWith? hw hwr hj, hat j hj, hk i j hj]

/-- **Sums in slots**, of values that are alike. -/
theorem Alike.plus (hx : Alike r x) (hy : Alike r y) (hz : ∀ i, (x i).plus (y i) = .ok (z i)) :
    Alike r z := by
  obtain ⟨f, hf⟩ := hx
  obtain ⟨k, hk⟩ := hy
  choose g hg hgr hat using fun i => (hf i).reads
  choose h hh hhr hhat using fun i => (hk i).reads
  exact Alike.gains ⟨f, hf⟩ (fun i => plus_gains (hf i).real (hg i) (hh i) (hz i)) hhr hhat

/-! ### Derivatives of operands -/

/-- A derivative that reaches the shape for which it stands, together with the operand, is
summed over the positions that read the operand. -/
theorem StandsFor.unbroadcast (hv : v.StandsFor r f) (hu : v.Shaped u) (hb : b.shape = .ok t)
    (hr : Shape.broadcast? u t = some r) (hw : SlotGrad.unbroadcast v b = .ok w) :
    w.StandsFor t fun i => r.total fun j => if t.project j = i then f j else 0 := by
  obtain ⟨hreal, g, hg, -, hat⟩ := hv
  obtain ⟨hur, htr⟩ := Shape.fits_of_broadcast? hr
  obtain ⟨e, he, rfl⟩ := contents_of_isFractional hreal hg
  obtain ⟨e', he', heu, hdtype⟩ := (hu.realShaped hreal).contents
  cases he.symm.trans he'
  obtain ⟨v', z, wide, hv', hz, hwide, hwr, -, htransposes⟩ :=
    (unbroadcast_transposes_broadcasting he hb).2 r (by rw [show e.shape = u from heu]; exact hr)
  cases hw.symm.trans hv'
  obtain ⟨w', hw', hreals⟩ := SlotGrad.exists_unbroadcast ⟨u, hur, hu.realShaped hreal⟩ hb htr
  cases hw.symm.trans hw'
  obtain ⟨k, hk, hkt⟩ := hreals.shaped.exists_figures
  obtain rfl := toReals_of_contents hk hz
  -- The stretched derivative is what it stands for.
  unfold Tensor.broadcastTo at hwide
  rw [Grid.broadcastTo?_of_fits (show e.grid.shape.Fits r from heu ▸ hur)] at hwide
  cases hwide
  refine ⟨hreals.isFractional, _, hk, hkt ▸ Shape.Fits.refl _, fun i hi => ?_⟩
  rw [Grid.spread_of_mem (hkt ▸ hi), Tensor.at_toReals]
  refine (htransposes.reals hdtype i hi).trans ?_
  refine Shape.total_congr fun j hj => ?_
  split_ifs
  · refine (congrArg (Elem.toReal e.dtype) (Grid.at_ofFn hj)).trans ?_
    rw [← hat j hj, Tensor.spread_toReals]
  · rfl

/-- A derivative that is stretched to the operand's own shape stays as it is. -/
theorem StandsFor.unbroadcast_stretched (hv : v.StandsFor t f) (hu : v.Shaped u) (hut : u.Fits t)
    (hb : b.shape = .ok t) (hw : SlotGrad.unbroadcast v b = .ok w) : w.StandsFor t f := by
  obtain ⟨hreal, g, hg, hfits, hat⟩ := hv.unbroadcast hu hb hut.broadcast?.1 hw
  refine ⟨hreal, g, hg, hfits, fun i hi => ?_⟩
  have hone : (t.total fun j => if t.project j = i then f j else 0)
      = t.total fun j => if j = i then f j else 0 :=
    Shape.total_congr fun j hj => by rw [Shape.project_self hj]
  rw [hat i hi, hone, Shape.total_eq_single hi fun j hj => if_neg hj, if_pos rfl]

/-- **Derivatives of a stretched operand.** -/
theorem Alike.unbroadcast (hx : Alike r x)
    (hreach : ∀ i, ∃ u, (x i).Shaped u ∧ Shape.broadcast? u t = some r) (hb : b.shape = .ok t)
    (hy : ∀ i, SlotGrad.unbroadcast (x i) b = .ok (y i)) : Alike t y := by
  obtain ⟨f, hf⟩ := hx
  exact ⟨_, fun i => let ⟨_, hu, hr⟩ := hreach i
    (hf i).unbroadcast hu hb hr (hy i)⟩

omit [Field K] [ExactArith K] in
/-- **Derivatives of a reduced operand.** -/
theorem Alike.expandReduced {axis : Value K} {ks : List Nat} (hx : Alike (eraseAll ks s) x)
    (hover : ∀ i, (x i).Shaped (eraseAll ks s) ∨ (x i).Shaped []) (hb : b.shape = .ok s)
    (haxis : axis.axes s.length = .ok ks)
    (hy : ∀ i, SlotGrad.expandReduced (x i) b axis = .ok (y i)) : Alike s y := by
  obtain ⟨f, hf⟩ := hx
  refine ⟨fun i => f (eraseAll ks i), fun i => ?_⟩
  obtain ⟨hreal, g, hg, hfits, hat⟩ := hf i
  obtain ⟨t, ht, rfl⟩ := contents_of_isFractional hreal hg
  have hts := shaped_of_figures? hg
  obtain ⟨t', ht', -, hdtype⟩ := (hts.realShaped hreal).contents
  cases ht.symm.trans ht'
  obtain ⟨e, hye, hes, heat⟩ := expandReduced_numbers ht hb haxis
    ((hover i).imp (fun h => hts.eq_of_shape h.shape) fun h => hts.eq_of_shape h.shape) (hy i)
  rw [hye]
  refine ⟨hdtype, Tensor.toReals ⟨t.dtype, e⟩, rfl, hes ▸ Shape.Fits.refl _, fun j hj => ?_⟩
  have hj' : j ∈ (Tensor.toReals ⟨t.dtype, e⟩ : Grid K).shape.indices := hes.symm ▸ hj
  rw [← hat _ (Shape.eraseAll_mem_indices ks hj), Grid.spread_of_mem hj', Tensor.at_toReals,
    Tensor.spread_toReals, heat j hj]

/-! ### Sparse updates -/

/-- What is added at an index is the same for derivatives of a part that are alike. -/
theorem Alike.sparseAddend {index : Value K} {picks : List Pick} {sel : Selection} {h : ι → Grid K}
    (hb : b.shape = .ok s) (hpicks : index.picks = .ok picks)
    (hsel : Selection.resolve picks s = .ok sel) (hx : Alike sel.shape x)
    (hh : ∀ i, SlotGrad.sparseAddend b index (x i) = .ok (h i)) :
    ∃ k, ∀ i, h i = k := by
  obtain ⟨f, hf⟩ := hx
  refine ⟨(Grid.full s (Arith.ofInt 0)).addAt sel (.ofFn sel.shape f), fun i => ?_⟩
  obtain ⟨-, g, hg, -, hat⟩ := hf i
  obtain ⟨s', ps, sel', t, w, hs', hps, hsel', ht, hw, hi⟩ := sparseAddend_eq_ok.mp (hh i)
  cases hb.symm.trans hs'
  cases hpicks.symm.trans hps
  cases hsel.symm.trans hsel'
  rw [toReals_of_contents hg ht] at hw
  rw [← hi, (Grid.broadcastTo?_eq_some hw).2]
  exact congrArg _ (Grid.ofFn_congr hat)

end Value

end SlotGrad
