import Mathlib.Tactic.FieldSimp
import Mathlib.Tactic.Ring
import SlotGrad.Proofs.Pairing

/-!
# Adjoints of elementwise kernels are transposes

A kernel run on dual numbers answers a value and its tangents; the kernel's adjoint, run on the
values, turns a derivative of the answer into derivatives of the operands.  The adjoint is the
transpose of the tangent map: paired with the operands, the derivatives it answers sum to the
derivative of the answer paired with the answer.

## Main results

* `Kernel.plusAdjoint_transposes`, `Kernel.minusAdjoint_transposes`,
  `Kernel.timesAdjoint_transposes`, `Kernel.rdivideAdjoint_transposes` — two operands.
* `Kernel.squareAdjoint_transposes`, `Kernel.dealAdjoint_transposes` — one operand.
* `Kernel.l2lossAdjoint_transposes` — squared distances of operands of one shape.
-/

namespace SlotGrad

variable {K : Type} [Field K] [Arith K] [ExactArith K]

section

variable {d : Grid K} {g h u : Grid (Dual K)}

omit [ExactArith K] in
/-- The values of a grid of dual numbers are read where the grid is. -/
theorem Grid.spread_map_re (g : Grid (Dual K)) (i : List Nat) :
    (g.map Dual.re).spread i = (g.spread i).re := spread_map (Dual.hom_re.ofInt 0) g i

omit [ExactArith K] in
theorem Grid.zipWith?_at (op : Operator) (hu : Grid.zipWith? op.onReals g h = some u)
    {i : List Nat} (hi : i ∈ u.shape.indices) :
    u.at i = op.onReals (g.spread i) (h.spread i) := by
  rw [← spread_of_mem hi, spread_zipWith? hu (Shape.Fits.refl _) hi]

end

namespace Value

variable {dy : Value K} {w x : Value (Dual K)} {u g : Grid (Dual K)}

omit [ExactArith K] in
/-- The grid of a derivative that belongs to a value. -/
theorem IsCotangent.grid (h : dy.IsCotangent w) (hw : w.numbers? = some u) :
    ∃ d, dy.reals? = some d ∧ d.IsCotangent u.shape := by
  obtain ⟨d, u', hd, hu', hcotangent⟩ := h
  rw [hw] at hu'
  cases hu'
  exact ⟨d, hd, hcotangent⟩

omit [ExactArith K] in
theorem numbers?_map_re (hx : x.numbers? = some g) :
    (x.map Dual.re).numbers? = some (g.map Dual.re) := by
  rw [numbers?_map Dual.hom_re, hx]
  rfl

/-- An operator on a derivative and the values of an operand. -/
theorem operate_re {op : Operator} {d : Grid K} (hd : dy.reals? = some d)
    (hx : x.numbers? = some g) {v : Value K} (hv : operate op dy (x.map Dual.re) = .ok v) :
    ∃ e, Grid.zipWith? op.onReals d (g.map Dual.re) = some e ∧ v.reals? = some e :=
  operate_eq_ok (numbers?_of_reals? hd) (numbers?_map_re hx) (.inl (by rw [hd]; rfl)) hv

/-- The square of a value that stands for a grid, also of a plain integer. -/
theorem mul_self_numbers {x v : Value K} {k : Grid K} (hx : x.numbers? = some k)
    (hv : x.mul x = .ok v) : ∃ q, v.numbers? = some q ∧ Grid.zipWith? Arith.mul k k = some q := by
  rcases numbers?_eq_some hx with ⟨n, rfl, rfl⟩ | hreal
  · cases hv
    refine ⟨_, rfl, ?_⟩
    have hsquare : (Arith.mul (Arith.ofInt n) (Arith.ofInt n) : K) = Arith.ofInt (n * n) := by
      simp only [ExactArith.mul_eq, ExactArith.ofInt_eq, Int.cast_mul]
    rw [← hsquare]
    rfl
  · have hreals : x.reals?.isSome = true := by
      rcases hreal with ⟨y, rfl, rfl⟩ | ⟨y, rfl, rfl⟩ | rfl <;> rfl
    obtain ⟨q, hq, hvq⟩ := operate_eq_ok hx hx (.inl hreals) hv
    exact ⟨q, numbers?_of_reals? hvq, hq⟩

omit [Field K] [ExactArith K] in
/-- The negated derivative. -/
theorem negate_reals {d : Grid K} (hd : dy.reals? = some d) {v : Value K}
    (hv : dy.negate = .ok v) : v.reals? = some (d.map Arith.neg) := by
  have hunary : ∀ g : Grid K, (⟨.float64, g⟩ : Tensor K).unary Elem.neg .float64
      = ⟨.float64, g.map Arith.neg⟩ := by
    intro g
    unfold Tensor.unary
    rw [Tensor.gridAs_self]
    rfl
  rcases reals?_eq_some hd with ⟨y, rfl, rfl⟩ | ⟨y, rfl, rfl⟩ | rfl
  · cases hv
    exact congrArg some (Grid.map_single ..).symm
  · have hv : Except.ok (reduced ((⟨.float64, .single y⟩ : Tensor K).unary Elem.neg .float64))
        = (.ok v : Fallible (Value K)) := hv
    cases hv
    rw [hunary]
    exact reals?_reduced _
  · have hv : Except.ok (reduced ((⟨.float64, d⟩ : Tensor K).unary Elem.neg .float64))
        = (.ok v : Fallible (Value K)) := hv
    cases hv
    rw [hunary]
    exact reals?_reduced _

end Value

namespace Kernel

open Value

variable {a b w : Value (Dual K)} {dy out : Value K} {g h : Grid (Dual K)}

/-! ### Two operands -/

section

variable (ha : a.numbers? = some g) (hb : b.numbers? = some h)
  (hreal : a.reals?.isSome ∨ b.reals?.isSome)

include ha hb hreal

theorem plusAdjoint_transposes (hw : plus a b = .ok w) (hdy : dy.IsCotangent w)
    (hout : plusAdjoint (a.map Dual.re) (b.map Dual.re) dy = .ok out) :
    ∃ da db, out = .tuple [da, db] ∧ da.IsCotangent a ∧ db.IsCotangent b ∧
      da.pairing a + db.pairing b = dy.pairing w := by
  obtain ⟨u, hu, hwu⟩ := operate_eq_ok ha hb hreal hw
  obtain ⟨hgu, hhu, -, -⟩ := Grid.zipWith?_eq_some hu
  obtain ⟨d, hd, hcotangent⟩ := hdy.grid (numbers?_of_reals? hwu)
  unfold plusAdjoint at hout
  obtain ⟨da, hda, hout⟩ := bind_eq_ok.mp hout
  obtain ⟨db, hdb, hout⟩ := bind_eq_ok.mp hout
  obtain ⟨hca, hpa⟩ := pairing_unbroadcast hd (.refl d _) hcotangent ha hgu hda
  obtain ⟨hcb, hpb⟩ := pairing_unbroadcast hd (.refl d _) hcotangent hb hhu hdb
  refine ⟨da, db, (pure_eq_ok.mp hout).symm, hca, hcb, ?_⟩
  rw [hpa, hpb, pairing_eq hd (numbers?_of_reals? hwu), ← Shape.total_add]
  refine Shape.total_congr fun i hi => ?_
  rw [Grid.zipWith?_at _ hu hi]
  change _ = d.spread i * ((g.spread i).eps + (h.spread i).eps)
  ring

theorem minusAdjoint_transposes (hw : minus a b = .ok w) (hdy : dy.IsCotangent w)
    (hout : minusAdjoint (a.map Dual.re) (b.map Dual.re) dy = .ok out) :
    ∃ da db, out = .tuple [da, db] ∧ da.IsCotangent a ∧ db.IsCotangent b ∧
      da.pairing a + db.pairing b = dy.pairing w := by
  obtain ⟨u, hu, hwu⟩ := operate_eq_ok ha hb hreal hw
  obtain ⟨hgu, hhu, -, -⟩ := Grid.zipWith?_eq_some hu
  obtain ⟨d, hd, hcotangent⟩ := hdy.grid (numbers?_of_reals? hwu)
  unfold minusAdjoint at hout
  obtain ⟨da, hda, hout⟩ := bind_eq_ok.mp hout
  rw [contents_of_reals? hd] at hout
  change (do
    let negated ← (Value.array ⟨.float64, d⟩).negate
    return Value.tuple [da, ← unbroadcast negated (b.map Dual.re)]) = _ at hout
  obtain ⟨negated, hnegated, hout⟩ := bind_eq_ok.mp hout
  obtain ⟨db, hdb, hout⟩ := bind_eq_ok.mp hout
  have hnegated : negated.reals? = some (d.map Arith.neg) :=
    negate_reals (show (Value.array ⟨.float64, d⟩ : Value K).reals? = some d from rfl) hnegated
  obtain ⟨hca, hpa⟩ := pairing_unbroadcast hd (.refl d _) hcotangent ha hgu hda
  obtain ⟨hcb, hpb⟩ := pairing_unbroadcast hnegated (Grid.Slope.refl d _).neg hcotangent hb hhu hdb
  refine ⟨da, db, (pure_eq_ok.mp hout).symm, hca, hcb, ?_⟩
  rw [hpa, hpb, pairing_eq hd (numbers?_of_reals? hwu), ← Shape.total_add]
  refine Shape.total_congr fun i hi => ?_
  rw [Grid.zipWith?_at _ hu hi]
  change _ = d.spread i * ((g.spread i).eps - (h.spread i).eps)
  ring

theorem timesAdjoint_transposes (hw : times a b = .ok w) (hdy : dy.IsCotangent w)
    (hout : timesAdjoint (a.map Dual.re) (b.map Dual.re) dy = .ok out) :
    ∃ da db, out = .tuple [da, db] ∧ da.IsCotangent a ∧ db.IsCotangent b ∧
      da.pairing a + db.pairing b = dy.pairing w := by
  obtain ⟨u, hu, hwu⟩ := operate_eq_ok ha hb hreal hw
  obtain ⟨hgu, hhu, -, -⟩ := Grid.zipWith?_eq_some hu
  obtain ⟨d, hd, hcotangent⟩ := hdy.grid (numbers?_of_reals? hwu)
  unfold timesAdjoint at hout
  obtain ⟨ea, hea, hout⟩ := bind_eq_ok.mp hout
  obtain ⟨da, hda, hout⟩ := bind_eq_ok.mp hout
  obtain ⟨eb, heb, hout⟩ := bind_eq_ok.mp hout
  obtain ⟨db, hdb, hout⟩ := bind_eq_ok.mp hout
  obtain ⟨e, he, hera⟩ := operate_re hd hb hea
  obtain ⟨f, hf, hfrb⟩ := operate_re hd ha heb
  obtain ⟨hca, hpa⟩ :=
    pairing_unbroadcast hera ((Grid.Slope.refl d _).mul hhu he) hcotangent ha hgu hda
  obtain ⟨hcb, hpb⟩ :=
    pairing_unbroadcast hfrb ((Grid.Slope.refl d _).mul hgu hf) hcotangent hb hhu hdb
  refine ⟨da, db, (pure_eq_ok.mp hout).symm, hca, hcb, ?_⟩
  rw [hpa, hpb, pairing_eq hd (numbers?_of_reals? hwu), ← Shape.total_add]
  refine Shape.total_congr fun i hi => ?_
  rw [Grid.zipWith?_at _ hu hi, Grid.spread_map_re, Grid.spread_map_re]
  change _ = d.spread i
    * ((g.spread i).re * (h.spread i).eps + (g.spread i).eps * (h.spread i).re)
  ring

/-- A quotient by zero is zero in a field, and so is its tangent. -/
theorem rdivideAdjoint_transposes (hw : rdivide a b = .ok w) (hdy : dy.IsCotangent w)
    (hout : rdivideAdjoint (a.map Dual.re) (b.map Dual.re) dy = .ok out) :
    ∃ da db, out = .tuple [da, db] ∧ da.IsCotangent a ∧ db.IsCotangent b ∧
      da.pairing a + db.pairing b = dy.pairing w := by
  obtain ⟨u, hu, hwu⟩ := operate_eq_ok ha hb hreal hw
  obtain ⟨hgu, hhu, -, -⟩ := Grid.zipWith?_eq_some hu
  obtain ⟨d, hd, hcotangent⟩ := hdy.grid (numbers?_of_reals? hwu)
  unfold rdivideAdjoint at hout
  obtain ⟨ea, hea, hout⟩ := bind_eq_ok.mp hout
  obtain ⟨da, hda, hout⟩ := bind_eq_ok.mp hout
  obtain ⟨negated, hnegated, hout⟩ := bind_eq_ok.mp hout
  obtain ⟨product, hproduct, hout⟩ := bind_eq_ok.mp hout
  obtain ⟨sq, hsq, hout⟩ := bind_eq_ok.mp hout
  obtain ⟨eb, heb, hout⟩ := bind_eq_ok.mp hout
  obtain ⟨db, hdb, hout⟩ := bind_eq_ok.mp hout
  obtain ⟨e, he, hera⟩ := operate_re hd hb hea
  obtain ⟨p, hp, hpr⟩ := operate_re (negate_reals hd hnegated) ha hproduct
  obtain ⟨q, hqr, hq⟩ := mul_self_numbers (numbers?_map_re hb) hsq
  obtain ⟨f, hf, hfrb⟩ := operate_eq_ok (numbers?_of_reals? hpr) hqr (.inl (by rw [hpr]; rfl)) heb
  -- The squared divisor has the divisor's shape.
  have hqh : q.shape = h.shape := by
    obtain ⟨-, -, hshape, -⟩ := Grid.zipWith?_eq_some hq
    rw [Grid.shape_map, (Shape.Fits.refl _).broadcast?.1] at hshape
    exact (Option.some.inj hshape).symm
  have hqu : q.shape.Fits u.shape := hqh ▸ hhu
  obtain ⟨hca, hpa⟩ :=
    pairing_unbroadcast hera ((Grid.Slope.refl d _).div hhu he) hcotangent ha hgu hda
  obtain ⟨hcb, hpb⟩ := pairing_unbroadcast hfrb
    (((Grid.Slope.refl d _).neg.mul hgu hp).div hqu hf) hcotangent hb hhu hdb
  refine ⟨da, db, (pure_eq_ok.mp hout).symm, hca, hcb, ?_⟩
  rw [hpa, hpb, pairing_eq hd (numbers?_of_reals? hwu), ← Shape.total_add]
  refine Shape.total_congr fun i hi => ?_
  rw [Grid.zipWith?_at _ hu hi, Grid.spread_map_re, Grid.spread_map_re,
    Grid.spread_zipWith? hq hqu hi, ExactArith.mul_eq, Grid.spread_map_re]
  change _ = d.spread i * (((g.spread i).eps * (h.spread i).re
    - (g.spread i).re * (h.spread i).eps) / ((h.spread i).re * (h.spread i).re))
  by_cases hzero : (h.spread i).re = 0
  · rw [hzero]
    simp
  · field_simp
    ring

end

/-! ### One operand -/

omit [ExactArith K] in
theorem dealAdjoint_transposes (hw : deal a = .ok w) (hdy : dy.IsCotangent w)
    (hout : dealAdjoint (a.map Dual.re) dy = .ok out) :
    out.IsCotangent a ∧ out.pairing a = dy.pairing w := by
  cases hw
  cases hout
  exact ⟨hdy, rfl⟩

omit [Field K] [ExactArith K] in
/-- Elements multiplied by a grid that fits have the shape that the elements have. -/
theorem shape_zipWith?_of_fits {α β γ : Type} {f : α → β → γ} [Inhabited α] [Inhabited β]
    {k : Grid α} {l : Grid β} {v : Grid γ} (hv : Grid.zipWith? f k l = some v)
    (hl : l.shape.Fits k.shape) : v.shape = k.shape := by
  obtain ⟨-, -, hshape, -⟩ := Grid.zipWith?_eq_some hv
  rw [hl.broadcast?.2] at hshape
  exact (Option.some.inj hshape).symm

theorem squareAdjoint_transposes (ha : a.reals? = some g) (hw : square a = .ok w)
    (hdy : dy.IsCotangent w) (hout : squareAdjoint (a.map Dual.re) dy = .ok out) :
    out.IsCotangent a ∧ out.pairing a = dy.pairing w := by
  have han := numbers?_of_reals? ha
  obtain ⟨u, hu, hwu⟩ := operate_eq_ok han han (.inl (by rw [ha]; rfl)) hw
  have hus : u.shape = g.shape := shape_zipWith?_of_fits hu (Shape.Fits.refl _)
  obtain ⟨d, hd, hcotangent⟩ := hdy.grid (numbers?_of_reals? hwu)
  rw [hus] at hcotangent
  unfold squareAdjoint at hout
  obtain ⟨twice, htwice, hout⟩ := bind_eq_ok.mp hout
  have hreal : (a.map Dual.re).reals?.isSome = true := by
    rw [reals?_map, ha]
    rfl
  obtain ⟨e, he, her⟩ := operate_eq_ok (g := .single (Arith.ofInt 2)) rfl (numbers?_map_re han)
    (.inr hreal) htwice
  obtain ⟨f, hf, hfr⟩ := operate_eq_ok (numbers?_of_reals? her) (numbers?_of_reals? hd)
    (.inl (by rw [her]; rfl)) hout
  have hes : e.shape = g.shape := by
    obtain ⟨-, -, hshape, -⟩ := Grid.zipWith?_eq_some he
    rw [Grid.shape_single, (Shape.fits_nil _).broadcast?.1] at hshape
    exact (Option.some.inj hshape).symm
  have hfs : f.shape = g.shape :=
    (shape_zipWith?_of_fits hf (hes ▸ hcotangent.fits)).trans hes
  refine ⟨isCotangent_of_shape_eq hfr han hfs, ?_⟩
  rw [pairing_eq hfr han, pairing_eq hd (numbers?_of_reals? hwu), Grid.pairing, Grid.pairing, hus]
  refine Shape.total_congr fun i hi => ?_
  rw [Grid.zipWith?_at _ hu (hus ▸ hi), Grid.spread_zipWith? hf (hfs ▸ Shape.Fits.refl _) hi,
    Grid.spread_zipWith? he (hes ▸ Shape.Fits.refl _) hi, Grid.spread_single, Grid.spread_map_re]
  change Arith.mul (Arith.mul (Arith.ofInt 2) (g.spread i).re) (d.spread i) * (g.at i).eps
    = d.spread i * ((g.spread i).re * (g.spread i).eps + (g.spread i).eps * (g.spread i).re)
  rw [Grid.spread_of_mem hi, ExactArith.mul_eq, ExactArith.mul_eq, ExactArith.ofInt_eq]
  push_cast
  ring

/-! ### Squared distances -/

omit [ExactArith K] in
/-- The tangent of a sum of all elements is the sum of their tangents. -/
theorem eps_sumAlong_range (q : Grid (Dual K)) :
    ((q.sumAlong (List.range q.rank)).at []).eps = q.shape.total fun i => (q.at i).eps := by
  have hshape : (q.sumAlong (List.range q.rank)).shape = [] := by
    rw [Grid.shape_sumAlong, Shape.eraseAll_range]
    exact List.drop_length
  have hplaces : Places q.shape.length (List.range q.rank) :=
    ⟨List.pairwise_lt_range, fun k hk => List.mem_range.mp hk⟩
  have htotal := Grid.total_sumAlong Dual.additive_eps q hplaces fun _ => 1
  rw [hshape, Shape.total_nil] at htotal
  simpa only [mul_one] using htotal

/-- A derivative of a scalar times the difference of two operands, which have one shape. -/
theorem difference_slope {d : Grid K} (hd : d.shape = []) {e : Grid K} {diff v : Value K}
    {dv : Value K} (hdv : dv.reals? = some d) (hdiff : diff.reals? = some e)
    (hv : dv.mul diff = .ok v) :
    ∃ f, v.reals? = some f ∧ f.shape = e.shape ∧
      ∀ i ∈ e.shape.indices, f.spread i = d.spread [] * e.at i := by
  obtain ⟨f, hf, hvf⟩ := operate_eq_ok (numbers?_of_reals? hdv) (numbers?_of_reals? hdiff)
    (.inl (by rw [hdv]; rfl)) hv
  have hfs : f.shape = e.shape := by
    obtain ⟨-, -, hshape, -⟩ := Grid.zipWith?_eq_some hf
    rw [hd, (Shape.fits_nil _).broadcast?.1] at hshape
    exact (Option.some.inj hshape).symm
  refine ⟨f, hvf, hfs, fun i hi => ?_⟩
  have hconst : d.spread i = d.spread [] := by
    rw [Grid.spread, Grid.spread, ← Grid.first_eq_at hd, ← Grid.first_eq_at hd]
  rw [Grid.spread_zipWith? hf (hfs ▸ Shape.Fits.refl _) hi, Grid.spread_of_mem hi, hconst]
  exact ExactArith.mul_eq _ _

/-- The squared distance of operands of one shape has the difference as its slope. -/
theorem l2lossAdjoint_transposes [CharZero K] (ha : a.reals? = some g) (hb : b.reals? = some h)
    (hsame : g.shape = h.shape) (hw : l2loss a b = .ok w) (hdy : dy.IsCotangent w)
    (hout : l2lossAdjoint (a.map Dual.re) (b.map Dual.re) dy = .ok out) :
    ∃ da db, out = .tuple [da, db] ∧ da.IsCotangent a ∧ db.IsCotangent b ∧
      da.pairing a + db.pairing b = dy.pairing w := by
  have han := numbers?_of_reals? ha
  have hbn := numbers?_of_reals? hb
  obtain ⟨diff, sq, s, hdiff, hsq, hs, hws⟩ := l2loss_eq_ok ha hb hw
  have hds : diff.shape = g.shape := shape_zipWith?_of_fits hdiff (hsame ▸ Shape.Fits.refl _)
  have hqs : sq.shape = g.shape := (shape_zipWith?_of_fits hsq (Shape.Fits.refl _)).trans hds
  have hss : s.shape = [] := by
    obtain ⟨-, -, hshape, -⟩ := Grid.zipWith?_eq_some hs
    have hsum : (sq.sumAlong (List.range sq.rank)).shape = [] := by
      rw [Grid.shape_sumAlong, Shape.eraseAll_range]
      exact List.drop_length
    rw [Grid.shape_single, hsum] at hshape
    exact (Option.some.inj hshape).symm
  obtain ⟨d, hd, hcotangent⟩ := hdy.grid (numbers?_of_reals? hws)
  have hdn : d.shape = [] := by
    rw [hss] at hcotangent
    exact hcotangent.elim id And.left
  -- The adjoint multiplies the derivative and its negative by the difference of the values.
  unfold l2lossAdjoint at hout
  obtain ⟨ediff, hediff, hout⟩ := bind_eq_ok.mp hout
  obtain ⟨da, hda, hout⟩ := bind_eq_ok.mp hout
  obtain ⟨negated, hnegated, hout⟩ := bind_eq_ok.mp hout
  obtain ⟨db, hdb, hout⟩ := bind_eq_ok.mp hout
  obtain ⟨e, he, her⟩ := operate_eq_ok (numbers?_map_re han) (numbers?_map_re hbn)
    (.inl (by rw [reals?_map, ha]; rfl)) hediff
  have hfits : (h.map Dual.re).shape.Fits (g.map Dual.re).shape := by
    rw [Grid.shape_map, Grid.shape_map, hsame]
    exact .refl _
  have hes : e.shape = (g.map Dual.re).shape := shape_zipWith?_of_fits he hfits
  rw [Grid.shape_map] at hes
  have heat : ∀ i ∈ g.shape.indices, e.at i = (g.at i).re - (h.at i).re := by
    intro i hi
    rw [← Grid.spread_of_mem (hes ▸ hi), Grid.spread_zipWith? he (hes ▸ Shape.Fits.refl _) hi,
      Grid.spread_map_re, Grid.spread_map_re, Grid.spread_of_mem hi,
      Grid.spread_of_mem (hsame ▸ hi)]
    exact ExactArith.sub_eq _ _
  obtain ⟨fa, hfa, hfas, hfat⟩ := difference_slope hdn hd her hda
  have hnd : (d.map Arith.neg).shape = [] := hdn
  obtain ⟨fb, hfb, hfbs, hfbt⟩ := difference_slope hnd (negate_reals hd hnegated) her hdb
  have hneg : (d.map Arith.neg).spread [] = -d.spread [] := by
    rw [Grid.spread, Grid.spread, Grid.at_map_of_mem (by rw [hdn]; simp [Shape.project])]
    exact ExactArith.neg_eq _
  refine ⟨da, db, (pure_eq_ok.mp hout).symm, isCotangent_of_shape_eq hfa han (hfas.trans hes),
    isCotangent_of_shape_eq hfb hbn (hfbs.trans (hes.trans hsame)), ?_⟩
  -- Half the sum of squares has the sum of the differences times their tangents as its tangent.
  have htangent : (s.at []).eps = g.shape.total fun i =>
      ((g.at i).re - (h.at i).re) * ((g.at i).eps - (h.at i).eps) := by
    have hroot : ([] : List Nat) ∈ s.shape.indices := by simp [hss]
    have hsum : (sq.sumAlong (List.range sq.rank)).spread []
        = (sq.sumAlong (List.range sq.rank)).at [] := Grid.spread_of_mem (by
      rw [Grid.shape_sumAlong, Shape.eraseAll_range]
      simp [Grid.rank])
    rw [Grid.zipWith?_at .mul hs hroot, Grid.spread_single, hsum]
    change Arith.ofRatio 1 2 * ((sq.sumAlong (List.range sq.rank)).at []).eps
      + 0 * ((sq.sumAlong (List.range sq.rank)).at []).re = _
    rw [eps_sumAlong_range, zero_mul, add_zero, Shape.mul_total, hqs, ExactArith.ofRatio_eq]
    refine Shape.total_congr fun i hi => ?_
    rw [Grid.zipWith?_at .mul hsq (hqs ▸ hi), Grid.spread_of_mem (hds ▸ hi),
      Grid.zipWith?_at .sub hdiff (hds ▸ hi), Grid.spread_of_mem hi,
      Grid.spread_of_mem (hsame ▸ hi)]
    change ((1 : Int) : K) / ((2 : Nat) : K)
      * (Arith.sub (g.at i).re (h.at i).re * ((g.at i).eps - (h.at i).eps)
        + ((g.at i).eps - (h.at i).eps) * Arith.sub (g.at i).re (h.at i).re) = _
    rw [ExactArith.sub_eq]
    push_cast
    field_simp
    ring
  rw [pairing_eq hfa han, pairing_eq hfb hbn, pairing_eq hd (numbers?_of_reals? hws), Grid.pairing,
    Grid.pairing, Grid.pairing, hss, Shape.total_nil, htangent, ← hsame, ← Shape.total_add,
    Shape.mul_total]
  refine Shape.total_congr fun i hi => ?_
  rw [hfat i (hes ▸ hi), hfbt i (hes ▸ hi), hneg, heat i hi]
  ring

end Kernel

end SlotGrad
