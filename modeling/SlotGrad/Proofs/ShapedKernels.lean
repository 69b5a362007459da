import SlotGrad.Proofs.JoinTransposes
import SlotGrad.Proofs.JoinedVectors
import SlotGrad.Proofs.ShapedValues

/-!
# Shapes of derivatives

The kernels of elementwise ops, reductions and losses answer a derivative for every operand, in
its shape, where the forward kernel answers and the derivative of the output is real and has the
output's shape.  An elementwise kernel sums back what was stretched, a reduction stretches back
what was summed, and both can be done because a forward kernel that answers shows how the shapes
fit.

The derivative of the output may also be a single number for all members.  Elementwise kernels
stretch it where they meet an operand, in fact every derivative that can be stretched to the
output's shape, and reductions ask whether it has axes.

Where a kernel calculates with plain numbers it can fail on them: a plain integer may be beyond
the real numbers, and a plain zero divides no plain number.  These are hypotheses of the
statements.

## Main definitions

* `Value.RealFits` — real values that can be stretched to a shape.
* `Value.RealOver` — real values of a shape, or a number for all of it.

## Main results

* `exists_unbroadcast` — a derivative is reduced to the shape of every operand that is stretched
  to the same shape.
* `exists_expandReduced` — a derivative of a reduction is stretched to the shape of what was
  reduced.
* `Kernel.exists_timesAdjoint`, `Kernel.exists_rdivideAdjoint`, `Kernel.exists_powerAdjoint` and
  the like — ops of two operands.
* `Kernel.exists_sumAdjoint`, `Kernel.exists_meanAdjoint` — reductions.
* `Kernel.exists_l2lossAdjoint`, `Kernel.exists_softmaxlossAdjoint` — losses.
-/

namespace SlotGrad

variable {F : Type} [Arith F]

/-! ### Functions of one value -/

namespace Value

variable {x v dy : Value F} {s t : Shape}

/-- A function of real numbers answers real numbers, in the shape of its argument. -/
theorem Shaped.mapReal {f : F → F} (hx : x.Shaped s) (h : x.mapReal f = .ok v) :
    v.RealShaped s := by
  obtain ⟨o, ho, h⟩ := bind_eq_ok.mp h
  obtain ⟨t, rfl, rfl⟩ : ∃ t, o = some t ∧ t.grid.shape = s := by
    unfold realTensor at ho
    rcases hx.cases with ⟨w, hw, -, rfl⟩ | ⟨t, hw, ht, -, hs⟩
    · rw [hw] at ho
      obtain ⟨y, -, ho⟩ := bind_eq_ok.mp ho
      exact ⟨_, (pure_eq_ok.mp ho).symm, rfl⟩
    · rw [hw, contents_of_solid? ht] at ho
      exact ⟨t, (pure_eq_ok.mp ho).symm, hs⟩
  have hreal := realShaped_reduced (isReal_toReal t.dtype)
    ((t.gridAs t.dtype.toReal).map (Elem.realFunction f t.dtype.toReal))
  rw [Grid.shape_map, Tensor.shape_gridAs] at hreal
  exact pure_eq_ok.mp h ▸ hreal

/-- A function of real numbers is applied to every tensor. -/
theorem exists_mapReal_array (f : F → F) (t : Tensor F) :
    ∃ v, (array t).mapReal f = .ok v ∧ v.RealShaped t.grid.shape :=
  ⟨_, rfl, (shaped_array t).mapReal rfl⟩

theorem Shaped.negate (hx : x.Shaped s) (h : x.negate = .ok v) : v.Shaped s := by
  unfold Value.negate at h
  rcases hx.cases with ⟨w, hw, -, rfl⟩ | ⟨t, -, ht, -, rfl⟩
  · cases x <;> cases hw <;> (cases h; exact shaped_of_weak? rfl)
  · rw [ht] at h
    dsimp only at h
    split_ifs at h
    cases h
    have hs := shaped_reduced ((t.gridAs t.dtype).map (Elem.neg t.dtype))
    rwa [Grid.shape_map, Tensor.shape_gridAs] at hs

/-- Real numbers have negatives, plain ones plain ones. -/
theorem exists_negate (hdy : dy.RealShaped s) :
    ∃ v, dy.negate = .ok v ∧ v.RealShaped s ∧ (v.isPlain = true → dy.isPlain = true) := by
  have hreal := hdy.isFractional
  unfold negate
  rcases hdy.shaped.cases with ⟨w, hw, -, rfl⟩ | ⟨t, -, ht, ho, rfl⟩
  · cases dy with
    | real x => exact ⟨_, rfl, realShaped_real _, fun _ => rfl⟩
    | _ => first | cases hreal | cases hw
  · unfold isFractional at hreal
    rw [ho, Option.any_some] at hreal
    have hreal : t.dtype.isReal = true := hreal
    have hbool : ¬ t.dtype = .bool := fun h => by
      rw [h] at hreal
      cases hreal
    have hs := realShaped_reduced hreal ((t.gridAs t.dtype).map (Elem.neg t.dtype))
    rw [Grid.shape_map, Tensor.shape_gridAs] at hs
    rw [ht]
    refine ⟨_, if_neg hbool, hs, fun h => ?_⟩
    obtain ⟨u, -, -, hu⟩ := reduced_shaped ((t.gridAs t.dtype).map (Elem.neg t.dtype))
    obtain ⟨w, hw⟩ := Option.isSome_iff_exists.mp h
    cases (operand?_of_weak? hw).symm.trans hu

/-- Every number is above zero or not. -/
theorem exists_isPositive (hx : x.Shaped s) :
    ∃ v, x.isPositive = .ok v ∧ v.Shaped s ∧ v.Finite := by
  unfold isPositive
  rcases hx.contents with ⟨t, ht, rfl⟩ | ⟨hv, rfl, n, rfl⟩
  · rw [ht]
    exact ⟨_, rfl, shaped_reduced (d := .bool) (t.grid.map (Elem.isPositive t.dtype)),
      finite_reduced (d := .bool) _⟩
  · rw [hv]
    exact ⟨flag (decide (0 < n)), rfl, shaped_of_weak? rfl, fun k hk => by cases hk⟩

/-- The positive part has the shape of the number. -/
theorem Shaped.positivePart (hx : x.Shaped s) (h : x.positivePart = .ok v) : v.Shaped s := by
  obtain ⟨o, ho, rfl⟩ := hx
  unfold Value.positivePart at h
  rw [operandOf_of_operand? ho, ok_bind] at h
  obtain ⟨w, hw, h⟩ := bind_eq_ok.mp h
  obtain ⟨p, hp, hw⟩ := bind_eq_ok.mp hw
  obtain ⟨q, hq, hw⟩ := bind_eq_ok.mp hw
  obtain ⟨g, rfl, hg⟩ := Tensor.binary_eq_ok hw
  rw [Operand.toTensor_shape hp, Operand.toTensor_shape hq] at hg
  rw [show (Operand.weak (.integer 0) : Operand F).shape = [] from rfl,
    (Shape.fits_nil _).broadcast?.2] at hg
  rw [Option.some.inj hg]
  exact pure_eq_ok.mp h ▸ shaped_reduced g

/-- A power has the common shape of base and exponent. -/
theorem Shaped.power {p : Value F} (hx : x.Shaped s) (hp : p.Shaped t) (h : x.power p = .ok v) :
    ∃ u, Shape.broadcast? s t = some u ∧ v.Shaped u := by
  obtain ⟨o, ho, rfl⟩ := hx
  obtain ⟨q, hq, rfl⟩ := hp
  unfold Value.power at h
  rw [operandOf_of_operand? ho, operandOf_of_operand? hq, ok_bind, ok_bind] at h
  obtain ⟨a, ha, h⟩ := bind_eq_ok.mp h
  obtain ⟨b, hb, h⟩ := bind_eq_ok.mp h
  obtain ⟨w, hw, h⟩ := bind_eq_ok.mp h
  obtain ⟨g, rfl, hg⟩ := Tensor.binary_eq_ok hw
  rw [Operand.toTensor_shape ha, Operand.toTensor_shape hb] at hg
  split_ifs at h
  · cases h
  · exact ⟨g.shape, hg, pure_eq_ok.mp h ▸ shaped_reduced g⟩

/-- Powers in a real element type exist. -/
theorem exists_power {p : Value F} {u : Shape} (hx : x.RealShaped s) (hp : p.Shaped t)
    (hfp : p.Finite) (hu : Shape.broadcast? s t = some u) :
    ∃ v, x.power p = .ok v ∧ v.RealShaped u := by
  have hfx := hx.finite
  obtain ⟨o, ho, rfl, hreal⟩ := hx
  obtain ⟨q, hq, rfl⟩ := hp
  have hmeet := Operand.isReal_meetDtype hreal q
  obtain ⟨a, ha⟩ := Operand.exists_toTensor ho hfx hmeet
  obtain ⟨b, hb⟩ := Operand.exists_toTensor hq hfp hmeet
  rw [← Operand.toTensor_shape ha, ← Operand.toTensor_shape hb] at hu
  obtain ⟨g, hg, rfl⟩ := Tensor.exists_binary Elem.pow (o.meetDtype q) hu
  refine ⟨_, ?_, realShaped_reduced hmeet g⟩
  have hany : (b.gridAs (o.meetDtype q)).data.any (Elem.isNegativeInteger (o.meetDtype q))
      = false := by
    rw [Array.any_eq_false]
    intro i _
    rcases Dtype.isReal_iff.mp hmeet with h | h <;> simp [h, Elem.isNegativeInteger]
  unfold power
  rw [operandOf_of_operand? ho, operandOf_of_operand? hq, ok_bind, ok_bind]
  dsimp only
  rw [ha, hb, ok_bind, ok_bind, hg, ok_bind, hany]
  simp
  rfl

/-- Real numbers that can be stretched to a shape. -/
def RealFits (v : Value F) (r : Shape) : Prop := ∃ u : Shape, u.Fits r ∧ v.RealShaped u

/-- Real numbers of a shape, or a single one for all of it. -/
def RealOver (v : Value F) (r : Shape) : Prop := v.RealShaped r ∨ v.RealShaped []

omit [Arith F] in
theorem RealShaped.realFits (h : dy.RealShaped s) : dy.RealFits s := ⟨s, Shape.Fits.refl s, h⟩

omit [Arith F] in
theorem RealOver.realFits (h : dy.RealOver s) : dy.RealFits s :=
  h.elim RealShaped.realFits fun h => ⟨[], Shape.fits_nil s, h⟩

/-- A derivative meets a value that is stretched to the same shape. -/
theorem RealFits.exists_operate (op : Operator) {b : Value F} (hdy : dy.RealFits s)
    (hb : b.Shaped t) (hfb : b.Finite) (ht : t.Fits s)
    (hdiv : op = .div → dy.isPlain = true → ¬ b.IsPlainZero) :
    ∃ v, operate op dy b = .ok v ∧ v.RealFits s := by
  obtain ⟨u, hu, hdy⟩ := hdy
  obtain ⟨c, hc, hcs⟩ := Shape.exists_broadcast?_of_fits hu ht
  obtain ⟨v, hv, hvs⟩ := Value.exists_operate op hdy.shaped hb hdy.finite hfb
    (.inl hdy.isFractional) hc hdiv
  exact ⟨v, hv, c, hcs, hvs⟩

/-- A derivative takes the shape of a value that it is stretched to. -/
theorem RealFits.exists_operate_shaped (op : Operator) {b : Value F} (hdy : dy.RealFits s)
    (hb : b.Shaped s) (hfb : b.Finite) (hdiv : op = .div → dy.isPlain = true → ¬ b.IsPlainZero) :
    ∃ v, operate op dy b = .ok v ∧ v.RealShaped s := by
  obtain ⟨u, hu, hdy⟩ := hdy
  exact Value.exists_operate op hdy.shaped hb hdy.finite hfb
    (.inl hdy.isFractional) hu.broadcast?.1 hdiv

theorem RealFits.exists_mul {b : Value F} (hdy : dy.RealFits s) (hb : b.Shaped t)
    (hfb : b.Finite) (ht : t.Fits s) : ∃ v, dy.mul b = .ok v ∧ v.RealFits s :=
  hdy.exists_operate .mul hb hfb ht fun h => by cases h

/-- A derivative times a value that it is stretched to, from either side. -/
theorem RealFits.exists_mul_shaped {b : Value F} (hdy : dy.RealFits s) (hb : b.Shaped s)
    (hfb : b.Finite) :
    (∃ v, dy.mul b = .ok v ∧ v.RealShaped s) ∧ ∃ v, b.mul dy = .ok v ∧ v.RealShaped s := by
  refine ⟨hdy.exists_operate_shaped .mul hb hfb (fun h => by cases h), ?_⟩
  obtain ⟨u, hu, hdy⟩ := hdy
  exact Value.exists_operate .mul hb hdy.shaped hfb hdy.finite
    (.inr hdy.isFractional) hu.broadcast?.2
    fun h => by cases h

/-- An operand that is stretched to the other one leaves it its shape. -/
theorem Shaped.operate_of_fits {op : Operator} {a b : Value F} (ha : a.Shaped s) (hb : b.Shaped t)
    (h : Value.operate op a b = .ok v) : (t.Fits s → v.Shaped s) ∧ (s.Fits t → v.Shaped t) := by
  obtain ⟨u, hu, hv⟩ := ha.operate hb h
  constructor
  · intro hfits
    exact Option.some.inj (hfits.broadcast?.2.symm.trans hu) ▸ hv
  · intro hfits
    exact Option.some.inj (hfits.broadcast?.1.symm.trans hu) ▸ hv

/-- The shapes of operands fit the shape of what an operator answers. -/
theorem Shaped.fits_of_operate {op : Operator} {a b y : Value F} {r : Shape} (ha : a.Shaped s)
    (hb : b.Shaped t) (h : Value.operate op a b = .ok y) (hy : y.shape = .ok r) :
    s.Fits r ∧ t.Fits r ∧ Shape.broadcast? s t = some r := by
  obtain ⟨u, hu, hyu⟩ := ha.operate hb h
  obtain rfl : u = r := hyu.eq_of_shape hy
  exact ⟨(Shape.fits_of_broadcast? hu).1, (Shape.fits_of_broadcast? hu).2, hu⟩

end Value

/-! ### Reducing a derivative to the shape of an operand -/

namespace Tensor

/-- Axes that are summed in place have extent one. -/
theorem shape_sumKeep (t : Tensor F) {ks : List Nat} (hks : Places t.grid.shape.length ks) :
    (t.sumKeep ks).grid.shape = setAll 1 ks t.grid.shape := by
  have hsum : (t.sum ks).grid.shape = eraseAll ks t.grid.shape := shape_sumAs _ ks t
  have hback : Places ((t.sum ks).grid.shape.length + ks.length) ks := by
    rw [hsum, length_eraseAll hks]
    exact hks
  refine (shape_insertAxes (t.sum ks) hback).trans ?_
  rw [hsum, insertAll_eraseAll 1 hks]

/-- **A tensor of real numbers is reduced to every shape with which it has a common one.** -/
theorem exists_unbroadcast_real {t : Tensor F} (ht : t.dtype.isReal = true) {s common : Shape}
    (h : Shape.broadcast? t.grid.shape s = some common) :
    ∃ u, t.unbroadcast s = .ok u ∧ u.grid.shape = s ∧ u.dtype.isReal = true := by
  obtain ⟨u, hu, hs, hd⟩ := exists_unbroadcast (t := t) h
  refine ⟨u, hu, hs, ?_⟩
  have hsame : sumDtype t.dtype = t.dtype := if_pos ht
  rw [hsame, or_self] at hd
  rwa [hd]

end Tensor

omit [Arith F] in
/-- A shape with ones at some axes stretches to the shape. -/
theorem Shape.setAll_one_fits (ks : List Nat) (s : Shape) : Shape.Fits (setAll 1 ks s) s := by
  refine ⟨[], s, rfl, List.forall₂_iff_get.mpr ⟨length_setAll .., fun k hk hk' => ?_⟩⟩
  have hget := getElem?_setAll 1 ks s k
  rw [List.getElem?_eq_getElem hk, List.getElem?_eq_getElem hk'] at hget
  simp only [List.get_eq_getElem]
  split_ifs at hget
  · exact .inr (Option.some.inj hget)
  · exact .inl (Option.some.inj hget)

section

variable {x like dy : Value F} {s t : Shape}

/-- **A derivative is reduced to the shape of every operand that is stretched to the same
shape.** -/
theorem exists_unbroadcast (hdy : dy.RealFits s) (hlike : like.shape = .ok t) (ht : t.Fits s) :
    ∃ v, unbroadcast dy like = .ok v ∧ v.RealShaped t := by
  obtain ⟨u, hu, hdy⟩ := hdy
  obtain ⟨w, hw, rfl, hreal⟩ := hdy.contents
  obtain ⟨common, hcommon, -⟩ := Shape.exists_broadcast?_of_fits hu ht
  obtain ⟨z, hz, hzs, hzreal⟩ := Tensor.exists_unbroadcast_real hreal hcommon
  unfold unbroadcast
  rw [hlike, hw]
  simp only [ok_bind, hz]
  subst hzs
  split_ifs
  · exact ⟨_, rfl, Value.realShaped_reduced hzreal z.grid⟩
  · exact ⟨_, rfl, Value.realShaped_array hzreal⟩

/-- Contents of real numbers are stretched to every shape that theirs fits. -/
theorem exists_broadcastTo {w : Tensor F} (hw : w.dtype.isReal = true) (h : w.grid.shape.Fits s) :
    ∃ z : Tensor F, (Contents.numbers w).broadcastTo s = .ok (.numbers z) ∧ z.grid.shape = s ∧
      z.dtype.isReal = true := by
  unfold Contents.broadcastTo Contents.restructure
  dsimp only
  rw [Grid.broadcastTo?_of_fits h]
  exact ⟨_, rfl, rfl, hw⟩

/-- The axes that were reduced are put back, each with extent one, so that the shape fits. -/
theorem exists_restoredAxes {w : Tensor F} {axis : Value F}
    (h : w.grid.shape = [] ∨ ∃ ks, axis.axes s.length = .ok ks ∧ w.grid.shape = eraseAll ks s) :
    ∃ c : Tensor F, c.dtype = w.dtype ∧ c.grid.shape.Fits s ∧
      (if axis.isNone ∨ (Contents.numbers w).shape = [] then pure (Contents.numbers w)
        else do
          (Contents.numbers w).insertAxes
            (← newAxes (Contents.numbers w).shape.length axis.places) :
              Fallible (Contents F)) = .ok (.numbers c) := by
  by_cases hscalar : w.grid.shape = []
  · exact ⟨w, rfl, hscalar ▸ Shape.fits_nil s, if_pos (.inr hscalar)⟩
  · obtain ⟨ks, hks, hshape⟩ := h.resolve_left hscalar
    obtain ⟨hplaces, hnone, hnew⟩ := Value.axes_eq_ok hks
    have hlen := length_eraseAll hplaces
    rw [← hshape] at hlen
    have hpos : 0 < s.length := by
      have := List.length_pos_iff.mpr hscalar
      omega
    -- Without an axis all axes were reduced, and none is left.
    have hsome : axis.isNone = false := by
      by_contra hne
      have hall := hnone (by simpa using hne)
      rw [hall, Shape.eraseAll_range, List.drop_length] at hshape
      exact hscalar hshape
    have hplace : Places (w.grid.shape.length + ks.length) ks := hlen.symm ▸ hplaces
    have hrank : (Contents.numbers w).shape.length = s.length - ks.length :=
      Nat.eq_sub_of_add_eq hlen
    have hcond : ¬ (axis.isNone = true ∨ (Contents.numbers w).shape = []) := by
      rw [hsome]
      rintro (h | h)
      · cases h
      · exact hscalar h
    refine ⟨w.insertAxes ks, rfl, ?_, ?_⟩
    · rw [Tensor.shape_insertAxes w hplace, hshape, insertAll_eraseAll 1 hplaces]
      exact Shape.setAll_one_fits ks s
    · rw [if_neg hcond, hrank, hnew hsome hpos]
      rfl

/-- **A derivative of a reduction is stretched to the shape of what was reduced.** -/
theorem exists_expandReduced {axis : Value F} (hdy : dy.RealShaped t) (hx : x.shape = .ok s)
    (h : t = [] ∨ ∃ ks, axis.axes s.length = .ok ks ∧ t = eraseAll ks s) :
    ∃ z : Tensor F, expandReduced dy x axis = .ok (.array z) ∧ z.grid.shape = s ∧
      z.dtype.isReal = true := by
  obtain ⟨w, hw, rfl, hreal⟩ := hdy.contents
  obtain ⟨c, hdtype, hfits, hc⟩ := exists_restoredAxes h
  obtain ⟨z, hz, hzs, hzreal⟩ := exists_broadcastTo (hdtype ▸ hreal) hfits
  refine ⟨z, ?_, hzs, hzreal⟩
  unfold expandReduced
  rw [hw, ok_bind, hc, ok_bind, hx, ok_bind, hz]
  rfl

end

namespace Kernel

open Value

/-! ### Elementwise kernels -/

section

variable {a b x p y dy : Value F} {s t r : Shape}

theorem exists_plusAdjoint (ha : a.Shaped s) (hb : b.Shaped t) (hs : s.Fits r) (ht : t.Fits r)
    (hdy : dy.RealFits r) :
    ∃ da db, plusAdjoint a b dy = .ok (.tuple [da, db]) ∧ da.RealShaped s ∧ db.RealShaped t := by
  obtain ⟨da, hda, hdas⟩ := exists_unbroadcast hdy ha.shape hs
  obtain ⟨db, hdb, hdbs⟩ := exists_unbroadcast hdy hb.shape ht
  refine ⟨da, db, ?_, hdas, hdbs⟩
  unfold plusAdjoint
  rw [hda, hdb]
  rfl

theorem exists_minusAdjoint (ha : a.Shaped s) (hb : b.Shaped t) (hs : s.Fits r) (ht : t.Fits r)
    (hdy : dy.RealFits r) :
    ∃ da db, minusAdjoint a b dy = .ok (.tuple [da, db]) ∧ da.RealShaped s ∧ db.RealShaped t := by
  obtain ⟨da, hda, hdas⟩ := exists_unbroadcast hdy ha.shape hs
  obtain ⟨u, hu, hdy⟩ := hdy
  obtain ⟨w, hw, rfl, hreal⟩ := hdy.contents
  obtain ⟨n, hn, hns, -⟩ := exists_negate (realShaped_array hreal)
  obtain ⟨db, hdb, hdbs⟩ := exists_unbroadcast ⟨_, hu, hns⟩ hb.shape ht
  refine ⟨da, db, ?_, hdas, hdbs⟩
  unfold minusAdjoint
  rw [hda, hw, ok_bind, ok_bind, show Value.ofContents (.numbers w) = array w from rfl, hn,
    ok_bind, hdb]
  rfl

theorem exists_timesAdjoint (ha : a.Shaped s) (hb : b.Shaped t) (hfa : a.Finite) (hfb : b.Finite)
    (hs : s.Fits r) (ht : t.Fits r) (hdy : dy.RealFits r) :
    ∃ da db, timesAdjoint a b dy = .ok (.tuple [da, db]) ∧ da.RealShaped s ∧ db.RealShaped t := by
  obtain ⟨m, hm, hms⟩ := hdy.exists_mul hb hfb ht
  obtain ⟨n, hn, hns⟩ := hdy.exists_mul ha hfa hs
  obtain ⟨da, hda, hdas⟩ := exists_unbroadcast hms ha.shape hs
  obtain ⟨db, hdb, hdbs⟩ := exists_unbroadcast hns hb.shape ht
  refine ⟨da, db, ?_, hdas, hdbs⟩
  unfold timesAdjoint
  rw [hm, hn, ok_bind, hda, ok_bind, ok_bind, hdb]
  rfl

/-- Two plain numbers have a quotient and its derivatives unless the divisor or its square is
zero. -/
theorem exists_rdivideAdjoint (ha : a.Shaped s) (hb : b.Shaped t) (hfa : a.Finite) (hfb : b.Finite)
    (hsquare : ∀ q, b.mul b = .ok q → q.Finite ∧ (dy.isPlain = true → ¬ q.IsPlainZero))
    (hzero : dy.isPlain = true → ¬ b.IsPlainZero)
    (hs : s.Fits r) (ht : t.Fits r) (hdy : dy.RealFits r) :
    ∃ da db, rdivideAdjoint a b dy = .ok (.tuple [da, db]) ∧ da.RealShaped s ∧ db.RealShaped t := by
  obtain ⟨m, hm, hms⟩ := hdy.exists_operate .div hb hfb ht fun _ => hzero
  obtain ⟨da, hda, hdas⟩ := exists_unbroadcast hms ha.shape hs
  obtain ⟨u, hu, hdy⟩ := hdy
  obtain ⟨n, hn, hns, hplain⟩ := exists_negate hdy
  obtain ⟨c, hc, hcs⟩ := RealFits.exists_mul ⟨u, hu, hns⟩ ha hfa hs
  obtain ⟨q, hq, hqs⟩ := exists_mul_self hb hfb
  obtain ⟨hfq, hqzero⟩ := hsquare q hq
  have hcplain : c.isPlain = true → dy.isPlain = true := by
    intro h
    obtain ⟨w, -, hw, -⟩ := isPlain_of_operate hns.shaped ha hc h
    exact hplain (by rw [isPlain, hw]; rfl)
  obtain ⟨z, hz, hzs⟩ := hcs.exists_operate .div hqs hfq ht fun _ h => hqzero (hcplain h)
  obtain ⟨db, hdb, hdbs⟩ := exists_unbroadcast hzs hb.shape ht
  refine ⟨da, db, ?_, hdas, hdbs⟩
  unfold rdivideAdjoint
  rw [show dy.div b = .ok m from hm, ok_bind, hda, ok_bind, hn, ok_bind, hc, ok_bind, hq, ok_bind,
    show c.div q = .ok z from hz, ok_bind, hdb]
  rfl

theorem shape_convert (t : Tensor F) (d : Dtype) :
    (t.convert d).grid.shape = t.grid.shape ∧ (t.convert d).dtype = d := by
  by_cases h : t.dtype = d
  · rw [show t.convert d = t from if_pos h]
    exact ⟨rfl, h⟩
  · rw [show t.convert d = ⟨d, t.grid.map (Elem.convert t.dtype d)⟩ from if_neg h]
    exact ⟨rfl, rfl⟩

/-- Every number that has a real number can be converted to double precision. -/
theorem exists_asDoubles (hx : x.Shaped s) (hfx : x.Finite) :
    ∃ t : Tensor F, asDoubles x = .ok (array t) ∧ t.grid.shape = s ∧ t.dtype.isReal = true := by
  rcases hx.contents with ⟨t, ht, hs⟩ | ⟨hv, rfl, n, rfl⟩
  · obtain ⟨hshape, hdtype⟩ := shape_convert t .float64
    refine ⟨t.convert .float64, ?_, hshape.trans hs, congrArg Dtype.isReal hdtype⟩
    obtain ⟨o, ho, -⟩ := hx
    have hmembers : ¬ (x.members?.isSome = true ∨ x.isText = true) := by
      cases x <;> first | (simp [members?, isText]; done) | cases ho
    unfold asDoubles
    rw [if_neg hmembers]
    cases x <;> first | (dsimp only; rw [ht]; rfl) | cases ho
  · obtain ⟨z, hz⟩ := hfx.toReal (w := .integer n) rfl
    refine ⟨⟨.float64, .single z⟩, ?_, rfl, rfl⟩
    unfold asDoubles
    rw [if_neg (by simp [members?, isText])]
    dsimp only
    rw [hv, ok_bind]
    dsimp only
    have hlist : (Grid.single (integer n : Value F)).toList = [integer n] := rfl
    rw [hlist, List.mapM_cons, List.mapM_nil]
    simp only [weak?, hz, ok_bind, pure_bind]
    rfl

theorem exists_powerAdjoint (hx : x.Shaped s) (hp : p.Shaped t) (hfx : x.Finite) (hfp : p.Finite)
    (hone : (integer 1 : Value F).Finite) (hless : ∀ q, p.sub (.integer 1) = .ok q → q.Finite)
    (hr : Shape.broadcast? s t = some r) (hdy : dy.RealFits r) :
    ∃ dx dp, powerAdjoint x p dy = .ok (.tuple [dx, dp]) ∧ dx.RealShaped s ∧ dp.RealShaped t := by
  obtain ⟨hs, ht⟩ := Shape.fits_of_broadcast? hr
  obtain ⟨z, hz, hzs, hzreal⟩ := exists_asDoubles hx hfx
  have hbase : (array z).RealShaped s := hzs ▸ realShaped_array hzreal
  obtain ⟨m, hm, hms⟩ := hdy.exists_mul hp hfp ht
  obtain ⟨q, hq, hqs⟩ := (exists_operate_small .sub (by simp) (by decide) (by decide) hone hp
    hfp).2
  obtain ⟨w, hw, hws⟩ := exists_power hbase hqs (hless q hq) hr
  obtain ⟨slope, hslope, hslopes⟩ := (hms.exists_mul_shaped hws.shaped hws.finite).1
  obtain ⟨dx, hdx, hdxs⟩ := exists_unbroadcast hslopes.realFits hbase.shaped.shape hs
  obtain ⟨v, hv, hvs⟩ := exists_power hbase hp hfp hr
  obtain ⟨n, hn, hns⟩ := (hdy.exists_mul_shaped hvs.shaped hvs.finite).1
  obtain ⟨l, hl, hls⟩ := exists_mapReal_array Arith.log z
  obtain ⟨growth, hgrowth, hgrowths⟩ :=
    hns.realFits.exists_mul hls.shaped hls.finite (hzs.symm ▸ hs)
  obtain ⟨dp, hdp, hdps⟩ := exists_unbroadcast hgrowths hp.shape ht
  refine ⟨dx, dp, ?_, hdxs, hdps⟩
  unfold powerAdjoint
  simp only [hz, hm, show p.sub (.integer 1) = .ok q from hq, hw, hslope, hdx, hv, hn, hl,
    hgrowth, hdp, ok_bind]
  rfl

/-! #### One operand -/

theorem exists_squareAdjoint (hx : x.Shaped s) (hfx : x.Finite)
    (htwo : (integer 2 : Value F).Finite) (hdouble : ∀ q, (integer 2).mul x = .ok q → q.Finite)
    (hdy : dy.RealFits s) :
    ∃ dx, squareAdjoint x dy = .ok dx ∧ dx.RealShaped s := by
  obtain ⟨q, hq, hqs⟩ := (exists_operate_small .mul (by simp) (by decide) (by decide) htwo hx
    hfx).1
  obtain ⟨dx, hdx, hdxs⟩ := (hdy.exists_mul_shaped hqs (hdouble q hq)).2
  refine ⟨dx, ?_, hdxs⟩
  unfold squareAdjoint
  rw [show (integer 2).mul x = .ok q from hq, ok_bind, hdx]

theorem exists_exponentialAdjoint (hx : x.Shaped s) (hy : exponential x = .ok y)
    (hdy : dy.RealFits s) : ∃ dx, exponentialAdjoint x dy = .ok dx ∧ dx.RealShaped s := by
  have hys := hx.mapReal hy
  obtain ⟨dx, hdx, hdxs⟩ := (hdy.exists_mul_shaped hys.shaped hys.finite).2
  refine ⟨dx, ?_, hdxs⟩
  unfold exponentialAdjoint
  rw [hy, ok_bind, hdx]

theorem exists_logarithmAdjoint (hx : x.Shaped s) (hfx : x.Finite)
    (hzero : dy.isPlain = true → ¬ x.IsPlainZero) (hdy : dy.RealFits s) :
    ∃ dx, logarithmAdjoint x dy = .ok dx ∧ dx.RealShaped s :=
  hdy.exists_operate_shaped .div hx hfx fun _ => hzero

theorem exists_reluAdjoint (hx : x.Shaped s) (hdy : dy.RealFits s) :
    ∃ dx, reluAdjoint x dy = .ok dx ∧ dx.RealShaped s := by
  obtain ⟨v, hv, hvs, hfv⟩ := exists_isPositive hx
  obtain ⟨dx, hdx, hdxs⟩ := (hdy.exists_mul_shaped hvs hfv).1
  refine ⟨dx, ?_, hdxs⟩
  unfold reluAdjoint
  rw [hv, ok_bind, hdx]

/-- The logistic function answers real numbers, in the shape of its argument. -/
theorem sigmoid_shaped (hx : x.Shaped s) (hy : sigmoid x = .ok y) : y.Shaped s ∧ y.Finite := by
  obtain ⟨n, hn, hy⟩ := bind_eq_ok.mp hy
  obtain ⟨e, he, hy⟩ := bind_eq_ok.mp hy
  obtain ⟨p, hp, hy⟩ := bind_eq_ok.mp hy
  have hone : (one : Value F).RealShaped [] := realShaped_real _
  have hes := (hx.negate hn).mapReal he
  have hps := (hone.shaped.operate_of_fits hes.shaped hp).2 (Shape.fits_nil s)
  have hys := (hone.shaped.operate_of_fits hps hy).2 (Shape.fits_nil s)
  exact ⟨hys, finite_operate_of_real hone.shaped hps (.inl rfl) hy⟩

theorem exists_sigmoidAdjoint (hx : x.Shaped s) (hy : sigmoid x = .ok y) (hdy : dy.RealFits s) :
    ∃ dx, sigmoidAdjoint x dy = .ok dx ∧ dx.RealShaped s := by
  have hone : (one : Value F).RealShaped [] := realShaped_real _
  obtain ⟨hys, hfy⟩ := sigmoid_shaped hx hy
  obtain ⟨m, hm, hms⟩ := (hdy.exists_mul_shaped hys hfy).1
  obtain ⟨n, hn, hns⟩ := exists_operate .sub hone.shaped hys hone.finite hfy (.inl rfl)
    (Shape.fits_nil s).broadcast?.1 (fun h => by cases h)
  obtain ⟨dx, hdx, hdxs⟩ := (hms.realFits.exists_mul_shaped hns.shaped hns.finite).1
  refine ⟨dx, ?_, hdxs⟩
  unfold sigmoidAdjoint
  rw [hy, ok_bind, hm, ok_bind, show one.sub y = .ok n from hn, ok_bind, hdx]

theorem exists_hyperbolicTangentAdjoint (hx : x.Shaped s) (hy : hyperbolicTangent x = .ok y)
    (hdy : dy.RealFits s) :
    ∃ dx, hyperbolicTangentAdjoint x dy = .ok dx ∧ dx.RealShaped s := by
  have hone : (one : Value F).RealShaped [] := realShaped_real _
  have hys := hx.mapReal hy
  obtain ⟨m, hm, hms⟩ := (hys.realFits.exists_mul_shaped hys.shaped hys.finite).1
  obtain ⟨n, hn, hns⟩ := exists_operate .sub hone.shaped hms.shaped hone.finite hms.finite
    (.inl rfl) (Shape.fits_nil s).broadcast?.1 (fun h => by cases h)
  obtain ⟨dx, hdx, hdxs⟩ := (hdy.exists_mul_shaped hns.shaped hns.finite).1
  refine ⟨dx, ?_, hdxs⟩
  unfold hyperbolicTangentAdjoint
  rw [hy, ok_bind, hm, ok_bind, show one.sub m = .ok n from hn, ok_bind, hdx]

end

/-! ### Reductions -/

section

variable {x y axis dy target labelValues : Value F} {s t r : Shape}

/-- A sum has the shape that is left without the axes. -/
theorem total_shaped (hx : x.Shaped s) (h : x.total axis = .ok y) :
    ∃ ks, axis.axes s.length = .ok ks ∧ y.Shaped (eraseAll ks s) := by
  unfold Value.total at h
  rcases hx.contents with ⟨t, ht, rfl⟩ | ⟨hv, rfl, n, rfl⟩
  · rw [ht, ok_bind] at h
    obtain ⟨ks, hks, h⟩ := bind_eq_ok.mp h
    have hy := shaped_reduced (t.sum ks).grid
    unfold Tensor.sum at hy
    rw [Tensor.shape_sumAs] at hy
    exact ⟨ks, hks, pure_eq_ok.mp h ▸ hy⟩
  · rw [hv, ok_bind] at h
    obtain ⟨ks, hks, h⟩ := bind_eq_ok.mp h
    split at h
    · cases h
    · rename_i hlen
      obtain rfl : ks = [] := List.length_eq_zero_iff.mp (not_not.mp hlen)
      cases h
      exact ⟨[], hks, shaped_of_weak? rfl⟩

/-- The sum of all members has no axes. -/
theorem total_none_shaped (hx : x.Shaped s) (h : x.total .none = .ok y) : y.Shaped [] := by
  obtain ⟨ks, hks, hy⟩ := total_shaped hx h
  cases hks
  rwa [Shape.eraseAll_range, List.drop_length] at hy

/-- A derivative of what is left, or a single number for it, is stretched back. -/
theorem exists_expandReduced_over {ks : List Nat} (hx : x.Shaped s)
    (hks : axis.axes s.length = .ok ks) (hdy : dy.RealOver (eraseAll ks s)) :
    ∃ z : Tensor F, expandReduced dy x axis = .ok (.array z) ∧ z.grid.shape = s ∧
      z.dtype.isReal = true :=
  hdy.elim (fun hdy => exists_expandReduced hdy hx.shape (.inr ⟨ks, hks, rfl⟩)) fun hdy =>
    exists_expandReduced hdy hx.shape (.inl rfl)

theorem exists_sumAdjoint (hx : x.Shaped s) (hy : Kernel.sum x axis = .ok y) (hr : y.shape = .ok r)
    (hdy : dy.RealOver r) : ∃ dx, sumAdjoint x dy axis = .ok dx ∧ dx.RealShaped s := by
  obtain ⟨ks, hks, hys⟩ := total_shaped hx hy
  obtain rfl := hys.eq_of_shape hr
  obtain ⟨z, hz, rfl, hreal⟩ := exists_expandReduced_over hx hks hdy
  exact ⟨_, hz, realShaped_array hreal⟩

/-- A number without axes has a mean along none of them. -/
theorem axes_of_gatheredCount {n : Nat} (h : gatheredCount [] axis = .ok n) :
    axis.axes 0 = .ok [] := by
  have hnone : ∀ (m : Int) (k : Nat), axisOf 0 m ≠ .ok k := by
    intro m k hk
    have := Shape.axis?_lt (ofOption_eq_ok.mp hk)
    omega
  cases axis with
  | none => rfl
  | tuple vs =>
    cases vs with
    | nil =>
      change Except.ok (sortAxes []) = _
      unfold sortAxes
      rw [List.mergeSort_nil]
    | cons v vs =>
      obtain ⟨ks, hks, -⟩ := bind_eq_ok.mp h
      obtain ⟨k, _, hk, -⟩ := List.forall₂_cons_left_iff.mp (mapM_eq_ok.mp hks)
      obtain ⟨m, -, hm⟩ := bind_eq_ok.mp hk
      exact absurd hm (hnone m k)
  | _ =>
    obtain ⟨m, -, h⟩ := bind_eq_ok.mp h
    obtain ⟨k, hk, -⟩ := bind_eq_ok.mp h
    exact absurd hk (hnone m k)

/-- A mean has the shape that is left without the axes. -/
theorem average_shaped (hx : x.Shaped s) (h : x.average axis = .ok y) :
    ∃ ks, axis.axes s.length = .ok ks ∧ y.Shaped (eraseAll ks s) := by
  unfold Value.average at h
  rcases hx.contents with ⟨t, ht, rfl⟩ | ⟨hv, rfl, n, rfl⟩
  · rw [ht, ok_bind] at h
    obtain ⟨count, -, h⟩ := bind_eq_ok.mp h
    obtain ⟨ks, hks, h⟩ := bind_eq_ok.mp h
    obtain ⟨w, hw, h⟩ := bind_eq_ok.mp h
    obtain ⟨g, rfl, hg⟩ := Tensor.binary_eq_ok hw
    rw [Tensor.shape_sumAs] at hg
    have hg : Shape.broadcast? (eraseAll ks t.grid.shape) [] = some g.shape := hg
    rw [(Shape.fits_nil _).broadcast?.2] at hg
    refine ⟨ks, hks, ?_⟩
    rw [Option.some.inj hg]
    exact pure_eq_ok.mp h ▸ shaped_reduced g
  · rw [hv, ok_bind] at h
    obtain ⟨count, hcount, h⟩ := bind_eq_ok.mp h
    have h : (integer n).div (integer count) = .ok y := h
    have hint : ∀ k : Int, (integer k : Value F).Shaped [] := fun k => shaped_of_weak? rfl
    obtain ⟨u, hu, hys⟩ := (hint n).operate (hint count) h
    cases hu
    exact ⟨[], axes_of_gatheredCount hcount, hys⟩

theorem exists_meanAdjoint (hx : x.Shaped s)
    (hcount : ∀ n : Nat, n ≤ s.size → (integer n : Value F).Finite)
    (hy : mean x axis = .ok y) (hr : y.shape = .ok r) (hdy : dy.RealOver r) :
    ∃ dx, meanAdjoint x dy axis = .ok dx ∧ dx.RealShaped s := by
  obtain ⟨ks, hks, hys⟩ := average_shaped hx hy
  obtain rfl := hys.eq_of_shape hr
  obtain ⟨z, hz, rfl, hreal⟩ := exists_expandReduced_over hx hks hdy
  have hsize : ∀ {v : Value F} {t : Shape}, v.shape = .ok t → v.size = .ok t.size := by
    intro v t hv
    unfold Value.size
    rw [hv]
    rfl
  obtain ⟨dx, hdx, hdxs⟩ := exists_operate .div (realShaped_array hreal).shaped
    (b :=
      .integer ((z.grid.shape.size / max (Shape.size (eraseAll ks z.grid.shape)) 1 : Nat) : Int))
        (shaped_of_weak? rfl)
    (realShaped_array hreal).finite (hcount _ (Nat.div_le_self _ _)) (.inl hreal)
    (Shape.fits_nil _).broadcast?.2 (fun _ h => by cases h)
  refine ⟨dx, ?_, hdxs⟩
  unfold meanAdjoint
  rw [show x.average axis = .ok y from hy, ok_bind, hsize hx.shape, ok_bind, hsize hys.shape,
    ok_bind, hz, ok_bind]
  exact hdx

/-! ### Losses -/

/-- The loss of values of one shape has no axes. -/
theorem l2loss_shaped (hx : x.Shaped s) (ht : target.Shaped s) (hy : l2loss x target = .ok y) :
    ∃ diff, x.sub target = .ok diff ∧ diff.Shaped s ∧ y.Shaped [] := by
  obtain ⟨diff, hdiff, hy⟩ := bind_eq_ok.mp hy
  obtain ⟨square, hsquare, hy⟩ := bind_eq_ok.mp hy
  obtain ⟨total, htotal, hy⟩ := bind_eq_ok.mp hy
  have hdiffs := (hx.operate_of_fits ht hdiff).1 (Shape.Fits.refl s)
  obtain ⟨u, -, hsquares⟩ := hdiffs.operate hdiffs hsquare
  have htotals := total_none_shaped hsquares htotal
  have hys := ((realShaped_real _).shaped.operate_of_fits htotals hy).1 (Shape.fits_nil [])
  exact ⟨diff, hdiff, hdiffs, hys⟩

theorem exists_l2lossAdjoint {diff : Value F} (hdiff : x.sub target = .ok diff)
    (hdiffs : diff.Shaped s) (hfd : diff.Finite) (hdy : dy.RealShaped []) :
    ∃ dx dt, l2lossAdjoint x target dy = .ok (.tuple [dx, dt]) ∧ dx.RealShaped s ∧
      dt.RealShaped s := by
  have hmul : ∀ {d : Value F}, d.RealShaped [] → ∃ v, d.mul diff = .ok v ∧ v.RealShaped s :=
    fun hd => exists_operate .mul hd.shaped hdiffs hd.finite hfd (.inl hd.isFractional)
      (Shape.fits_nil s).broadcast?.1 (fun h => by cases h)
  obtain ⟨dx, hdx, hdxs⟩ := hmul hdy
  obtain ⟨n, hn, hns, -⟩ := exists_negate hdy
  obtain ⟨dt, hdt, hdts⟩ := hmul hns
  refine ⟨dx, dt, ?_, hdxs, hdts⟩
  unfold l2lossAdjoint
  rw [hdiff, ok_bind, hdx, ok_bind, hn, ok_bind, hdt]
  rfl

/-- Reductions along the last axis of a value that has axes keep it with extent one. -/
theorem alongLast_shaped (hx : x.Shaped s) (hs : s ≠ []) :
    (∀ {v}, x.greatestAlongLast = .ok v → v.Shaped (setAll 1 [s.length - 1] s)) ∧
      ∀ {v}, x.totalAlongLast = .ok v → v.Shaped (setAll 1 [s.length - 1] s) ∧ v.Finite := by
  obtain ⟨t, ht, rfl⟩ : ∃ t : Tensor F, x.contents = .ok (.numbers t) ∧ t.grid.shape = s :=
    hx.contents.resolve_right fun h => hs h.2.1
  have hpos := List.length_pos_iff.mpr hs
  have hrank : ¬ t.rank = 0 := hpos.ne'
  have hlast : Places t.grid.shape.length [t.grid.shape.length - 1] :=
    ⟨List.pairwise_singleton .., by simpa using Nat.sub_lt hpos Nat.one_pos⟩
  constructor
  · intro v h
    unfold greatestAlongLast at h
    rw [ht, ok_bind] at h
    dsimp only at h
    rw [if_neg hrank] at h
    obtain ⟨w, hw, h⟩ := bind_eq_ok.mp h
    unfold Tensor.greatestKeep at hw
    split at hw
    · rename_i g hg
      cases hw
      -- The fold erases the last axis, and the kept one is put in again.
      have hgs : g.shape = t.grid.shape.eraseIdx (t.grid.shape.length - 1) := by
        unfold Grid.foldAxisFromFirst? at hg
        dsimp only at hg
        split_ifs at hg
        cases hg
        rfl
      have hv := shaped_reduced (g.insertAxis (t.grid.shape.length - 1))
      rw [Grid.shape_insertAxis g
        (by rw [hgs, List.length_eraseIdx_of_lt (Nat.sub_lt hpos Nat.one_pos)]), hgs] at hv
      rw [← insertAll_eraseAll 1 hlast]
      exact pure_eq_ok.mp h ▸ hv
    · cases hw
  · intro v h
    unfold totalAlongLast at h
    rw [ht, ok_bind] at h
    dsimp only at h
    rw [if_neg hrank] at h
    have hv := shaped_reduced (t.sumKeep [t.grid.shape.length - 1]).grid
    rw [Tensor.shape_sumKeep t hlast] at hv
    exact pure_eq_ok.mp h ▸ ⟨hv, finite_reduced _⟩

omit [Arith F] in
theorem shape_foldl_update {α : Type} (source : List Nat → List Nat) (f : List Nat → α → α)
    (is : List (List Nat)) (g : Grid α) :
    (is.foldl (fun acc i => acc.update (source i) (f i)) g).shape = g.shape := by
  induction is generalizing g with
  | nil => rfl
  | cons i is ih => exact ih _

/-- What a loss of scores shows that could be computed.  The scores have rows, their
exponentials have their shape and are summed by rows, and the labels select members of it. -/
theorem softmaxloss_shaped (hx : x.Shaped s) (hy : softmaxloss x labelValues = .ok y) :
    s ≠ [] ∧ y.Shaped [] ∧
      (∃ scores e total, shifted x = .ok scores ∧ exponential scores = .ok e ∧
        e.totalAlongLast = .ok total ∧ e.RealShaped s ∧
        total.Shaped (setAll 1 [s.length - 1] s) ∧ total.Finite) ∧
      ∃ picks sel, labelPicks x labelValues = .ok picks ∧ Selection.resolve picks s = .ok sel := by
  obtain ⟨scores, hscores, hy⟩ := bind_eq_ok.mp hy
  obtain ⟨e, he, hy⟩ := bind_eq_ok.mp hy
  obtain ⟨total, htotal, hy⟩ := bind_eq_ok.mp hy
  obtain ⟨normalizer, hnormalizer, hy⟩ := bind_eq_ok.mp hy
  obtain ⟨logs, hlogs, hy⟩ := bind_eq_ok.mp hy
  obtain ⟨picks, hpicks, hy⟩ := bind_eq_ok.mp hy
  obtain ⟨c, hc, hy⟩ := bind_eq_ok.mp hy
  obtain ⟨sel, hsel, hy⟩ := bind_eq_ok.mp hy
  obtain ⟨chosen, hchosen, hy⟩ := bind_eq_ok.mp hy
  obtain ⟨loss, hloss, hnegate⟩ := bind_eq_ok.mp hy
  -- Scores without axes have no rows for the labels.
  have hs : s ≠ [] := by
    rintro rfl
    unfold labelPicks at hpicks
    rw [hx.shape] at hpicks
    cases hpicks
  have hones : Shape.Fits (setAll 1 [s.length - 1] s) s := Shape.setAll_one_fits _ s
  have hscoress : scores.Shaped s := by
    obtain ⟨greatest, hgreatest, hsub⟩ := bind_eq_ok.mp hscores
    exact (hx.operate_of_fits ((alongLast_shaped hx hs).1 hgreatest) hsub).1 hones
  have hes := hscoress.mapReal he
  obtain ⟨htotals, hft⟩ := (alongLast_shaped hes.shaped hs).2 htotal
  have hlogss := (hscoress.operate_of_fits (htotals.mapReal hnormalizer).shaped hlogs).1 hones
  obtain ⟨w, hw, rfl⟩ := hlogss.contents.resolve_right fun h => hs h.2.1
  obtain rfl : c = .numbers w := Except.ok.inj (hc.symm.trans hw)
  cases hchosen
  have hys := (total_none_shaped (shaped_array (w.select sel)) hloss).negate hnegate
  exact ⟨hs, hys, ⟨scores, e, total, hscores, he, htotal, hes, htotals, hft⟩, picks, sel,
    hpicks, hsel⟩

/-- One is taken off at every member of a selection, and the shape stays. -/
theorem exists_lowered (t : Tensor F) (sel : Selection) :
    ∃ w, Tensor.binary Elem.sub t.dtype (t.select sel)
      (.single t.dtype (Elem.one t.dtype)) = .ok w ∧
      (t.assignAt sel w).grid.shape = t.grid.shape := by
  obtain ⟨g, hg, -⟩ := Tensor.exists_binary Elem.sub t.dtype (s := t.select sel)
    (t := .single t.dtype (Elem.one t.dtype)) (Shape.fits_nil _).broadcast?.2
  exact ⟨_, hg, shape_foldl_update ..⟩

/-- **The derivative of the scores has their shape**, where the loss could be computed. -/
theorem exists_softmaxlossAdjoint (hx : x.Shaped s) (hy : softmaxloss x labelValues = .ok y)
    (hr : y.shape = .ok r) (hdy : dy.RealShaped r) :
    ∃ dx, softmaxlossAdjoint x labelValues dy = .ok (.tuple [dx, .none]) ∧ dx.RealShaped s := by
  obtain ⟨hs, hys, ⟨scores, e, total, hscores, he, htotal, hes, htotals, hft⟩, picks, sel, hpicks,
    hsel⟩ := softmaxloss_shaped hx hy
  obtain rfl := hys.eq_of_shape hr
  obtain ⟨probs, hprobs, hprobss⟩ := exists_operate .div hes.shaped htotals hes.finite hft
    (.inl hes.isFractional) (Shape.setAll_one_fits _ _).broadcast?.2
    fun _ h => absurd (hes.shaped.nil_of_isPlain h) hs
  obtain ⟨t, ht, rfl, hreal⟩ := hprobss.contents
  obtain ⟨w, hw, hshape⟩ := exists_lowered t sel
  obtain ⟨dx, hdx, hdxs⟩ := exists_operate .mul hdy.shaped (shaped_array (t.assignAt sel w))
    hdy.finite (fun n h => by cases h) (.inl hdy.isFractional) (Shape.fits_nil _).broadcast?.1
    (fun h => by cases h)
  refine ⟨dx, ?_, hshape ▸ hdxs⟩
  unfold softmaxlossAdjoint
  rw [hscores, ok_bind, he, ok_bind, htotal, ok_bind,
    show e.div total = .ok probs from hprobs, ok_bind, hpicks, ok_bind, ht, ok_bind]
  dsimp only
  rw [show Selection.resolve picks t.shape = .ok sel from hsel, ok_bind, hw, ok_bind,
    show dy.mul _ = .ok dx from hdx]
  rfl

end

end Kernel

end SlotGrad
