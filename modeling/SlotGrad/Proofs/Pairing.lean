import SlotGrad.Proofs.RealKernels

/-!
# Derivatives against tangents

A derivative is paired with a value over dual numbers by summing, over the positions of the value,
the products of the derivative and the tangents.  A derivative has the shape of its value, or it is
a zero without axes, which is what a reset leaves in a slot and what stands for zeros of any shape.

Adjoints of elementwise kernels multiply the derivative of the output by a factor at each position
of the output's shape and sum the product back to the operand's shape.  Paired with the operand this
is a sum over the positions of the output.

## Main definitions

* `Grid.pairing`, `Value.pairing` — sums of derivatives times tangents.
* `Grid.IsCotangent`, `Value.IsCotangent` — derivatives that belong to a value.
* `Grid.Slope` — a derivative multiplied by a factor at each position.

## Main results

* `Value.pairing_add` — a sum of derivatives is paired as the sum of what they are paired as.
* `Value.unbroadcast_eq_ok`, `Value.pairing_unbroadcast` — derivatives summed back to the shape of
  an operand.
-/

namespace SlotGrad

variable {K : Type} [Field K] [Arith K] [ExactArith K]

namespace Grid

/-- The sum of the products of a derivative and the tangents of a value, the derivative stretched to
the value's shape. -/
def pairing (d : Grid K) (x : Grid (Dual K)) : K :=
  x.shape.total fun i => d.spread i * (x.at i).eps

/-- A derivative of a value of the given shape: it has the shape, or is a zero without axes. -/
def IsCotangent (d : Grid K) (s : Shape) : Prop := d.shape = s ∨ (d.shape = [] ∧ d.first = 0)

variable {d e : Grid K} {s : Shape} {x : Grid (Dual K)}

omit [ExactArith K] in
theorem spread_eq_zero (hs : d.shape = []) (h : d.first = 0) (i : List Nat) : d.spread i = 0 := by
  rw [spread, ← first_eq_at hs, h]

omit [ExactArith K] in
theorem IsCotangent.fits (h : d.IsCotangent s) : d.shape.Fits s := by
  rcases h with h | ⟨h, -⟩
  · exact h ▸ Shape.Fits.refl _
  · exact h ▸ Shape.fits_nil s

omit [ExactArith K] in
theorem IsCotangent.shape_eq_or_zero (h : d.IsCotangent s) :
    d.shape = s ∨ (d.shape = [] ∧ ∀ i, d.spread i = 0) :=
  h.imp_right fun h => ⟨h.1, spread_eq_zero h.1 h.2⟩

omit [ExactArith K] in
theorem pairing_eq_zero (h : ∀ i, d.spread i = 0) (x : Grid (Dual K)) : d.pairing x = 0 :=
  Shape.total_eq_zero fun i _ => by rw [h, zero_mul]

omit [ExactArith K] in
theorem pairing_of_shape_eq (h : d.shape = x.shape) :
    d.pairing x = x.shape.total fun i => d.at i * (x.at i).eps :=
  Shape.total_congr fun i hi => by rw [spread_of_mem (h ▸ hi)]

omit [ExactArith K] in
/-- Against constants every derivative counts nothing. -/
theorem pairing_map_embed (d g : Grid K) : d.pairing (g.map Dual.embed) = 0 :=
  Shape.total_eq_zero fun i _ => by rw [at_map_hom Dual.hom_embed, Dual.eps_embed, mul_zero]

/-- Derivatives of one value are added as what they are paired as. -/
theorem pairing_add {u : Grid K} (hd : d.IsCotangent x.shape) (he : e.IsCotangent x.shape)
    (hu : zipWith? Arith.add d e = some u) :
    u.IsCotangent x.shape ∧ u.pairing x = d.pairing x + e.pairing x := by
  obtain ⟨hdu, heu, hshape, -⟩ := zipWith?_eq_some hu
  have hcotangent : u.IsCotangent x.shape := by
    rcases hd with hds | ⟨hds, hd0⟩
    · rw [hds, (he.fits.broadcast?).2] at hshape
      exact .inl (Option.some.inj hshape).symm
    · rcases he with hes | ⟨hes, he0⟩
      · rw [hds, hes, (Shape.fits_nil _).broadcast?.1] at hshape
        exact .inl (Option.some.inj hshape).symm
      · rw [hds, hes] at hshape
        have hus : u.shape = [] := (Option.some.inj hshape).symm
        refine .inr ⟨hus, ?_⟩
        have hread := spread_zipWith? hu (Shape.Fits.refl u.shape) (i := []) (by simp [hus])
        rw [spread_eq_zero hds hd0, spread_eq_zero hes he0, ExactArith.add_eq, add_zero, spread,
          ← first_eq_at hus] at hread
        exact hread
  refine ⟨hcotangent, ?_⟩
  unfold pairing
  rw [← Shape.total_add]
  refine Shape.total_congr fun i hi => ?_
  rw [spread_zipWith? hu hcotangent.fits hi, ExactArith.add_eq, add_mul]

/-! ### Derivatives with a factor at each position -/

/-- A derivative of a value of shape `s` multiplied by a factor at each position. -/
structure Slope (d e : Grid K) (s : Shape) (σ : List Nat → K) : Prop where
  /-- The product has the shape of the derivative's value if the derivative has. -/
  shape : d.shape = s → e.shape = s
  /-- The product is read at the positions of any shape that it fits. -/
  spread : ∀ t : Shape, e.shape.Fits t → ∀ i ∈ t.indices, e.spread i = d.spread i * σ i

omit [ExactArith K] in
theorem Slope.refl (d : Grid K) (s : Shape) : Slope d d s fun _ => 1 :=
  ⟨id, fun _ _ _ _ => (mul_one _).symm⟩

variable {σ : List Nat → K} {b f : Grid K}

omit [ExactArith K] in
theorem Slope.shape_zipWith? {g : K → K → K} (h : Slope d e s σ) (hb : b.shape.Fits s)
    (hf : zipWith? g e b = some f) (hd : d.shape = s) : f.shape = s := by
  obtain ⟨-, -, hshape, -⟩ := zipWith?_eq_some hf
  rw [h.shape hd, hb.broadcast?.2] at hshape
  exact (Option.some.inj hshape).symm

theorem Slope.mul (h : Slope d e s σ) (hb : b.shape.Fits s) (hf : zipWith? Arith.mul e b = some f) :
    Slope d f s fun i => σ i * b.spread i := by
  refine ⟨h.shape_zipWith? hb hf, fun t ht i hi => ?_⟩
  rw [spread_zipWith? hf ht hi, h.spread t ((zipWith?_eq_some hf).1.trans ht) i hi,
    ExactArith.mul_eq, mul_assoc]

theorem Slope.div (h : Slope d e s σ) (hb : b.shape.Fits s) (hf : zipWith? Arith.div e b = some f) :
    Slope d f s fun i => σ i / b.spread i := by
  refine ⟨h.shape_zipWith? hb hf, fun t ht i hi => ?_⟩
  rw [spread_zipWith? hf ht hi, h.spread t ((zipWith?_eq_some hf).1.trans ht) i hi,
    ExactArith.div_eq, mul_div_assoc]

theorem Slope.neg (h : Slope d e s σ) : Slope d (e.map Arith.neg) s fun i => -σ i := by
  have hdefault : Arith.neg (default : K) = default := by
    rw [ExactArith.default_eq, ExactArith.neg_eq, neg_zero]
  refine ⟨h.shape, fun t ht i hi => ?_⟩
  rw [spread_map hdefault, h.spread t ht i hi, ExactArith.neg_eq, mul_neg]

omit [ExactArith K] in
/-- Paired with an operand at the positions of the shape common to both, a derivative with factors
counts as the derivative does at the positions of the output. -/
theorem Slope.total_common (h : Slope d e s σ) (hd : d.IsCotangent s) (hx : x.shape.Fits s)
    {common : Shape} (hcommon : Shape.broadcast? e.shape x.shape = some common) :
    (common.total fun i => e.spread i * (x.spread i).eps)
      = s.total fun i => d.spread i * (σ i * (x.spread i).eps) := by
  rcases hd.shape_eq_or_zero with hds | ⟨-, hzero⟩
  · rw [h.shape hds, hx.broadcast?.2] at hcommon
    cases hcommon
    refine Shape.total_congr fun i hi => ?_
    rw [h.spread s (h.shape hds ▸ Shape.Fits.refl _) i hi, mul_assoc]
  · rw [Shape.total_eq_zero, Shape.total_eq_zero]
    · intro i _
      rw [hzero, zero_mul]
    · intro i hi
      rw [h.spread common (Shape.fits_of_broadcast? hcommon).1 i hi, hzero, zero_mul, zero_mul]

end Grid

/-! ### Values -/

namespace Value

/-- The sum of the products of a derivative and the tangents of a value. -/
def pairing (d : Value K) (x : Value (Dual K)) : K :=
  match d.reals?, x.numbers? with
  | some g, some h => g.pairing h
  | _, _ => 0

/-- A derivative that belongs to a value: both are real, and the derivative has the value's shape or
is a zero without axes. -/
def IsCotangent (d : Value K) (x : Value (Dual K)) : Prop :=
  ∃ g h, d.reals? = some g ∧ x.numbers? = some h ∧ g.IsCotangent h.shape

variable {d e : Value K} {x : Value (Dual K)}

omit [ExactArith K] in
theorem pairing_eq {g : Grid K} {h : Grid (Dual K)} (hd : d.reals? = some g)
    (hx : x.numbers? = some h) : d.pairing x = g.pairing h := by
  unfold pairing
  rw [hd, hx]

omit [ExactArith K] in
theorem pairing_embed (d v : Value K) : d.pairing (v.map Dual.embed) = 0 := by
  unfold pairing
  rw [numbers?_map Dual.hom_embed]
  cases d.reals? with
  | none => rfl
  | some g =>
    cases v.numbers? with
    | none => rfl
    | some h => exact Grid.pairing_map_embed g h

omit [ExactArith K] in
/-- A derivative that belongs to a value and has the value's shape. -/
theorem isCotangent_of_shape_eq {g : Grid K} {h : Grid (Dual K)} (hd : d.reals? = some g)
    (hx : x.numbers? = some h) (hs : g.shape = h.shape) : d.IsCotangent x :=
  ⟨g, h, hd, hx, .inl hs⟩

theorem pairing_add {u : Value K} (hd : d.IsCotangent x) (he : e.IsCotangent x)
    (hu : d.add e = .ok u) : u.IsCotangent x ∧ u.pairing x = d.pairing x + e.pairing x := by
  obtain ⟨g, h, hdg, hxh, hg⟩ := hd
  obtain ⟨g', h', heg, hxh', hg'⟩ := he
  rw [hxh] at hxh'
  cases hxh'
  obtain ⟨w, hw, huw⟩ := operate_eq_ok (numbers?_of_reals? hdg) (numbers?_of_reals? heg)
    (.inl (by rw [hdg]; rfl)) hu
  obtain ⟨hcotangent, hpairing⟩ := Grid.pairing_add hg hg' hw
  refine ⟨⟨w, h, huw, hxh, hcotangent⟩, ?_⟩
  rw [pairing_eq huw hxh, pairing_eq hdg hxh, pairing_eq heg hxh, hpairing]

omit [ExactArith K] in
theorem shape_map_re {h : Grid (Dual K)} (hx : x.numbers? = some h) :
    (x.map Dual.re).shape = .ok h.shape := by
  refine shape_of_numbers? (g := h.map Dual.re) ?_
  rw [numbers?_map Dual.hom_re, hx]
  rfl

/-- A derivative summed back to the shape of an operand is paired with the operand as it was at the
positions of the shape common to both. -/
theorem unbroadcast_eq_ok {f : Grid K} {h : Grid (Dual K)} (he : e.reals? = some f)
    (hx : x.numbers? = some h) {v : Value K} (hv : unbroadcast e (x.map Dual.re) = .ok v) :
    v.IsCotangent x ∧ ∃ common, Shape.broadcast? f.shape h.shape = some common ∧
      v.pairing x = common.total fun i => f.spread i * (h.spread i).eps := by
  unfold unbroadcast at hv
  rw [shape_map_re hx, contents_of_reals? he] at hv
  change (do
    let result ← (⟨.float64, f⟩ : Tensor K).unbroadcast h.shape
    return if h.shape = [] ∧ f.shape ≠ [] then reduced result else array result) = _ at hv
  obtain ⟨z, hz, hv⟩ := bind_eq_ok.mp hv
  obtain ⟨w, common, rfl, hw, hcommon, htotal⟩ :=
    Tensor.total_unbroadcast (ExactArith.additive_id (K := K)) hz
  simp only [id_eq] at htotal
  have hreals : v.reals? = some w := by
    rw [← pure_eq_ok.mp hv]
    split_ifs
    · exact reals?_reduced w
    · rfl
  refine ⟨isCotangent_of_shape_eq hreals hx hw, common, hcommon, ?_⟩
  rw [pairing_eq hreals hx, Grid.pairing_of_shape_eq hw, htotal fun i => (h.at i).eps]
  rfl

/-- A derivative with factors summed back to the shape of an operand. -/
theorem pairing_unbroadcast {s : Shape} {σ : List Nat → K} {g f : Grid K} {h : Grid (Dual K)}
    (he : e.reals? = some f) (hf : g.Slope f s σ) (hg : g.IsCotangent s) (hx : x.numbers? = some h)
    (hh : h.shape.Fits s) {v : Value K} (hv : unbroadcast e (x.map Dual.re) = .ok v) :
    v.IsCotangent x ∧ v.pairing x = s.total fun i => g.spread i * (σ i * (h.spread i).eps) := by
  obtain ⟨hcotangent, common, hcommon, hpairing⟩ := unbroadcast_eq_ok he hx hv
  exact ⟨hcotangent, hpairing.trans (hf.total_common hg hh hcommon)⟩

end Value

end SlotGrad
