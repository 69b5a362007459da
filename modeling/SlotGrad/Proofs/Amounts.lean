import Mathlib.Algebra.Order.Monoid.Unbundled.WithTop
import Mathlib.Algebra.BigOperators.Group.List.Basic
import Mathlib.Algebra.Group.Pi.Lemmas
import SlotGrad.Proofs.DerivativeSums

/-!
# Sums of any number of derivatives

Sums over common shapes are partial, so they cannot be regrouped freely.  What a grid amounts to
in every shape that it fits, and that it amounts to nothing in any other, is an element of a
commutative monoid; there, sums always exist.  A grid is known by what it amounts to, and the
sum of grids exists exactly if some grid amounts to the sum.

## Main definitions

* `Amount`, `Grid.amount`, `Value.amount` — what a grid, or a value, amounts to in every shape.
* `Value.IsTotal` — a value that stands for the sum of others.

## Main results

* `Grid.foldlM_plus?` — the sum of grids is the grid that amounts to the sum.
* `Value.amount_foldlM_plus` — sums in slots.
* `amount_sparseAddend` — what is added at an index, for a derivative that is a sum.
-/

namespace SlotGrad

/-- What a grid holds at the positions of every shape; the top element stands for nothing. -/
abbrev Amount (K : Type) := Shape → WithTop (List Nat → K)

variable {K : Type} [Field K] [Arith K] [ExactArith K]

omit [Arith K] [ExactArith K] in
/-- If a sum is something in a shape, every summand is. -/
theorem Amount.ne_top_of_mem {l : List (Amount K)} {s : Shape} (h : l.sum s ≠ ⊤) :
    ∀ x ∈ l, x s ≠ ⊤ := by
  induction l with
  | nil => simp
  | cons y l ih =>
    rw [List.sum_cons, Pi.add_apply, WithTop.add_ne_top] at h
    exact List.forall_mem_cons.mpr ⟨h.1, ih h.2⟩

/-! ### Grids -/

namespace Grid

open Classical in
/-- What the grid holds at the positions of the shapes that it fits. -/
noncomputable def amount (g : Grid K) : Amount K := fun s =>
  if g.shape.Fits s then ((fun i => if i ∈ s.indices then g.spread i else 0 : List Nat → K) :
    WithTop (List Nat → K)) else ⊤

variable {a b c : Grid K} {s : Shape}

omit [ExactArith K] in
theorem amount_of_fits (h : a.shape.Fits s) : a.amount s
    = ((fun i => if i ∈ s.indices then a.spread i else 0 : List Nat → K) :
        WithTop (List Nat → K)) :=
  if_pos h

omit [ExactArith K] in
theorem amount_eq_top_iff : a.amount s = ⊤ ↔ ¬ a.shape.Fits s := by
  unfold amount
  split
  · simp [*]
  · simp [*]

omit [ExactArith K] in
theorem amount_zero : (single (0 : K)).amount = 0 := by
  funext s
  rw [amount_of_fits (Shape.fits_nil s)]
  refine congrArg _ (funext fun i => ?_)
  rw [spread_single, ite_self]
  rfl

omit [ExactArith K] in
theorem amount_plus? (h : a.plus? b = some c) : c.amount = a.amount + b.amount := by
  obtain ⟨hac, hbc, hshape, -⟩ := zipWith?_eq_some h
  funext s
  rw [Pi.add_apply]
  by_cases hc : c.shape.Fits s
  · rw [amount_of_fits hc, amount_of_fits (hac.trans hc), amount_of_fits (hbc.trans hc),
      ← WithTop.coe_add]
    refine congrArg _ (funext fun i => ?_)
    rw [Pi.add_apply]
    split
    · exact spread_zipWith? h hc ‹_›
    · exact (add_zero 0).symm
  · -- A shape that both summands fit is one that their sum fits.
    rw [amount_eq_top_iff.mpr hc, eq_comm, WithTop.add_eq_top, amount_eq_top_iff,
      amount_eq_top_iff, ← not_and_or]
    exact fun hboth => hc (Shape.broadcast?_fits hshape hboth.1 hboth.2)

omit [ExactArith K] in
/-- A grid is known by what it amounts to. -/
theorem eq_of_amount_eq (h : a.amount = b.amount) : a = b := by
  have hfits : ∀ s, a.shape.Fits s ↔ b.shape.Fits s := fun s => by
    rw [← not_iff_not, ← amount_eq_top_iff, ← amount_eq_top_iff, h]
  have hshape : a.shape = b.shape :=
    ((hfits _).mpr (Shape.Fits.refl _)).antisymm ((hfits _).mp (Shape.Fits.refl _))
  refine ext_at hshape fun i hi => ?_
  have hsame := congrFun h a.shape
  rw [amount_of_fits (Shape.Fits.refl _), amount_of_fits ((hfits _).mp (Shape.Fits.refl _)),
    WithTop.coe_inj] at hsame
  have hi' := congrFun hsame i
  rwa [if_pos hi, if_pos hi, spread_of_mem hi, spread_of_mem (hshape ▸ hi)] at hi'

omit [ExactArith K] in
/-- Grids that are part of a sum have a sum themselves. -/
theorem exists_plus? {rest : Amount K} (h : c.amount = a.amount + b.amount + rest) :
    ∃ d, a.plus? b = some d := by
  -- Both fit the shape of the whole sum.
  have hc : c.amount c.shape ≠ ⊤ := by
    rw [Ne, amount_eq_top_iff, not_not]
    exact Shape.Fits.refl _
  rw [h, Pi.add_apply, Pi.add_apply, Ne, WithTop.add_eq_top, WithTop.add_eq_top, not_or, not_or,
    amount_eq_top_iff, amount_eq_top_iff, not_not, not_not] at hc
  obtain ⟨s, hs, -⟩ := Shape.exists_broadcast?_of_fits hc.1.1 hc.1.2
  unfold plus? zipWith?
  rw [hs]
  exact ⟨_, rfl⟩

omit [ExactArith K] in
/-- **The sum of grids is the grid that amounts to the sum.** -/
theorem foldlM_plus? {gs : List (Grid K)} :
    gs.foldlM plus? a = some c ↔ c.amount = a.amount + (gs.map amount).sum := by
  induction gs generalizing a with
  | nil =>
    rw [List.foldlM_nil, List.map_nil, List.sum_nil, add_zero]
    exact ⟨fun h => by cases h; rfl, fun h => congrArg some (eq_of_amount_eq h).symm⟩
  | cons b gs ih =>
    rw [List.foldlM_cons, List.map_cons, List.sum_cons, ← add_assoc]
    constructor
    · intro h
      obtain ⟨d, hd, h⟩ := Option.bind_eq_some_iff.mp h
      rw [ih.mp h, amount_plus? hd]
    · intro h
      obtain ⟨d, hd⟩ := exists_plus? h
      exact Option.bind_eq_some_iff.mpr ⟨d, hd, ih.mpr (by rw [h, amount_plus? hd])⟩

end Grid

/-! ### Values -/

namespace Value

/-- What the numbers of a value amount to; a value that stands for no numbers amounts to nothing. -/
noncomputable def amount (v : Value K) : Amount K := (v.figures?.map Grid.amount).getD fun _ => ⊤

/-- A value that stands for the sum of others. -/
def IsTotal {F : Type} [Arith F] [Zero F] [Add F] (vs : List (Value F)) (v : Value F) : Prop :=
  ∃ gs g, vs.mapM figures? = some gs ∧ gs.foldlM Grid.plus? (.single 0) = some g ∧
    v.figures? = some g

omit [ExactArith K] in
theorem amount_of_figures? {v : Value K} {g : Grid K} (h : v.figures? = some g) :
    v.amount = g.amount := by
  unfold amount
  rw [h]
  rfl

omit [ExactArith K] in
/-- Values have a total exactly if they stand for numbers and amount to it. -/
theorem isTotal_iff {vs : List (Value K)} {v : Value K} :
    IsTotal vs v ↔ (∀ w ∈ vs, w.figures?.isSome) ∧ v.figures?.isSome ∧
      v.amount = (vs.map amount).sum := by
  have hamounts : ∀ {vs : List (Value K)} {gs : List (Grid K)}, vs.mapM figures? = some gs →
      (∀ w ∈ vs, w.figures?.isSome) ∧ vs.map amount = gs.map Grid.amount := by
    intro vs
    induction vs with
    | nil =>
      intro gs h
      cases h
      exact ⟨by simp, rfl⟩
    | cons w vs ih =>
      intro gs h
      rw [List.mapM_cons] at h
      obtain ⟨g, hg, h⟩ := Option.bind_eq_some_iff.mp h
      obtain ⟨gs, hgs, h⟩ := Option.bind_eq_some_iff.mp h
      cases h
      obtain ⟨hall, hsame⟩ := ih hgs
      exact ⟨List.forall_mem_cons.mpr ⟨by rw [hg]; rfl, hall⟩,
        by rw [List.map_cons, List.map_cons, amount_of_figures? hg, hsame]⟩
  -- If each stands for a grid they can all be read.
  have hexists : ∀ {vs : List (Value K)}, (∀ w ∈ vs, w.figures?.isSome) →
      ∃ gs, vs.mapM figures? = some gs := by
    intro vs
    induction vs with
    | nil => exact fun _ => ⟨[], rfl⟩
    | cons w vs ih =>
      intro h
      rw [List.forall_mem_cons] at h
      obtain ⟨g, hg⟩ := Option.isSome_iff_exists.mp h.1
      obtain ⟨gs, hgs⟩ := ih h.2
      exact ⟨g :: gs, by rw [List.mapM_cons, hg, hgs]; rfl⟩
  constructor
  · rintro ⟨gs, g, hgs, hg, hv⟩
    obtain ⟨hall, hsame⟩ := hamounts hgs
    refine ⟨hall, by rw [hv]; rfl, ?_⟩
    rw [amount_of_figures? hv, Grid.foldlM_plus?.mp hg, Grid.amount_zero, zero_add, hsame]
  · rintro ⟨hall, hv, hsum⟩
    obtain ⟨g, hg⟩ := Option.isSome_iff_exists.mp hv
    obtain ⟨gs, hgs⟩ := hexists hall
    refine ⟨gs, g, hgs, Grid.foldlM_plus?.mpr ?_, hg⟩
    rw [← amount_of_figures? hg, hsum, (hamounts hgs).2, Grid.amount_zero, zero_add]

omit [ExactArith K] in
/-- What stands for numbers amounts to something. -/
theorem exists_amount_ne_top {v : Value K} (h : v.figures?.isSome) : ∃ s, v.amount s ≠ ⊤ := by
  obtain ⟨g, hg⟩ := Option.isSome_iff_exists.mp h
  refine ⟨g.shape, ?_⟩
  rw [amount_of_figures? hg, Ne, Grid.amount_eq_top_iff, not_not]
  exact Shape.Fits.refl _

omit [ExactArith K] in
theorem Gains.amount {x y : Value K} {h : Grid K} (hxy : x.Gains h y) :
    y.amount = x.amount + h.amount := by
  obtain ⟨g, w, hg, hw, hy⟩ := hxy.sum
  rw [amount_of_figures? hg, amount_of_figures? hy, Grid.amount_plus? hw]

omit [ExactArith K] in
theorem Gains.isSome {x y : Value K} {h : Grid K} (hxy : x.Gains h y) : y.figures?.isSome := by
  obtain ⟨g, w, -, -, hy⟩ := hxy.sum
  rw [hy]
  rfl

/-- Values that stand for numbers are added one after another to a real number. -/
theorem amount_foldlM_plus {vs : List (Value K)} (hvs : ∀ v ∈ vs, v.figures?.isSome) :
    ∀ {a v : Value K}, a.isFractional = true → a.figures?.isSome → vs.foldlM plus a = .ok v →
      v.isFractional = true ∧ v.figures?.isSome ∧ v.amount = a.amount + (vs.map amount).sum := by
  induction vs with
  | nil =>
    intro a v ha hfigures h
    cases pure_eq_ok.mp h
    exact ⟨ha, hfigures, (add_zero _).symm⟩
  | cons b vs ih =>
    intro a v ha hfigures h
    rw [List.forall_mem_cons] at hvs
    rw [List.foldlM_cons] at h
    obtain ⟨u, hu, h⟩ := bind_eq_ok.mp h
    obtain ⟨g, hg⟩ := Option.isSome_iff_exists.mp hfigures
    obtain ⟨k, hk⟩ := Option.isSome_iff_exists.mp hvs.1
    have hgains := plus_gains ha hg hk hu
    obtain ⟨hreal, hv, hamount⟩ := ih hvs.2 hgains.real hgains.isSome h
    refine ⟨hreal, hv, ?_⟩
    rw [hamount, hgains.amount, List.map_cons, List.sum_cons, amount_of_figures? hk, add_assoc]

end Value

/-! ### Sparse updates -/

namespace Grid

omit [ExactArith K] in
/-- Grids of one shape add up position by position. -/
theorem amount_eq_sum {gs : List (Grid K)} (hne : gs ≠ []) :
    ∀ {c : Grid K}, (∀ g ∈ gs, g.shape = c.shape) →
      (∀ i ∈ c.shape.indices, c.at i = (gs.map fun g => g.at i).sum) →
        c.amount = (gs.map amount).sum := by
  induction gs with
  | nil => exact absurd rfl hne
  | cons a gs ih =>
    intro c hshape hat
    rw [List.forall_mem_cons] at hshape
    rw [List.map_cons, List.sum_cons]
    rcases gs with _ | ⟨b, gs⟩
    · rw [List.map_nil, List.sum_nil, add_zero]
      refine congrArg amount (ext_at hshape.1.symm fun i hi => ?_)
      rw [hat i hi, List.map_singleton, List.sum_singleton]
    · have hrest : (ofFn c.shape fun i => ((b :: gs).map fun g => g.at i).sum).amount
          = ((b :: gs).map amount).sum :=
        ih (List.cons_ne_nil b gs) hshape.2 fun i hi => at_ofFn hi
      rw [← hrest]
      refine amount_plus? ?_
      unfold plus? zipWith?
      rw [hshape.1, shape_ofFn, (Shape.Fits.refl _).broadcast?.1, Option.map_some]
      refine congrArg some (ext_at rfl fun i hi => ?_)
      rw [shape_ofFn] at hi
      rw [at_ofFn hi, Shape.project_self hi, at_ofFn hi, hat i hi]
      rfl

/-- What is added at an index holds at every position the sum of what is added there. -/
theorem exists_addAt_hom (s : Shape) (sel : Selection) {i : List Nat} (hi : i ∈ s.indices) :
    ∃ φ : (List Nat → K) →+ K, ∀ f, φ f
      = ((full s (Arith.ofInt 0 : K)).addAt sel (ofFn sel.shape f)).at i := by
  refine ⟨AddMonoidHom.mk' (fun f => ((full s (Arith.ofInt 0 : K)).addAt sel
    (ofFn sel.shape f)).at i) fun f h => ?_, fun _ => rfl⟩
  refine foldl_update_add sel.source _ _ _ (Shape.indices sel.shape) (fun j hj => ?_)
    (shape_ofFn s _) (shape_ofFn s _) (shape_ofFn s _) (fun j hj => ?_) i hi
  · rw [at_ofFn hj, at_ofFn hj, at_ofFn hj, Pi.add_apply]
  · rw [at_ofFn hj, ExactArith.ofInt_eq, Int.cast_zero, add_zero]

end Grid

/-- What is added at an index depends on what the derivative amounts to in the shape of the part. -/
theorem sparseAddend_amount {source index dy : Value K} {s : Shape} {ps : List Pick}
    {sel : Selection} {h : Grid K} (hs : source.shape = .ok s) (hps : index.picks = .ok ps)
    (hsel : Selection.resolve ps s = .ok sel) (hdy : dy.figures?.isSome)
    (hh : sparseAddend source index dy = .ok h) :
    ∃ f : List Nat → K, dy.amount sel.shape = (f : WithTop (List Nat → K)) ∧
      h = (Grid.full s (Arith.ofInt 0)).addAt sel (.ofFn sel.shape f) := by
  obtain ⟨w, hw⟩ := Option.isSome_iff_exists.mp hdy
  obtain ⟨s', ps', sel', u, e, hs', hps', hsel', hu, he, rfl⟩ := sparseAddend_eq_ok.mp hh
  rw [hs] at hs'
  cases hs'
  rw [hps] at hps'
  cases hps'
  rw [hsel] at hsel'
  cases hsel'
  rw [Value.toReals_of_contents hw hu] at he
  obtain ⟨hfits, rfl⟩ := Grid.broadcastTo?_eq_some he
  refine ⟨_, by rw [Value.amount_of_figures? hw, Grid.amount_of_fits hfits], ?_⟩
  exact congrArg _ (Grid.ofFn_congr fun i hi => (if_pos hi).symm)

/-- **What is added at an index is additive in the derivative of the part**, for any number of
derivatives. -/
theorem amount_sparseAddend {source index dy : Value K} {dys : List (Value K)} {h : Grid K}
    {hs : List (Grid K)} (hne : dys ≠ []) (htotal : Value.IsTotal dys dy)
    (hh : sparseAddend source index dy = .ok h)
    (hhs : List.Forall₂ (fun d k => sparseAddend source index d = .ok k) dys hs) :
    h.amount = (hs.map Grid.amount).sum := by
  obtain ⟨hfigures, hdy, hsum⟩ := Value.isTotal_iff.mp htotal
  obtain ⟨s, ps, sel, -, -, hshape, hps, hsel, -⟩ := sparseAddend_eq_ok.mp hh
  obtain ⟨f, hf, rfl⟩ := sparseAddend_amount hshape hps hsel hdy hh
  have hfull : ∀ e : Grid K, ((Grid.full s (Arith.ofInt 0 : K)).addAt sel e).shape = s := fun e =>
    Grid.shape_addAt _ sel e
  -- The summands, as functions on the positions of the part.
  obtain ⟨fs, hfs, rfl⟩ : ∃ fs : List (List Nat → K),
      (dys.map fun d => d.amount sel.shape) = fs.map (↑) ∧
        hs = fs.map fun f => (Grid.full s (Arith.ofInt 0)).addAt sel (.ofFn sel.shape f) := by
    clear hne htotal hsum
    induction hhs with
    | nil => exact ⟨[], rfl, rfl⟩
    | @cons d k dys hs hdk _ ih =>
      rw [List.forall_mem_cons] at hfigures
      obtain ⟨fs, hfs, rfl⟩ := ih hfigures.2
      obtain ⟨f, hf, rfl⟩ := sparseAddend_amount hshape hps hsel hfigures.1 hdk
      exact ⟨f :: fs, by rw [List.map_cons, List.map_cons, hf, hfs], rfl⟩
  have hfsum : f = fs.sum := by
    have hboth := congrArg (Pi.evalAddMonoidHom (fun _ => WithTop (List Nat → K)) sel.shape) hsum
    rw [map_list_sum, List.map_map] at hboth
    have hcoe : WithTop.addHom f = WithTop.addHom fs.sum := by
      rw [map_list_sum]
      exact hf.symm.trans (hboth.trans (congrArg List.sum hfs))
    exact WithTop.coe_inj.mp hcoe
  refine Grid.amount_eq_sum ?_ ?_ fun i hi => ?_
  · rintro hnil
    obtain rfl := List.map_eq_nil_iff.mp hnil
    exact hne (List.map_eq_nil_iff.mp hfs)
  · intro g hg
    obtain ⟨f', -, rfl⟩ := List.mem_map.mp hg
    rw [hfull, hfull]
  · rw [hfull] at hi
    obtain ⟨φ, hφ⟩ := Grid.exists_addAt_hom (K := K) s sel hi
    rw [← hφ, hfsum, map_list_sum, List.map_map]
    exact congrArg _ (List.map_congr_left fun f' _ => hφ f')

end SlotGrad
