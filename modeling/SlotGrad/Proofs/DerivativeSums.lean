import SlotGrad.Proofs.SparseUpdate

/-!
# Sums of derivatives

Derivatives are kept as plain numbers, as elements of tensors or as tensors, in either
precision, and which of these a slot holds depends on what was added first.  In exact arithmetic
only the numbers matter: a value stands for a grid of numbers, and a sum of values stands for
the sum of the grids over their common shape.  The same is true of an addition at an index,
whatever was in the slot and whoever made it: it adds a grid of the source's shape that depends
on the source, the index and the derivative of the part alone.

Sums over common shapes are partial, but as far as they exist they may be regrouped.

## Main definitions

* `Grid.plus?` — the sum of two grids over their common shape.
* `Value.figures?`, `Value.isFractional` — the numbers that a value stands for, and the values
  to which numbers are added as real numbers.
* `Value.IsSum`, `Value.Gains` — a value that stands for the sum of two others, or of another
  one and a grid.
* `sparseAddend` — the grid that an addition at an index adds.

## Main results

* `Grid.plus?_plus?` — two sums are added term by term.
* `Value.plus_gains` — sums in slots.
* `scatter_gains` — sparse updates.
-/

namespace SlotGrad

/-! ### Least common shapes -/

namespace Shape

/-- A shape that fits another, read from the last extent on. -/
theorem fits_iff_reverse {a s : Shape} :
    a.Fits s ↔ ∃ own lead, s.reverse = own ++ lead ∧ List.Forall₂ Stretches a.reverse own := by
  constructor
  · rintro ⟨lead, own, rfl, hown⟩
    exact ⟨own.reverse, lead.reverse, List.reverse_append, List.forall₂_reverse_iff.mpr hown⟩
  · rintro ⟨own, lead, hs, hown⟩
    refine ⟨lead.reverse, own.reverse, ?_, ?_⟩
    · rw [← List.reverse_append, ← hs, List.reverse_reverse]
    · rw [← List.reverse_reverse a]
      exact List.forall₂_reverse_iff.mpr hown

/-- Two extents that stretch to a third one have a common extent that does. -/
theorem exists_commonExtent? {m n k : Nat} (hm : Stretches m k) (hn : Stretches n k) :
    ∃ c, commonExtent? m n = some c ∧ Stretches c k := by
  rcases hm with rfl | rfl
  · exact ⟨m, (commonExtent?_of_stretches hn).2, .inl rfl⟩
  · exact ⟨n, (commonExtent?_of_stretches (.inr rfl)).1, hn⟩

theorem exists_broadcastReversed? : ∀ {a b s : List Nat},
    (∃ own lead, s = own ++ lead ∧ List.Forall₂ Stretches a own) →
    (∃ own lead, s = own ++ lead ∧ List.Forall₂ Stretches b own) →
      ∃ u, broadcastReversed? a b = some u ∧
        ∃ own lead, s = own ++ lead ∧ List.Forall₂ Stretches u own
  | [], b, _, _, hb => ⟨b, rfl, hb⟩
  | _ :: _, [], _, ha, _ => ⟨_, rfl, ha⟩
  | m :: a, n :: b, s, ha, hb => by
    obtain ⟨_, lead, rfl, hown⟩ := ha
    obtain ⟨own', lead', hs, hown'⟩ := hb
    cases hown with
    | @cons _ k _ own hm hown =>
      cases hown' with
      | @cons _ k' _ own' hn hown' =>
        obtain ⟨rfl, hrest⟩ := List.cons.inj hs
        obtain ⟨c, hc, hck⟩ := exists_commonExtent? hm hn
        obtain ⟨u, hu, own'', lead'', hs', hown''⟩ :=
          exists_broadcastReversed? ⟨own, lead, rfl, hown⟩ ⟨own', lead', hrest, hown'⟩
        refine ⟨c :: u, ?_, k :: own'', lead'', congrArg (k :: ·) hs', .cons hck hown''⟩
        unfold broadcastReversed?
        rw [hc, hu]

/-- Two shapes that fit a third one have a common shape that does. -/
theorem exists_broadcast?_of_fits {a b s : Shape} (ha : a.Fits s) (hb : b.Fits s) :
    ∃ u, broadcast? a b = some u ∧ u.Fits s := by
  obtain ⟨u, hu, hfits⟩ := exists_broadcastReversed? (fits_iff_reverse.mp ha)
    (fits_iff_reverse.mp hb)
  refine ⟨u.reverse, ?_, fits_iff_reverse.mpr ?_⟩
  · unfold broadcast?
    rw [hu, Option.map_some]
  · rwa [List.reverse_reverse]

/-- The common shape fits every shape that both shapes fit. -/
theorem broadcast?_fits {a b s u : Shape} (hu : broadcast? a b = some u) (ha : a.Fits s)
    (hb : b.Fits s) : u.Fits s := by
  obtain ⟨u', hu', hfits⟩ := exists_broadcast?_of_fits ha hb
  rw [hu] at hu'
  cases hu'
  exact hfits

theorem Fits.antisymm {a b : Shape} (h : a.Fits b) (h' : b.Fits a) : a = b := by
  have hboth := h.broadcast?.1
  rw [h'.broadcast?.2] at hboth
  exact Option.some.inj hboth

end Shape

/-! ### Sums of grids -/

namespace Grid

variable {α : Type} [Inhabited α]

/-- The sum of two grids over their common shape. -/
def plus? [Add α] (a b : Grid α) : Option (Grid α) := zipWith? (· + ·) a b

variable {a b c d ab cd ac bd t : Grid α}

/-- Two sums are added term by term. -/
theorem plus?_plus? [AddCommSemigroup α] (hab : a.plus? b = some ab) (hcd : c.plus? d = some cd)
    (hac : a.plus? c = some ac) (hbd : b.plus? d = some bd) (h : ab.plus? cd = some t) :
    ac.plus? bd = some t := by
  obtain ⟨haab, hbab, -, -⟩ := zipWith?_eq_some hab
  obtain ⟨hccd, hdcd, hcdshape, -⟩ := zipWith?_eq_some hcd
  obtain ⟨haac, hcac, hacshape, -⟩ := zipWith?_eq_some hac
  obtain ⟨hbbd, hdbd, hbdshape, -⟩ := zipWith?_eq_some hbd
  obtain ⟨habt, hcdt, htshape, ht⟩ := zipWith?_eq_some h
  have habshape := (zipWith?_eq_some hab).2.2.1
  -- The four grids fit the last sum, so the other pairs have a common shape that fits it, too.
  have hact : ac.shape.Fits t.shape :=
    Shape.broadcast?_fits hacshape (haab.trans habt) (hccd.trans hcdt)
  have hbdt : bd.shape.Fits t.shape :=
    Shape.broadcast?_fits hbdshape (hbab.trans habt) (hdcd.trans hcdt)
  obtain ⟨u, hu, hut⟩ := Shape.exists_broadcast?_of_fits hact hbdt
  obtain ⟨hacu, hbdu⟩ := Shape.fits_of_broadcast? hu
  have htu : t.shape.Fits u := Shape.broadcast?_fits htshape
    (Shape.broadcast?_fits habshape (haac.trans hacu) (hbbd.trans hbdu))
    (Shape.broadcast?_fits hcdshape (hcac.trans hacu) (hdbd.trans hbdu))
  obtain rfl := hut.antisymm htu
  unfold plus? zipWith?
  rw [hu, ht, Option.map_some, shape_ofFn]
  refine congrArg some (ofFn_congr fun i hi => ?_)
  have hac' := spread_zipWith? hac hact hi
  have hbd' := spread_zipWith? hbd hbdt hi
  have hab' := spread_zipWith? hab habt hi
  have hcd' := spread_zipWith? hcd hcdt hi
  unfold spread at hac' hbd' hab' hcd' ⊢
  rw [hac', hbd', hab', hcd', add_add_add_comm]

theorem plus?_zero [AddZeroClass α] (a : Grid α) : a.plus? (single 0) = some a := by
  have hfits := (Shape.fits_nil a.shape).broadcast?.2
  unfold plus? zipWith?
  rw [shape_single, hfits, Option.map_some]
  refine congrArg some (ext_at rfl fun i hi => ?_)
  rw [shape_ofFn] at hi
  rw [at_ofFn hi, Shape.project_self hi, at_single]
  exact add_zero _

theorem zero_plus? [AddZeroClass α] (a : Grid α) : (single 0).plus? a = some a := by
  have hfits := (Shape.fits_nil a.shape).broadcast?.1
  unfold plus? zipWith?
  rw [shape_single, hfits, Option.map_some]
  refine congrArg some (ext_at rfl fun i hi => ?_)
  rw [shape_ofFn] at hi
  rw [at_ofFn hi, Shape.project_self hi, at_single]
  exact zero_add _

end Grid

/-! ### The numbers that a value stands for -/

section

variable {F : Type}

namespace Value

/-- The operand that a plain number or a tensor is. -/
def operand? (v : Value F) : Option (Operand F) :=
  match v.weak? with
  | some w => some (.weak w)
  | Option.none => v.solid?.map Operand.solid

theorem operand?_of_weak? {v : Value F} {w : Weak F} (h : v.weak? = some w) :
    v.operand? = some (.weak w) := by
  unfold operand?
  rw [h]

theorem isNone_of_operand? {v : Value F} {o : Operand F} (h : v.operand? = some o) :
    v.isNone = false := by
  cases v <;> first | rfl | cases h

variable [Arith F]

/-- An operand is a plain number, or it is read as an array of its numbers. -/
theorem operand?_eq_some {v : Value F} {o : Operand F} (h : v.operand? = some o) :
    (∃ w, v.weak? = some w ∧ o = .weak w) ∨
      ∃ t, v.weak? = Option.none ∧ v.solid? = some t ∧ o = .solid t ∧
        v.contents = .ok (.numbers t) ∧ v.isArrayLike = true := by
  cases v <;> cases h <;>
    first
    | exact .inl ⟨_, rfl, rfl⟩
    | exact .inr ⟨_, rfl, rfl, rfl, rfl, rfl⟩

theorem operandOf_of_operand? {v : Value F} {o : Operand F} (h : v.operand? = some o) :
    v.operandOf = .ok (some o) := by
  unfold operandOf
  rcases operand?_eq_some h with ⟨w, hw, rfl⟩ | ⟨t, hw, -, rfl, ht, -⟩
  · rw [hw]
  · rw [hw, ht]
    rfl

end Value

variable [Arith F]

namespace Operand

/-- The numbers that an operand stands for, if there is a real number for it. -/
def figures? : Operand F → Option (Grid F)
  | weak w => w.toReal.toOption.map Grid.single
  | solid t => some t.toReals

/-- Whether whatever meets the operand is computed on real numbers. -/
def isFractional : Operand F → Bool
  | weak w => w.sort = .real
  | solid t => t.dtype.isReal

end Operand

namespace Value

/-- The numbers that a plain number or a tensor stands for. -/
def figures? (v : Value F) : Option (Grid F) := v.operand?.bind Operand.figures?

/-- Whether the value is a real number or a tensor of real numbers. -/
def isFractional (v : Value F) : Bool := v.operand?.any Operand.isFractional

/-- A value that stands for the sum of two others. -/
def IsSum [Add F] (x y z : Value F) : Prop :=
  ∃ g h w, x.figures? = some g ∧ y.figures? = some h ∧ z.figures? = some w ∧ g.plus? h = some w

/-- A real value that stands for the sum of what another one stands for and a grid. -/
structure Gains [Add F] (h : Grid F) (x y : Value F) : Prop where
  /-- The numbers are sums. -/
  sum : ∃ g w, x.figures? = some g ∧ g.plus? h = some w ∧ y.figures? = some w
  /-- The value is real. -/
  real : y.isFractional = true

theorem isNone_of_figures? {v : Value F} {g : Grid F} (h : v.figures? = some g) :
    v.isNone = false := by
  obtain ⟨o, ho, -⟩ := Option.bind_eq_some_iff.mp h
  exact isNone_of_operand? ho

theorem figures?_eq_some {v : Value F} {g : Grid F} (h : v.figures? = some g) :
    (∃ w x, v.weak? = some w ∧ w.toReal = .ok x ∧ g = .single x) ∨
      ∃ t, v.weak? = Option.none ∧ v.solid? = some t ∧ v.contents = .ok (.numbers t) ∧
        v.isArrayLike = true ∧ g = t.toReals := by
  obtain ⟨o, ho, hg⟩ := Option.bind_eq_some_iff.mp h
  rcases operand?_eq_some ho with ⟨w, hw, rfl⟩ | ⟨t, hw, ht, rfl, hcontents, hlike⟩
  · obtain ⟨x, hx, rfl⟩ := Option.map_eq_some_iff.mp hg
    refine .inl ⟨w, x, hw, ?_, rfl⟩
    cases hreal : w.toReal <;> rw [hreal] at hx <;> cases hx
    rfl
  · cases hg
    exact .inr ⟨t, hw, ht, hcontents, hlike, rfl⟩

end Value

omit [Arith F] in
/-- A real number raises whatever it meets to real numbers. -/
theorem Operand.isReal_meetDtype {a : Operand F} (ha : a.isFractional = true) (b : Operand F) :
    (a.meetDtype b).isReal = true := by
  cases a with
  | weak x =>
    cases x with
    | real r =>
      cases b with
      | weak y => exact Dtype.isReal_common rfl _
      | solid t =>
        obtain ⟨d, g⟩ := t
        cases d <;> rfl
    | _ => cases ha
  | solid t =>
    cases b with
    | weak y =>
      obtain ⟨d, g⟩ := t
      cases d <;> cases ha <;> cases y <;> rfl
    | solid u => exact Dtype.isReal_common ha _

/-- Two values meet in the element type in which their operands meet. -/
theorem Value.commonDtype_of_operand? {a b : Value F} {x : Operand F} {d : Dtype}
    (ha : a.operand? = some x) (hd : a.commonDtype b = .ok d) : ∃ y, x.meetDtype y = d := by
  unfold Value.commonDtype at hd
  dsimp only at hd
  obtain ⟨x', hx, hd⟩ := bind_eq_ok.mp hd
  obtain ⟨y, -, hd⟩ := bind_eq_ok.mp hd
  refine ⟨y, ?_⟩
  rcases operand?_eq_some ha with ⟨w, hw, rfl⟩ | ⟨t, hw, ht, rfl, -⟩
  · rw [hw] at hx
    cases hx
    exact pure_eq_ok.mp hd
  · rw [hw, ht] at hx
    cases hx
    exact pure_eq_ok.mp hd

end

variable {K : Type} [Field K] [Arith K] [ExactArith K]

/-- An operand is brought to a precision without a change of its numbers. -/
theorem Operand.toTensor_figures {o : Operand K} {g : Grid K} (h : o.figures? = some g) {d : Dtype}
    (hd : d.isReal = true) : ∃ t, o.toTensor d = .ok t ∧ t.toReals = g := by
  cases o with
  | weak w =>
    obtain ⟨x, hx, rfl⟩ := Option.map_eq_some_iff.mp h
    have hx : w.toReal = .ok x := by
      cases hw : w.toReal <;> rw [hw] at hx <;> cases hx
      rfl
    obtain ⟨y, hy, rfl⟩ := Value.toElem_of_toReal hd hx
    refine ⟨.single d y, ?_, Grid.map_single _ _⟩
    unfold Operand.toTensor
    dsimp only
    rw [hy]
    rfl
  | solid t =>
    cases h
    exact ⟨t, rfl, rfl⟩

namespace Value

/-- A value read as an array of numbers has the numbers that it stands for. -/
theorem toReals_of_contents {v : Value K} {g : Grid K} {t : Tensor K} (h : v.figures? = some g)
    (ht : v.contents = .ok (.numbers t)) : t.toReals = g := by
  rcases figures?_eq_some h with ⟨w, x, hw, hx, rfl⟩ | ⟨u, -, -, hu, -, rfl⟩
  · rcases SlotGrad.contents_of_weak? hw hx with hobjects | ⟨u, hu, -, hux⟩
    · rw [ht] at hobjects
      cases hobjects
    · rw [ht] at hu
      cases hu
      exact hux
  · rw [ht] at hu
    cases hu
    rfl

omit [Field K] [ExactArith K] in
theorem figures?_reduced {d : Dtype} (hd : d.isReal = true) (g : Grid K) :
    (reduced (.ofReals d g) : Value K).figures? = some g ∧
      (reduced (.ofReals d g) : Value K).isFractional = true := by
  rcases Dtype.isReal_iff.mp hd with rfl | rfl
  all_goals
    unfold reduced Tensor.ofReals
    dsimp only
    split_ifs with hs
    · refine ⟨?_, rfl⟩
      exact congrArg some ((Grid.map_single _ _).trans (Grid.single_first hs))
    · exact ⟨congrArg some (Grid.map_eq_self (fun _ => rfl) g), rfl⟩

/-- As soon as one of two operands is no plain number, they are added as arrays. -/
theorem add_solid_figures {a b : Value K} {x y : Operand K} {g h : Grid K}
    (ha : a.operand? = some x) (hb : b.operand? = some y) (hg : x.figures? = some g)
    (hh : y.figures? = some h) (hd : (x.meetDtype y).isReal = true)
    (hsolid : a.weak? = Option.none ∨ b.weak? = Option.none) :
    a.add b = match g.plus? h with
      | some w => .ok (reduced (.ofReals (x.meetDtype y) w))
      | Option.none => .error .badValue := by
  have hlike : ∀ {c : Value K} {o : Operand K}, c.operand? = some o → c.weak? = Option.none →
      c.isArrayLike = true := by
    intro c o hc hw
    rcases operand?_eq_some hc with ⟨w, hw', -⟩ | ⟨_, -, -, -, -, hl⟩
    · rw [hw] at hw'
      cases hw'
    · exact hl
  have harrays : a.add b = operateArrays .add a b := by
    unfold add operate
    split
    · rename_i hp hq
      rw [hp, hq] at hsolid
      rcases hsolid with h | h <;> cases h
    · rw [if_neg (by simp), if_neg (by simp), if_pos (hsolid.imp (hlike ha) (hlike hb))]
  obtain ⟨s, hs, rfl⟩ := Operand.toTensor_figures hg hd
  obtain ⟨t, ht, rfl⟩ := Operand.toTensor_figures hh hd
  have happly : operateArrays .add a b = (do
      return reduced (← Tensor.binary Elem.add (x.meetDtype y) s t)) := by
    unfold operateArrays
    rw [operandOf_of_operand? ha, operandOf_of_operand? hb]
    change (do return reduced (← Operand.apply Elem.add (x.meetDtype y) x y) :
      Fallible (Value K)) = _
    unfold Operand.apply
    rw [hs, ht]
    rfl
  rw [harrays, happly]
  -- Both ways fail on the same shapes, namely those that do not broadcast.
  cases hw : s.toReals.plus? t.toReals with
  | some w =>
    rw [(Tensor.binary_add_eq_ok hd).mpr ⟨w, hw, rfl⟩]
    rfl
  | none =>
    cases hbinary : Tensor.binary Elem.add (x.meetDtype y) s t with
    | ok u =>
      obtain ⟨w, hw', -⟩ := (Tensor.binary_add_eq_ok hd).mp hbinary
      rw [show s.toReals.plus? t.toReals = some w from hw'] at hw
      cases hw
    | error f =>
      unfold Tensor.binary at hbinary
      split at hbinary <;> cases hbinary
      rfl

/-- A real number is added to another value number by number. -/
theorem exists_add {a b : Value K} {g h : Grid K} (ha : a.isFractional = true)
    (hg : a.figures? = some g) (hh : b.figures? = some h) :
    ∃ make : Grid K → Value K,
      (∀ w, g.plus? h = some w → (make w).figures? = some w ∧ (make w).isFractional = true) ∧
      a.add b = match g.plus? h with
        | some w => .ok (make w)
        | Option.none => .error .badValue := by
  obtain ⟨x, hx, hxg⟩ := Option.bind_eq_some_iff.mp hg
  obtain ⟨y, hy, hyh⟩ := Option.bind_eq_some_iff.mp hh
  have hfractional : x.isFractional = true := by
    unfold isFractional at ha
    rwa [hx, Option.any_some] at ha
  rcases figures?_eq_some hg with ⟨p, r, hp, hr, rfl⟩ | ⟨_, hnone, -⟩
  · rcases figures?_eq_some hh with ⟨q, z, hq, hz, rfl⟩ | ⟨_, hnone, -⟩
    · -- Two plain numbers: the first one is real, so the sum is.
      rw [operand?_of_weak? hp] at hx
      cases hx
      obtain ⟨r', rfl⟩ : ∃ r', p = .real r' := by
        cases p <;> first | exact ⟨_, rfl⟩ | cases hfractional
      refine ⟨fun w => real w.first, fun w hw => ?_, ?_⟩
      · cases hw
        exact ⟨rfl, rfl⟩
      · have hcombined : (do Weak.combineReals .add (← (Weak.real r').toReal) (← q.toReal) :
            Fallible (Value K)) = .ok (real (r + z)) := by
          rw [hr, hz]
          exact congrArg (Except.ok ∘ real) (ExactArith.add_eq r z)
        unfold add operate
        rw [hp, hq]
        exact hcombined
    · exact ⟨_, fun w _ => figures?_reduced (Operand.isReal_meetDtype hfractional y) w,
        add_solid_figures hx hy hxg hyh (Operand.isReal_meetDtype hfractional y) (.inr hnone)⟩
  · exact ⟨_, fun w _ => figures?_reduced (Operand.isReal_meetDtype hfractional y) w,
      add_solid_figures hx hy hxg hyh (Operand.isReal_meetDtype hfractional y) (.inl hnone)⟩

/-- **A sum in a slot stands for the sum of the numbers.** -/
theorem plus_gains {a b v : Value K} {g h : Grid K} (ha : a.isFractional = true)
    (hg : a.figures? = some g) (hh : b.figures? = some h) (hv : a.plus b = .ok v) :
    a.Gains h v := by
  obtain ⟨make, hmake, hadd⟩ := exists_add ha hg hh
  unfold plus at hv
  rw [isNone_of_figures? hg, if_neg Bool.false_ne_true, hadd] at hv
  cases hw : g.plus? h with
  | none =>
    rw [hw] at hv
    cases hv
  | some w =>
    rw [hw] at hv
    cases hv
    exact ⟨⟨g, w, hg, hw, (hmake w hw).1⟩, (hmake w hw).2⟩

/-- There is a sum in a slot if there is one of the numbers. -/
theorem exists_plus {a b : Value K} {g h w : Grid K} (ha : a.isFractional = true)
    (hg : a.figures? = some g) (hh : b.figures? = some h) (hw : g.plus? h = some w) :
    ∃ v, a.plus b = .ok v ∧ v.figures? = some w ∧ v.isFractional = true := by
  obtain ⟨make, hmake, hadd⟩ := exists_add ha hg hh
  rw [hw] at hadd
  refine ⟨_, ?_, hmake w hw⟩
  unfold plus
  rw [isNone_of_figures? hg, if_neg Bool.false_ne_true, hadd]

omit [ExactArith K] in
/-- Sums remain sums if the grids that are added are. -/
theorem IsSum.gains {x y z x' y' z' : Value K} {a b c : Grid K} (h : x.IsSum y z)
    (hx : x.Gains a x') (hy : y.Gains b y') (hz : z.Gains c z') (hc : a.plus? b = some c) :
    x'.IsSum y' z' := by
  obtain ⟨g, k, w, hg, hk, hw, hsum⟩ := h
  obtain ⟨_, p, hg', hp, hx'⟩ := hx.sum
  obtain ⟨_, q, hk', hq, hy'⟩ := hy.sum
  obtain ⟨_, t, hw', ht, hz'⟩ := hz.sum
  rw [hg] at hg'
  cases hg'
  rw [hk] at hk'
  cases hk'
  rw [hw] at hw'
  cases hw'
  exact ⟨p, q, t, hx', hy', hz', Grid.plus?_plus? hsum hc hp hq ht⟩

omit [ExactArith K] in
/-- A sum remains one if the same grid is added to a summand and to the sum. -/
theorem IsSum.gains_same {x y z y' z' : Value K} {b : Grid K} (h : x.IsSum y z)
    (hreal : x.isFractional = true) (hy : y.Gains b y') (hz : z.Gains b z') : x.IsSum y' z' := by
  refine h.gains ⟨?_, hreal⟩ hy hz (Grid.zero_plus? b)
  obtain ⟨g, -, -, hg, -⟩ := h
  exact ⟨g, g, hg, Grid.plus?_zero g, hg⟩

end Value

/-! ### Sparse updates -/

/-- The grid that an addition at an index adds to the derivative of its source. -/
def sparseAddend (source index dy : Value K) : Fallible (Grid K) := do
  let s ← source.shape
  let sel ← Selection.resolve (← index.picks) s
  match ← dy.contents with
  | .numbers u =>
    let w ← Fallible.ofOption .badValue (u.toReals.broadcastTo? sel.shape)
    return (Grid.full s (Arith.ofInt 0)).addAt sel w
  | _ => throw .wrongKind

omit [ExactArith K] in
theorem sparseAddend_eq_ok {source index dy : Value K} {h : Grid K} :
    sparseAddend source index dy = .ok h ↔
      ∃ s ps sel u w, source.shape = .ok s ∧ index.picks = .ok ps ∧
        Selection.resolve ps s = .ok sel ∧ dy.contents = .ok (.numbers u) ∧
        u.toReals.broadcastTo? sel.shape = some w ∧
        (Grid.full s (Arith.ofInt 0)).addAt sel w = h := by
  unfold sparseAddend
  constructor
  · intro hh
    obtain ⟨s, hs, hh⟩ := bind_eq_ok.mp hh
    obtain ⟨ps, hps, hh⟩ := bind_eq_ok.mp hh
    obtain ⟨sel, hsel, hh⟩ := bind_eq_ok.mp hh
    obtain ⟨cs, hcs, hh⟩ := bind_eq_ok.mp hh
    cases cs with
    | numbers u =>
      obtain ⟨w, hw, hh⟩ := bind_eq_ok.mp hh
      exact ⟨s, ps, sel, u, w, hs, hps, hsel, hcs, ofOption_eq_ok.mp hw, pure_eq_ok.mp hh⟩
    | texts _ => cases hh
    | objects _ => cases hh
  · rintro ⟨s, ps, sel, u, w, hs, hps, hsel, hcs, hw, rfl⟩
    rw [hs, hps]
    simp only [bind, Except.bind, hsel, hcs, hw, Fallible.ofOption_some, pure, Except.pure]

omit [ExactArith K] in
/-- What is added at an index has the source's shape. -/
theorem shape_sparseAddend {source index dy : Value K} {h : Grid K}
    (hh : sparseAddend source index dy = .ok h) : source.shape = .ok h.shape := by
  obtain ⟨s, ps, sel, u, w, hs, -, -, -, -, rfl⟩ := sparseAddend_eq_ok.mp hh
  rw [hs, Grid.shape_addAt]
  exact congrArg Except.ok (Grid.shape_ofFn s _).symm

omit [ExactArith K] in
/-- Additions of sums into a sum of grids are sums of additions. -/
theorem Grid.foldl_update_add {s : Shape} (source : List Nat → List Nat) (x y z : List Nat → K) :
    ∀ (is : List (List Nat)) {a b c : Grid K}, (∀ i ∈ is, z i = x i + y i) → a.shape = s →
      b.shape = s → c.shape = s → (∀ i ∈ s.indices, c.at i = a.at i + b.at i) → ∀ i ∈ s.indices,
        (is.foldl (fun acc i => acc.update (source i) fun old => old + z i) c).at i
          = (is.foldl (fun acc i => acc.update (source i) fun old => old + x i) a).at i
            + (is.foldl (fun acc i => acc.update (source i) fun old => old + y i) b).at i
  | [], _, _, _, _, _, _, _, hsum => hsum
  | j :: is, a, b, c, hz, ha, hb, hc, hsum => by
    refine foldl_update_add source x y z is (fun i hi => hz i (List.mem_cons_of_mem _ hi))
      (by rwa [shape_update]) (by rwa [shape_update]) (by rwa [shape_update]) fun i hi => ?_
    rw [at_update (hc ▸ hi), at_update (ha ▸ hi), at_update (hb ▸ hi), hsum i hi, ha, hb, hc,
      hz j (List.mem_cons_self ..)]
    split_ifs
    · exact add_add_add_comm ..
    · rw [add_zero, add_zero, add_zero]

/-- What is added at an index is additive in the derivative of the part. -/
theorem sparseAddend_plus? {source index x y z : Value K} {a b c : Grid K} (hsum : x.IsSum y z)
    (ha : sparseAddend source index x = .ok a) (hb : sparseAddend source index y = .ok b)
    (hc : sparseAddend source index z = .ok c) : a.plus? b = some c := by
  obtain ⟨g, h, w, hg, hh, hw, hplus⟩ := hsum
  obtain ⟨s, ps, sel, u, e, hs, hps, hsel, hu, he, rfl⟩ := sparseAddend_eq_ok.mp ha
  obtain ⟨_, _, _, u', e', hs', hps', hsel', hu', he', rfl⟩ := sparseAddend_eq_ok.mp hb
  rw [hs] at hs'
  cases hs'
  rw [hps] at hps'
  cases hps'
  rw [hsel] at hsel'
  cases hsel'
  obtain ⟨_, _, _, u'', e'', hs', hps', hsel', hu'', he'', rfl⟩ := sparseAddend_eq_ok.mp hc
  rw [hs] at hs'
  cases hs'
  rw [hps] at hps'
  cases hps'
  rw [hsel] at hsel'
  cases hsel'
  rw [Value.toReals_of_contents hg hu] at he
  rw [Value.toReals_of_contents hh hu'] at he'
  rw [Value.toReals_of_contents hw hu''] at he''
  obtain ⟨-, rfl⟩ := Grid.broadcastTo?_eq_some he
  obtain ⟨-, rfl⟩ := Grid.broadcastTo?_eq_some he'
  obtain ⟨hfits, rfl⟩ := Grid.broadcastTo?_eq_some he''
  have hshape : ∀ v : Grid K, ((Grid.full s (Arith.ofInt 0 : K)).addAt sel v).shape = s :=
    fun v => Grid.shape_addAt _ sel v
  have hzeros : ∀ i ∈ s.indices, (Grid.full s (Arith.ofInt 0 : K)).at i
      = (Grid.full s (Arith.ofInt 0 : K)).at i + (Grid.full s (Arith.ofInt 0 : K)).at i := by
    intro i hi
    unfold Grid.full
    rw [Grid.at_ofFn hi, ExactArith.ofInt_eq, Int.cast_zero, add_zero]
  -- Position by position the sum of the updates is the update by the sum.
  have hadd := Grid.foldl_update_add sel.source (Grid.ofFn sel.shape g.spread).at
    (Grid.ofFn sel.shape h.spread).at (Grid.ofFn sel.shape w.spread).at (Shape.indices sel.shape)
    (fun i hi => by
      rw [Grid.at_ofFn hi, Grid.at_ofFn hi, Grid.at_ofFn hi]
      exact Grid.spread_zipWith? hplus hfits hi)
    (Grid.shape_ofFn s _) (Grid.shape_ofFn s _) (Grid.shape_ofFn s _) hzeros
  unfold Grid.plus? Grid.zipWith?
  rw [hshape, hshape, (Shape.Fits.refl s).broadcast?.1, Option.map_some]
  refine congrArg some (Grid.ext_at (hshape _).symm fun i hi => ?_)
  rw [Grid.shape_ofFn] at hi
  rw [Grid.at_ofFn hi, Shape.project_self hi]
  exact (hadd i hi).symm

/-- A number that equals zero stands for zero. -/
theorem figures?_of_isZeroValue {c : Value K} (hc : c.isFractional = true)
    (hzero : Store.isZeroValue c = true) : c.figures? = some (.single 0) := by
  have hsame : ∀ x : K, Arith.same x (Arith.ofInt 0) = true → x = 0 := by
    intro x hx
    rw [(ExactArith.same_iff _ _).mp hx, ExactArith.ofInt_eq, Int.cast_zero]
  cases c with
  | real x => exact congrArg (some ∘ Grid.single) (hsame x hzero)
  | scalar d x =>
    cases d with
    | float64 => exact congrArg some ((Grid.map_single _ _).trans (congrArg _ (hsame x hzero)))
    | _ => cases hzero
  | _ => first | cases hc | cases hzero

omit [Field K] [ExactArith K] in
/-- A real number or a tensor of real numbers is read as an array of its numbers. -/
theorem contents_of_isFractional {c : Value K} {g : Grid K} (hc : c.isFractional = true)
    (hg : c.figures? = some g) : ∃ t : Tensor K, c.contents = .ok (.numbers t) ∧ t.toReals = g := by
  rcases Value.figures?_eq_some hg with ⟨w, x, hw, hx, rfl⟩ | ⟨t, -, -, ht, -, rfl⟩
  · cases c with
    | real y =>
      cases hw
      cases hx
      exact ⟨_, rfl, Grid.map_single _ _⟩
    | _ => first | cases hc | cases hw
  · exact ⟨t, ht, rfl⟩

/-- A sparse update adds into the derivative that was there, at the source's shape. -/
theorem scatterTarget_figures {owned : Bool} {c source dy target : Value K} {g : Grid K} {s : Shape}
    (hc : c.isFractional = true) (hg : c.figures? = some g) (hs : source.shape = .ok s)
    (hzero : Store.isZeroValue c = true → ∀ d, source.commonDtype dy = .ok d → d.isReal = true)
    (h : scatterTarget owned c source dy = .ok target) (harray : ∃ t, target = .array t) :
    ∃ d, d.isReal = true ∧ g.shape.Fits s ∧ target = .array (.ofReals d (.ofFn s g.spread)) := by
  unfold scatterTarget at h
  rw [Value.isNone_of_figures? hg, Bool.false_or, hs] at h
  cases hz : Store.isZeroValue c with
  | true =>
    rw [hz, if_pos rfl] at h
    obtain ⟨_, hs', h⟩ := bind_eq_ok.mp h
    cases hs'
    obtain ⟨d, hd, h⟩ := bind_eq_ok.mp h
    -- The zero of a reset is replaced by zeros of the source's shape.
    have hreal := hzero hz d hd
    rw [figures?_of_isZeroValue hc hz] at hg
    cases hg
    refine ⟨d, hreal, Shape.fits_nil s, ?_⟩
    rw [← pure_eq_ok.mp h, Tensor.zeros_eq_ofReals hreal]
    refine congrArg (fun e => Value.array (.ofReals d e)) (Grid.ofFn_congr fun i _ => ?_)
    rw [Grid.spread_single, ExactArith.ofInt_eq, Int.cast_zero]
  | false =>
    obtain ⟨t, ht, htg⟩ := contents_of_isFractional hc hg
    -- A derivative that is no reset zero has numbers of its own.
    have hshape : t.shape = g.shape := by
      rw [← htg]
      rfl
    have hcshape : c.shape = .ok g.shape := by
      unfold Value.shape
      rw [ht, ← hshape]
      rfl
    rw [hz, if_neg Bool.false_ne_true, hcshape, ht] at h
    obtain ⟨_, hs', h⟩ := bind_eq_ok.mp h
    cases hs'
    obtain ⟨_, hs', h⟩ := bind_eq_ok.mp h
    cases hs'
    split_ifs at h with hkeep
    · -- The pass made the derivative at this shape, and goes on with it.
      obtain ⟨u, rfl⟩ := harray
      obtain rfl : c = .array u := pure_eq_ok.mp h
      cases ht
      have hfull : g.shape = s := by
        simpa using (Bool.and_eq_true_iff.mp hkeep).2
      refine ⟨t.dtype, hc, hfull ▸ Shape.Fits.refl _, congrArg Value.array ?_⟩
      have hgrid : Grid.ofFn s g.spread = t.toReals := by
        rw [htg]
        refine Grid.ext_at hfull.symm fun i hi => ?_
        rw [Grid.shape_ofFn] at hi
        rw [Grid.at_ofFn hi, Grid.spread_of_mem (hfull ▸ hi)]
      rw [hgrid]
      exact Tensor.eq_ofReals hc rfl
    · -- Otherwise the numbers are copied at the source's shape.
      obtain ⟨_, hnumbers, h⟩ := bind_eq_ok.mp h
      cases hnumbers
      obtain ⟨wide, hwide, h⟩ := bind_eq_ok.mp h
      obtain ⟨d, hd, h⟩ := bind_eq_ok.mp h
      have hfits : t.shape.Fits s := by
        obtain ⟨e, he, -⟩ := bind_eq_ok.mp hwide
        exact (Grid.broadcastTo?_eq_some (ofOption_eq_ok.mp he)).1
      have hreal : d.isReal = true := by
        obtain ⟨x, hx, -⟩ := Option.bind_eq_some_iff.mp hg
        obtain ⟨y, rfl⟩ := Value.commonDtype_of_operand? hx hd
        refine Operand.isReal_meetDtype ?_ y
        unfold Value.isFractional at hc
        rwa [hx, Option.any_some] at hc
      obtain ⟨u, hu, hconvert⟩ := broadcastTo_numbers hreal hfits
      rw [hu] at hwide
      cases hwide
      refine ⟨d, hreal, hshape ▸ hfits, ?_⟩
      rw [← pure_eq_ok.mp h, hconvert, htg]

/-- **A sparse update adds a grid that depends on the source, the index and the derivative of the
part alone**, if the arrays that it makes are real. -/
theorem scatter_gains {owned : Bool} {c source index dy target v : Value K} {g : Grid K}
    (hc : c.isFractional = true) (hg : c.figures? = some g)
    (hzero : Store.isZeroValue c = true → ∀ d, source.commonDtype dy = .ok d → d.isReal = true)
    (htarget : scatterTarget owned c source dy = .ok target)
    (hv : addInto target index dy = .ok v) :
    ∃ h, sparseAddend source index dy = .ok h ∧ c.Gains h v := by
  have harray : ∃ t, target = .array t := by
    cases target with
    | array t => exact ⟨t, rfl⟩
    | _ => cases hv
  obtain ⟨s, hs⟩ : ∃ s, source.shape = .ok s := by
    unfold scatterTarget at htarget
    cases hshape : source.shape with
    | ok s => exact ⟨s, rfl⟩
    | error f =>
      rw [hshape] at htarget
      split_ifs at htarget <;> cases htarget
  obtain ⟨d, hd, hfits, rfl⟩ := scatterTarget_figures hc hg hs hzero htarget harray
  obtain ⟨ps, sel, u, w, hps, hsel, hu, hw, rfl⟩ := (addInto_eq_ok hd).mp hv
  have hzip : g.plus? ((Grid.full s (Arith.ofInt 0)).addAt sel w)
      = some ((Grid.ofFn s g.spread).addAt sel w) := by
    have hshape : ((Grid.full s (Arith.ofInt 0 : K)).addAt sel w).shape = s :=
      Grid.shape_addAt _ sel w
    unfold Grid.plus? Grid.zipWith?
    rw [hshape, hfits.broadcast?.1, Option.map_some, Grid.addAt_eq (.ofFn _ _)]
    refine congrArg some (Grid.ofFn_congr fun i hi => ?_)
    rw [Shape.project_self hi, Grid.at_ofFn hi]
    rfl
  refine ⟨_, sparseAddend_eq_ok.mpr ⟨s, ps, sel, u, w, hs, hps, hsel, hu, hw, rfl⟩,
    ⟨g, _, hg, hzip, congrArg some (Tensor.toReals_ofReals d _)⟩, ?_⟩
  · change (Tensor.ofReals d _).dtype.isReal = true
    rw [Tensor.dtype_ofReals hd]
    exact hd

end SlotGrad
