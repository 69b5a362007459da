import SlotGrad.Proofs.Amounts
import SlotGrad.Proofs.SparseAgreement

/-!
# Contributions to one slot commute

The derivative of a node comes together from the layers that read it: an array is added as a
whole, and the derivative of an indexed part is added at the index.  In which order this happens
depends on how the net was built.  The two kinds go different ways.  An addition at an index
changes the content of the slot in place and keeps its precision; the addition of an array puts
a new content there.

For a source with an axis, and derivatives that are kept as real numbers, all orders complete and
leave the same numbers: every contribution adds a grid of its own, whatever the slot holds.  The
precision in which they are kept may depend on the order, unless all contributions have one.

A source without axes is another matter.  The sum of arrays without axes is no array but a
number, which cannot be changed in place, so an addition at an index stops after one of an
array.  And a slot that was made for integers cannot take a real number.

## Main definitions

* `Contribution`, `Contribution.apply` — the two kinds, and what they do to a state.
* `Contribution.Valid` — the contributions that can be made to the derivative of a source.
* `Contribution.addend` — the grid that a contribution adds.
* `Written` — a slot holds an array of real numbers that the pass has made.

## Main results

* `Contribution.apply_written` — a contribution adds its grid.
* `contributions_commute` — all orders complete and leave the same numbers.
* `contributions_to_number_do_not_commute` — a source without axes, and one of integers.
-/

namespace SlotGrad

variable {F : Type} [Arith F]

/-! ### Contributions -/

/-- A contribution to the derivative of a source. -/
inductive Contribution (F : Type) where
  /-- A derivative of the whole source. -/
  | dense (v : Value F)
  /-- A derivative of the part at an index. -/
  | sparse (index dy : Value F)

namespace Contribution

/-- What the engine does with a contribution to the node of a value slot.  Of the instruction of an
indexing layer only the slot matters. -/
def apply (slot : Nat) (source : Value F) : Contribution F → RunState F → Outcome (RunState F)
  | dense v => contribute [v] ((slot : Int), 0)
  | sparse index dy => scatterStep { (default : Instruction F) with inputVars := [(slot : Int)] }
      [source, index, dy]

/-- The contributions that can be made to the derivative of a source of the shape `s` and that
are kept as real numbers: arrays of the shape, which has an axis, and numbers that fit the part
at an index and meet the source's in a real type.  Additions at an index that are all kept as
integers commute as well, with sums that wrap around, and are left out; integers together with
reals do not. -/
def Valid (source : Value F) (s : Shape) : Contribution F → Prop
  | dense v => s ≠ [] ∧ ∃ u, v = .array u ∧ u.shape = s
  | sparse index dy =>
    (∃ ps sel u, index.picks = .ok ps ∧ Selection.resolve ps s = .ok sel ∧
      dy.contents = .ok (.numbers u) ∧ u.shape.Fits sel.shape) ∧
    ∃ d, source.commonDtype dy = .ok d ∧ d.isReal = true

/-- A contribution in a given precision. -/
def InPrecision (source : Value F) (d : Dtype) : Contribution F → Prop
  | dense v => ∃ u, v = .array u ∧ u.dtype = d
  | sparse _ dy => source.commonDtype dy = .ok d

end Contribution

/-- A slot holds an array of some numbers in one of the given precisions, and the pass has made
it. -/
def Written (k : Nat) (allowed : Dtype → Prop) (g : Grid F) (r : RunState F) : Prop :=
  ∃ d, allowed d ∧ r.store.content k = .array (.ofReals d g) ∧ (k : Int) ∈ r.owned

/-- What a contribution leaves alone: the size of the store and all other slots. -/
structure OnlyAt (k : Nat) (r r' : RunState F) : Prop where
  /-- The stores have one size. -/
  size : r'.store.size = r.store.size
  /-- The other slots hold what they held. -/
  other : ∀ j, j ≠ k → r'.store.content j = r.store.content j

omit [Arith F] in
theorem OnlyAt.of_setAt {k : Nat} {r r' : RunState F} {v : Value F}
    (h : r'.store = r.store.setAt k v) : OnlyAt k r r' :=
  ⟨h ▸ Store.size_setAt .., fun _ hj => h ▸ Store.content_setAt_of_ne _ hj v⟩

omit [Arith F] in
theorem OnlyAt.trans {k : Nat} {r r' r'' : RunState F} (h : OnlyAt k r r') (h' : OnlyAt k r' r'') :
    OnlyAt k r r'' :=
  ⟨h'.size.trans h.size, fun j hj => (h'.other j hj).trans (h.other j hj)⟩

variable {K : Type} [Field K] [Arith K] [ExactArith K]

/-- The grid that a contribution adds. -/
def Contribution.addend (source : Value K) : Contribution K → Fallible (Grid K)
  | dense v => Fallible.ofOption .wrongKind v.figures?
  | sparse index dy => sparseAddend source index dy

/-- The position by position sum of two grids of one shape. -/
def Grid.sumWith (s : Shape) (g h : Grid K) : Grid K := .ofFn s fun i => g.at i + h.at i

/-! ### Arrays -/

/-- An array of a shape with an axis is added to an array of the shape, and the result has the
precision in which the two meet. -/
theorem plus_array_array {d : Dtype} (hd : d.isReal = true) {g : Grid K} {u : Tensor K}
    (hne : u.shape ≠ []) (hg : g.shape = u.shape) :
    (Value.array (.ofReals d g)).plus (.array u)
      = .ok (.array (.ofReals (d.common u.dtype) (g.sumWith u.shape u.toReals))) := by
  have hmeet : (Operand.solid (.ofReals d g)).meetDtype (.solid u) = d.common u.dtype := by
    change (Tensor.ofReals d g).dtype.common u.dtype = _
    rw [Tensor.dtype_ofReals hd]
  have hreal : (d.common u.dtype).isReal = true := Dtype.isReal_common hd _
  have hsum : g.plus? u.toReals = some (g.sumWith u.shape u.toReals) := by
    unfold Grid.plus? Grid.zipWith?
    rw [hg, show u.toReals.shape = u.shape from rfl, (Shape.Fits.refl _).broadcast?.1,
      Option.map_some]
    refine congrArg some (Grid.ofFn_congr fun i hi => ?_)
    rw [Shape.project_self hi]
  unfold Value.plus
  rw [if_neg (by simp [Value.isNone]),
    Value.add_solid_figures (a := .array (.ofReals d g)) (b := .array u) rfl rfl
      (congrArg some (Tensor.toReals_ofReals d g)) rfl (by rw [hmeet]; exact hreal) (.inl rfl),
    hsum, hmeet]
  exact congrArg Except.ok (Value.reduced_ofReals (g := g.sumWith u.shape u.toReals) hne)

/-- An array of a shape with an axis is added to the zero of a reset. -/
theorem zero_plus_array {u : Tensor K} (hne : u.shape ≠ []) :
    (Store.zero : Value K).plus (.array u)
      = .ok (.array (.ofReals (u.dtype.withWeak .real) u.toReals)) := by
  have hreal : (u.dtype.withWeak .real).isReal = true := by
    unfold Dtype.withWeak
    dsimp only
    split <;> first | assumption | rfl
  have hzero : (Operand.weak (.real (Arith.ofInt 0 : K))).figures? = some (.single 0) := by
    change some (Grid.single (Arith.ofInt 0 : K)) = _
    rw [ExactArith.ofInt_eq, Int.cast_zero]
  unfold Value.plus
  rw [if_neg (by simp [Value.isNone, Store.zero]),
    Value.add_solid_figures (a := (Store.zero : Value K)) (b := .array u) rfl rfl hzero rfl hreal
      (.inr rfl), Grid.zero_plus?]
  exact congrArg Except.ok (Value.reduced_ofReals (g := u.toReals) hne)

/-! ### One contribution -/

/-- The zero of a reset, or an array that the pass has made. -/
def Holds (k : Nat) (s : Shape) (allowed : Dtype → Prop) (g : Grid K) (r : RunState K) : Prop :=
  (r.store.content k = Store.zero ∧ g = Grid.full s 0) ∨ (g.shape = s ∧ Written k allowed g r)

/-- The precisions that a contribution leads to from the allowed ones are allowed. -/
def Contribution.Keeps (source : Value K) (allowed : Dtype → Prop) : Contribution K → Prop
  | dense v => ∀ u, v = .array u →
      allowed (u.dtype.withWeak .real) ∧ ∀ d, allowed d → allowed (d.common u.dtype)
  | sparse _ dy => ∀ d, source.commonDtype dy = .ok d → allowed d

omit [Field K] [ExactArith K] in
theorem Contribution.InPrecision.keeps {source : Value K} {c : Contribution K} {d : Dtype}
    (hd : d.isReal = true) (h : c.InPrecision source d) : c.Keeps source (· = d) := by
  cases c with
  | dense v =>
    obtain ⟨u, rfl, rfl⟩ := h
    intro u' hu'
    cases hu'
    refine ⟨?_, fun d hd => by rw [hd, Dtype.common_self]⟩
    unfold Dtype.withWeak
    dsimp only
    rw [if_pos hd]
  | sparse index dy =>
    intro d' hd'
    rw [h] at hd'
    exact (Except.ok.inj hd').symm

omit [Field K] [ExactArith K] in
/-- All contributions that are kept as real numbers lead to real numbers. -/
theorem Contribution.Valid.keeps {source : Value K} {s : Shape} {c : Contribution K}
    (h : c.Valid source s) : c.Keeps source fun d => d.isReal = true := by
  cases c with
  | dense v =>
    intro u _
    refine ⟨?_, fun d hd => Dtype.isReal_common hd _⟩
    unfold Dtype.withWeak
    dsimp only
    split <;> first | assumption | rfl
  | sparse index dy =>
    obtain ⟨-, d, hd, hreal⟩ := h
    intro d' hd'
    rw [hd] at hd'
    exact Except.ok.inj hd' ▸ hreal

section

variable {slot : Nat} {source : Value K} {s : Shape} {allowed : Dtype → Prop} {g : Grid K}
  {r : RunState K}

/-- The addition of an array puts the sum into the slot. -/
theorem dense_written (hallowed : ∀ d, allowed d → d.isReal = true)
    (hslot : slot + 1 < r.store.size) (hr : Holds (slot + 1) s allowed g r) {u : Tensor K}
    (hne : s ≠ []) (hu : u.shape = s)
    (hkeeps : (Contribution.dense (.array u)).Keeps source allowed) :
    ∃ t, (Contribution.dense (.array u)).apply slot source r = .done t ∧
      OnlyAt (slot + 1) r t ∧ Written (slot + 1) allowed (g.sumWith s u.toReals) t := by
  subst hu
  obtain ⟨hzero, hcommon⟩ := hkeeps u rfl
  obtain ⟨d, hd, hplus⟩ : ∃ d, allowed d ∧ (r.store.content (slot + 1)).plus (.array u)
      = .ok (.array (.ofReals d (g.sumWith u.shape u.toReals))) := by
    rcases hr with ⟨hcontent, rfl⟩ | ⟨hg, d, hd, hcontent, -⟩
    · refine ⟨_, hzero, ?_⟩
      rw [hcontent, zero_plus_array hne]
      refine congrArg (fun e => Except.ok (Value.array (.ofReals _ e))) (Grid.ext_at rfl ?_)
      intro i hi
      have hi : i ∈ u.shape.indices := hi
      unfold Grid.sumWith Grid.full
      rw [Grid.at_ofFn hi, Grid.at_ofFn hi, zero_add]
    · exact ⟨_, hcommon d hd, by rw [hcontent, plus_array_array (hallowed d hd) hne hg]⟩
  have happly : (Contribution.dense (.array u)).apply slot source r
      = .done (r.put ((slot + 1 : Nat) : Int) (r.store.setAt (slot + 1)
          (.array (.ofReals d (g.sumWith u.shape u.toReals))))) := by
    change contribute [Value.array u] ((slot : Int), ((0 : Nat) : Int)) r = _
    unfold contribute
    dsimp only
    rw [resultAt_natCast]
    simp only [List.getElem?_cons_zero, liftM_eq_lift, Fallible.lift_ok, ok_bind, Value.isNone,
      Bool.false_eq_true, if_false]
    rw [show derSlot (slot : Int) = ((slot + 1 : Nat) : Int) from rfl,
      Store.accumulate_natCast hslot, hplus]
    rfl
  exact ⟨_, happly, OnlyAt.of_setAt rfl, d, hd, Store.content_setAt_self hslot _,
    List.mem_cons_self ..⟩

/-- The addition at an index changes the slot by the grid that it adds. -/
theorem sparse_written (hallowed : ∀ d, allowed d → d.isReal = true) (hs : source.shape = .ok s)
    (hslot : slot + 1 < r.store.size) (hr : Holds (slot + 1) s allowed g r) {index dy : Value K}
    (hvalid : (Contribution.sparse index dy).Valid source s)
    (hkeeps : (Contribution.sparse index dy).Keeps source allowed) :
    ∃ h t, sparseAddend source index dy = .ok h ∧ h.shape = s ∧
      (Contribution.sparse index dy).apply slot source r = .done t ∧
      OnlyAt (slot + 1) r t ∧ Written (slot + 1) allowed (g.sumWith s h) t := by
  obtain ⟨⟨ps, sel, u, hps, hsel, hu, hfits⟩, d₀, hd₀, -⟩ := hvalid
  -- The target is an array of real numbers, new zeros or what the pass has made.
  obtain ⟨d, hd, hg, htarget⟩ : ∃ d, allowed d ∧ g.shape = s ∧
      scatterTarget (r.owned.contains ((slot + 1 : Nat) : Int))
        (r.store.content (slot + 1)) source dy
        = .ok (.array (.ofReals d g)) := by
    rcases hr with ⟨hcontent, rfl⟩ | ⟨hg, d, hd, hcontent, howned⟩
    · refine ⟨d₀, hkeeps d₀ hd₀, Grid.shape_ofFn .., ?_⟩
      have hzero : Store.isZeroValue (Store.zero : Value K) = true :=
        (ExactArith.same_iff _ _).mpr rfl
      unfold scatterTarget
      rw [hcontent, hzero, Bool.or_true, if_pos rfl, hs, hd₀]
      simp only [ok_bind]
      rw [Tensor.zeros_eq_ofReals (hallowed d₀ (hkeeps d₀ hd₀)), ExactArith.ofInt_eq,
        Int.cast_zero]
      rfl
    · refine ⟨d, hd, hg, ?_⟩
      have hshape : (Value.array (.ofReals d g)).shape = .ok s := by
        rw [← hg, ← Tensor.shape_ofReals d g]
        rfl
      unfold scatterTarget
      rw [hcontent, show Store.isZeroValue (Value.array (.ofReals d g)) = false from rfl,
        if_neg (by simp [Value.isNone]), hs]
      simp only [ok_bind, hshape, List.contains_iff_mem.mpr howned, Bool.true_and, beq_self_eq_true,
        if_true]
      rfl
  have hw : u.toReals.broadcastTo? sel.shape = some (.ofFn sel.shape u.toReals.spread) :=
    Grid.broadcastTo?_of_fits hfits
  have hv : addInto (.array (.ofReals d g)) index dy
      = .ok (.array (.ofReals d (g.addAt sel (.ofFn sel.shape u.toReals.spread)))) :=
    (addInto_eq_ok (hallowed d hd)).mpr ⟨ps, sel, u, _, hps, hg ▸ hsel, hu, hw, rfl⟩
  refine ⟨(Grid.full s (Arith.ofInt 0)).addAt sel (.ofFn sel.shape u.toReals.spread), _,
    sparseAddend_eq_ok.mpr ⟨s, ps, sel, u, _, hs, hps, hsel, hu, hw, rfl⟩,
    Grid.shape_addAt _ sel _,
    scatterStep_eq_done (k := slot + 1) rfl hslot rfl htarget hv, ?_, d, hd, ?_,
    List.mem_cons_self ..⟩
  · exact OnlyAt.of_setAt (Store.setAt_setAt ..)
  · rw [RunState.put, Store.setAt_setAt, Store.content_setAt_self hslot, Grid.addAt_eq, hg]
    rfl

/-- **A contribution adds its grid** and leaves every other slot alone. -/
theorem Contribution.apply_written (hallowed : ∀ d, allowed d → d.isReal = true)
    (hs : source.shape = .ok s) (hslot : slot + 1 < r.store.size)
    (hr : Holds (slot + 1) s allowed g r) {c : Contribution K} (hvalid : c.Valid source s)
    (hkeeps : c.Keeps source allowed) :
    ∃ h t, c.addend source = .ok h ∧ h.shape = s ∧ c.apply slot source r = .done t ∧
      OnlyAt (slot + 1) r t ∧ Written (slot + 1) allowed (g.sumWith s h) t := by
  cases c with
  | dense v =>
    obtain ⟨hne, u, rfl, hu⟩ := hvalid
    obtain ⟨t, ht, honly, hwritten⟩ := dense_written hallowed hslot hr hne hu hkeeps
    exact ⟨u.toReals, t, rfl, hu, ht, honly, hwritten⟩
  | sparse index dy => exact sparse_written hallowed hs hslot hr hvalid hkeeps

end

/-! ### Many contributions -/

/-- The position by position sum of grids. -/
def Grid.sumOf (s : Shape) (gs : List (Grid K)) : Grid K :=
  .ofFn s fun i => (gs.map fun g => g.at i).sum

section

variable {slot : Nat} {source : Value K} {s : Shape} {allowed : Dtype → Prop}
    {cs : List (Contribution K)}

/-- After the first contribution the slot holds the sum of the grids of all. -/
theorem runAll_written (hallowed : ∀ d, allowed d → d.isReal = true) (hs : source.shape = .ok s)
    (hvalid : ∀ c ∈ cs, c.Valid source s) (hkeeps : ∀ c ∈ cs, c.Keeps source allowed) :
    ∀ {gs : List (Grid K)} {r : RunState K}, slot + 1 < r.store.size →
      Written (slot + 1) allowed (Grid.sumOf s gs) r →
        ∃ hs t, cs.mapM (Contribution.addend source) = .ok hs ∧
          runAll (Contribution.apply slot source) cs r = .done t ∧ OnlyAt (slot + 1) r t ∧
          Written (slot + 1) allowed (Grid.sumOf s (gs ++ hs)) t := by
  induction cs with
  | nil =>
    intro gs r _ hr
    exact ⟨[], r, rfl, rfl, ⟨rfl, fun _ _ => rfl⟩, by rwa [List.append_nil]⟩
  | cons c cs ih =>
    intro gs r hslot hr
    rw [List.forall_mem_cons] at hvalid hkeeps
    obtain ⟨h, t, hh, -, ht, honly, hwritten⟩ := Contribution.apply_written hallowed hs hslot
      (.inr ⟨Grid.shape_ofFn .., hr⟩) hvalid.1 hkeeps.1
    have hnext : (Grid.sumOf s gs).sumWith s h = Grid.sumOf s (gs ++ [h]) := by
      refine Grid.ofFn_congr fun i hi => ?_
      unfold Grid.sumOf
      rw [Grid.at_ofFn hi, List.map_append, List.sum_append, List.map_singleton,
        List.sum_singleton]
    obtain ⟨ks, t', hks, ht', honly', hwritten'⟩ := ih hvalid.2 hkeeps.2
      (honly.size.symm ▸ hslot) (hnext ▸ hwritten)
    refine ⟨h :: ks, t', ?_, ?_, honly.trans honly', ?_⟩
    · rw [List.mapM_cons, hh, ok_bind, hks]
      rfl
    · rw [runAll_cons, ht, Outcome.done_andThen, ht']
    · rwa [List.append_assoc, List.singleton_append] at hwritten'

variable (allowed) in
/-- Contributions to the zero of a reset: the slot holds the sum of their grids, if there are
any. -/
theorem runAll_from_zero (hallowed : ∀ d, allowed d → d.isReal = true) (hs : source.shape = .ok s)
    (hvalid : ∀ c ∈ cs, c.Valid source s) (hkeeps : ∀ c ∈ cs, c.Keeps source allowed)
    {r : RunState K} (hslot : slot + 1 < r.store.size)
    (hzero : r.store.content (slot + 1) = Store.zero) :
    ∃ hs t, cs.mapM (Contribution.addend source) = .ok hs ∧
      runAll (Contribution.apply slot source) cs r = .done t ∧ OnlyAt (slot + 1) r t ∧
      (cs ≠ [] → Written (slot + 1) allowed (Grid.sumOf s hs) t) := by
  cases cs with
  | nil => exact ⟨[], r, rfl, rfl, ⟨rfl, fun _ _ => rfl⟩, fun hne => absurd rfl hne⟩
  | cons c cs =>
    rw [List.forall_mem_cons] at hvalid hkeeps
    obtain ⟨h, t, hh, -, ht, honly, hwritten⟩ := Contribution.apply_written hallowed hs hslot
      (.inl ⟨hzero, rfl⟩) hvalid.1 hkeeps.1
    have hfirst : (Grid.full s 0).sumWith s h = Grid.sumOf s [h] := by
      refine Grid.ofFn_congr fun i hi => ?_
      unfold Grid.full
      rw [Grid.at_ofFn hi, zero_add, List.map_singleton, List.sum_singleton]
    obtain ⟨ks, t', hks, ht', honly', hwritten'⟩ := runAll_written hallowed hs hvalid.2 hkeeps.2
      (honly.size.symm ▸ hslot) (hfirst ▸ hwritten)
    refine ⟨h :: ks, t', ?_, ?_, honly.trans honly', fun _ => hwritten'⟩
    · rw [List.mapM_cons, hh, ok_bind, hks]
      rfl
    · rw [runAll_cons, ht, Outcome.done_andThen, ht']

end

/-- Results for the members of a list are rearranged with it. -/
theorem exists_mapM_perm {α β ε : Type} {f : α → Except ε β} {as as' : List α} (h : as.Perm as') :
    ∀ {bs : List β}, as.mapM f = .ok bs → ∃ bs', as'.mapM f = .ok bs' ∧ bs.Perm bs' := by
  induction h with
  | nil => exact fun hbs => ⟨_, hbs, .refl _⟩
  | cons a _ ih =>
    intro bs hbs
    rw [List.mapM_cons] at hbs
    obtain ⟨b, hb, hbs⟩ := bind_eq_ok.mp hbs
    obtain ⟨bs, hrest, hbs⟩ := bind_eq_ok.mp hbs
    cases pure_eq_ok.mp hbs
    obtain ⟨bs', hbs', hperm⟩ := ih hrest
    exact ⟨b :: bs', by rw [List.mapM_cons, hb, ok_bind, hbs']; rfl, hperm.cons b⟩
  | swap a a' as =>
    intro bs hbs
    rw [List.mapM_cons, List.mapM_cons] at hbs
    obtain ⟨b', hb', hbs⟩ := bind_eq_ok.mp hbs
    obtain ⟨bs, hrest, hbs⟩ := bind_eq_ok.mp hbs
    cases pure_eq_ok.mp hbs
    obtain ⟨b, hb, hrest⟩ := bind_eq_ok.mp hrest
    obtain ⟨cs, hcs, hrest⟩ := bind_eq_ok.mp hrest
    cases pure_eq_ok.mp hrest
    refine ⟨b :: b' :: cs, ?_, .swap b b' cs⟩
    rw [List.mapM_cons, List.mapM_cons, hb, hb', hcs]
    rfl
  | trans _ _ ih ih' =>
    intro bs hbs
    obtain ⟨bs', hbs', hperm⟩ := ih hbs
    obtain ⟨bs'', hbs'', hperm'⟩ := ih' hbs'
    exact ⟨bs'', hbs'', hperm.trans hperm'⟩

omit [ExactArith K] in
/-- A sum of grids does not depend on their order. -/
theorem Grid.sumOf_perm (s : Shape) {gs hs : List (Grid K)} (h : gs.Perm hs) :
    Grid.sumOf s gs = Grid.sumOf s hs :=
  Grid.ofFn_congr fun _ _ => (h.map _).sum_eq

/-- **Contributions to one slot commute.**  Take the derivative slot of a source, which holds
the zero that a reset leaves, and contributions that are kept as real numbers, each an array of
the source's shape, if that has an axis, or numbers that fit the part of the source at an index.
They may be applied in every order; no order stops, no other slot changes, and the slot holds an
array of the sums, position by position, of what each contribution adds by itself.  If all
contributions have one precision, all orders leave the same store. -/
theorem contributions_commute {slot : Nat} {source : Value K} {s : Shape}
    {cs cs' : List (Contribution K)} (hs : source.shape = .ok s)
    (hvalid : ∀ c ∈ cs, c.Valid source s) (hperm : cs.Perm cs') {r : RunState K}
    (hslot : slot + 1 < r.store.size) (hzero : r.store.content (slot + 1) = Store.zero) :
    ∃ grids t t', cs.mapM (Contribution.addend source) = .ok grids ∧
      runAll (Contribution.apply slot source) cs r = .done t ∧
      runAll (Contribution.apply slot source) cs' r = .done t' ∧
      (OnlyAt (slot + 1) r t ∧ OnlyAt (slot + 1) r t') ∧
      (cs ≠ [] → ∃ d d', d.isReal = true ∧ d'.isReal = true ∧
        t.store.content (slot + 1) = .array (.ofReals d (Grid.sumOf s grids)) ∧
        t'.store.content (slot + 1) = .array (.ofReals d' (Grid.sumOf s grids))) ∧
      ∀ d, d.isReal = true → (∀ c ∈ cs, c.InPrecision source d) → t'.store = t.store := by
  have hvalid' : ∀ c ∈ cs', c.Valid source s := fun c hc => hvalid c (hperm.mem_iff.mpr hc)
  obtain ⟨grids, t, hgrids, ht, honly, hwritten⟩ := runAll_from_zero (·.isReal = true)
    (fun _ hd => hd) hs hvalid (fun c hc => (hvalid c hc).keeps) hslot hzero
  obtain ⟨grids', t', hgrids', ht', honly', hwritten'⟩ := runAll_from_zero (·.isReal = true)
    (fun _ hd => hd) hs hvalid' (fun c hc => (hvalid' c hc).keeps) hslot hzero
  -- The grids of the second order are those of the first, rearranged, and have one sum.
  obtain ⟨bs, hbs, hsame⟩ := exists_mapM_perm hperm hgrids
  obtain rfl : bs = grids' := Except.ok.inj (hbs.symm.trans hgrids')
  have hsum := Grid.sumOf_perm s hsame
  have hne : cs ≠ [] → cs' ≠ [] := fun hne hnil => hne (List.perm_nil.mp (hnil ▸ hperm))
  refine ⟨grids, t, t', hgrids, ht, ht', ⟨honly, honly'⟩, fun hcs => ?_, fun d hd hone => ?_⟩
  · obtain ⟨d, hd, hcontent, -⟩ := hwritten hcs
    obtain ⟨d', hd', hcontent', -⟩ := hwritten' (hne hcs)
    exact ⟨d, d', hd, hd', hcontent, hsum ▸ hcontent'⟩
  · have hstate : ∀ {u u' : RunState K}, Outcome.done u = .done u' → u = u' := fun h =>
      congrArg Outcome.state h
    refine Store.ext_content (honly'.size.trans honly.size.symm) fun k => ?_
    by_cases hk : k = slot + 1
    · subst hk
      by_cases hcs : cs = []
      · subst hcs
        obtain rfl := List.nil_perm.mp hperm
        rw [hstate (ht.symm.trans ht')]
      · -- In one precision the two arrays are the same.
        obtain ⟨ks, u, hks, hu, -, hwu⟩ := runAll_from_zero (· = d)
          (fun _ h => h ▸ hd) hs hvalid (fun c hc => (hone c hc).keeps hd) hslot hzero
        obtain ⟨ks', u', hks', hu', -, hwu'⟩ := runAll_from_zero (· = d)
          (fun _ h => h ▸ hd) hs hvalid'
          (fun c hc => (hone c (hperm.mem_iff.mpr hc)).keeps hd) hslot hzero
        obtain rfl := hstate (hu.symm.trans ht)
        obtain rfl := hstate (hu'.symm.trans ht')
        obtain rfl := Except.ok.inj (hks.symm.trans hgrids)
        obtain rfl := Except.ok.inj (hks'.symm.trans hgrids')
        obtain ⟨_, rfl, hcontent, -⟩ := hwu hcs
        obtain ⟨_, rfl, hcontent', -⟩ := hwu' (hne hcs)
        rw [hcontent, hcontent', hsum]
    · rw [honly.other k hk, honly'.other k hk]

/-- A sparse update that fails after the slot was prepared. -/
theorem scatterStep_eq_stopped {i : Instruction F} {args : List (Value F)}
    {r : RunState F} {k : Nat} {source index dy target : Value F} {f : Fault}
    (hvar : (i.inputVars.head?).map derSlot = some (k : Int)) (hk : k < r.store.size)
    (hargs : scatterArguments args = .ok (source, index, dy))
    (htarget : scatterTarget (r.owned.contains (k : Int)) (r.store.content k) source dy
      = .ok target)
    (hadd : addInto target index dy = .error f) :
    scatterStep i args r
      = .stopped (r.put (k : Int) (r.store.setAt k target)) (.fault f) := by
  obtain ⟨var, hhead, hslot⟩ := Option.map_eq_some_iff.mp hvar
  unfold scatterStep
  simp only [hargs, hhead, hslot, Fallible.ofOption, Store.get_natCast hk, htarget,
    Store.set_natCast hk, hadd, bind, Except.bind, pure, Except.pure, liftM_eq_lift,
    Fallible.lift_ok, Outcome.attempt_ok, Outcome.done_andThen, RunState.put]

/-- The state of a pass that has reset the derivative of the only node. -/
def resetState (source : Value ℚ) : RunState ℚ :=
  ⟨((Store.unset 1).setAt 0 source).setAt 1 Store.zero, [], none⟩

theorem contributions_commute_pair :
    let cs : List (Contribution ℚ) := [.sparse (.integer 0) (.real 5), .dense (pair 3 4)]
    ∃ t t', runAll (Contribution.apply 0 (pair 1 2)) cs (resetState (pair 1 2)) = .done t ∧
      runAll (Contribution.apply 0 (pair 1 2)) cs.reverse (resetState (pair 1 2)) = .done t' ∧
      t'.store = t.store := by
  intro cs
  have hvalid : ∀ c ∈ cs, c.Valid (pair 1 2) [2] := by
    refine List.forall_mem_cons.mpr ⟨?_, List.forall_mem_singleton.mpr ?_⟩
    · exact ⟨⟨_, _, _, rfl, rfl, rfl, Shape.fits_nil _⟩, .float64, rfl, rfl⟩
    · exact ⟨List.cons_ne_nil 2 [], _, rfl, rfl⟩
  have hone : ∀ c ∈ cs, c.InPrecision (pair 1 2) .float64 :=
    List.forall_mem_cons.mpr ⟨rfl, List.forall_mem_singleton.mpr ⟨_, rfl, rfl⟩⟩
  obtain ⟨-, t, t', -, ht, ht', -, -, hsame⟩ := contributions_commute (s := [2]) rfl
    hvalid (List.reverse_perm cs).symm
    (show 0 + 1 < (resetState (pair 1 2)).store.size by decide) rfl
  exact ⟨t, t', ht, ht', hsame .float64 rfl hone⟩

/-- A source without axes, and a source of integers: the same contributions complete in one
order and stop in the other. -/
theorem contributions_to_number_do_not_commute :
    (let source : Value ℚ := .array (.single .float64 3)
      let whole : Contribution ℚ := .dense (.array (.single .float64 1))
      let part : Contribution ℚ := .sparse (.tuple []) (.real 1)
      (runAll (Contribution.apply 0 source) [part, whole] (resetState source)).error = none ∧
      (runAll (Contribution.apply 0 source) [whole, part] (resetState source)).error
        = some (.fault .wrongKind)) ∧
    (let source : Value ℚ := .array ⟨.int64, .full [2] 7⟩
      let counted : Contribution ℚ := .sparse (.integer 0) (.integer 1)
      let measured : Contribution ℚ := .sparse (.integer 0) (.real 1)
      (runAll (Contribution.apply 0 source) [measured, counted] (resetState source)).error = none ∧
      (runAll (Contribution.apply 0 source) [counted, measured] (resetState source)).error
        = some (.fault .wrongKind)) := by
  refine ⟨⟨rfl, ?_⟩, rfl, rfl⟩
  -- After the array the slot holds a number, which is not the zero of the reset.
  have hzero : Store.isZeroValue (Value.scalar .float64 ((0 : ℚ) + 1)) = false := by
    refine decide_eq_false ?_
    rw [zero_add]
    exact one_ne_zero
  have htarget : scatterTarget true (Value.scalar .float64 ((0 : ℚ) + 1))
      (.array (.single .float64 3)) (.real 1) = .ok (.scalar .float64 (0 + 1)) := by
    unfold scatterTarget
    rw [hzero]
    rfl
  let r₁ : RunState ℚ := (resetState (.array (.single .float64 3))).put 1
    ((resetState (.array (.single .float64 3))).store.setAt 1 (.scalar .float64 (0 + 1)))
  have hpart : (Contribution.sparse (.tuple []) (.real 1)).apply 0 (.array (.single .float64 3)) r₁
      = .stopped _ (.fault .wrongKind) :=
    scatterStep_eq_stopped (k := 1) rfl (by decide) rfl htarget rfl
  change (((Contribution.sparse (.tuple []) (.real 1)).apply 0 (.array (.single .float64 3))
    r₁).andThen Outcome.done).error = _
  rw [hpart]
  rfl

end SlotGrad
