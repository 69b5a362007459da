import SlotGrad.Proofs.AccumulatingRuns

/-!
# Seeds that are sums

If adjoints are additive in the derivative of the output, the whole backward pass is: it is run
side by side from two seeds and from their sum, and at every time every derivative of the third
run is the sum of those of the other two.  This is true of derivatives that are still zero, it
is kept by what adjoints answer, and it is kept by sparse updates, which add a grid that is
additive in the derivative of the part.

Adjoints may be additive for derivatives of one shape only, since a number stands for any array
of its copies where an adjoint sums over broadcast axes.  So derivatives are related with or
without the demand that they have one shape.

## Main definitions

* `Sums` — three values of which the first two add up to the third.
* `AdditiveAdjoint` — an adjoint that is additive in the derivative of the output.
* `Balanced` — the relation between the runs.

## Main results

* `Streams.evaluate_related` — runs from several seeds.
* `Streams.stepKeeps_balanced` — the additions of a backward instruction keep the relation.
* `derivatives_additive` — derivatives are additive in the seed.
-/

namespace SlotGrad

/-! ### Sums -/

section

variable {F : Type} [Arith F]

/-- Three values that stand for numbers, of which the first two add up to the third.  If `uniform`,
they have one shape. -/
structure Sums [Add F] (uniform : Prop) (v : Fin 3 → Value F) : Prop where
  /-- The numbers add up. -/
  sum : (v 0).IsSum (v 1) (v 2)
  /-- The shapes are the same. -/
  shape : uniform → ∀ i, (v i).figures?.map Grid.shape = (v 0).figures?.map Grid.shape

/-- Each of the values stands for numbers. -/
theorem Sums.exists_figures [Add F] {uniform : Prop} {v : Fin 3 → Value F} (h : Sums uniform v)
    (i : Fin 3) : ∃ g, (v i).figures? = some g := by
  obtain ⟨x, y, z, hx, hy, hz, -⟩ := h.sum
  match i with
  | 0 => exact ⟨x, hx⟩
  | 1 => exact ⟨y, hy⟩
  | 2 => exact ⟨z, hz⟩

/-- What three calls of an adjoint answer for each operand adds up, or is absent in all of them. -/
def AnswersAddUp [Add F] (uniform : Prop) (out : Fin 3 → List (Value F)) : Prop :=
  ∀ q, (∀ i, taken? (out i) q = none) ∨
    ∃ v, (∀ i, taken? (out i) q = some (v i)) ∧ Sums uniform v

/-- The adjoint of a layer is additive in the derivative of the output, with the other arguments
as on a store: for derivatives that are real, and for the seeds, of whatever kind. -/
def AdditiveAdjoint [Add F] (uniform : Prop) (seed : Fin 3 → Value F) (call : Calls F)
    (nodes : List (Node F)) (t : Store F) (k : Nat) (a : Application F) : Prop :=
  ∀ (dy : Fin 3 → Value F) (out : Fin 3 → List (Value F)), Sums uniform dy →
    ((∀ i, (dy i).isFractional = true) ∨ dy = seed) →
    (∀ i, adjointAnswer call (derCountOf (slotIn nodes) a) a
      (adjointArguments (slotIn nodes) (t.setAt (valueSlot k + 1) (dy i)) k a.args) = .ok (out i)) →
    AnswersAddUp uniform out

/-- The contents of a slot in three runs of a net with a number of places: values are given
ones, the last derivative is the seed, and all derivatives add up. -/
structure Balanced [Add F] (uniform : Prop) (seed : Fin 3 → Value F) (places : Nat)
    (value : Nat → Value F) (k : Nat) (v : Fin 3 → Value F) : Prop where
  /-- Values are the same. -/
  values : k % 2 = 0 → ∀ i, v i = value k
  /-- Derivatives add up. -/
  sums : k % 2 = 1 → Sums uniform v
  /-- Derivatives are real, or they are the seeds. -/
  real : k % 2 = 1 → (∀ i, (v i).isFractional = true) ∨ k + 1 = 2 * places ∧ v = seed

theorem balanced_der [Add F] {uniform : Prop} {seed : Fin 3 → Value F} {places : Nat}
    {value : Nat → Value F} {j : Nat} {v : Fin 3 → Value F} (hv : Sums uniform v)
    (hreal : (∀ i, (v i).isFractional = true) ∨ j + 1 = places ∧ v = seed) :
    Balanced uniform seed places value (valueSlot j + 1) v := by
  refine ⟨fun heven => ?_, fun _ => hv, fun _ => hreal.imp_right fun h => ⟨?_, h.2⟩⟩
  · rw [valueSlot_succ_mod_two] at heven
    cases heven
  · unfold valueSlot
    omega

end

variable {K : Type} [Field K] [Arith K] [ExactArith K]

section

variable {uniform : Prop}

omit [ExactArith K] in
/-- Sums of grids that have one shape have one shape. -/
theorem Value.Gains.shape {h : Grid K} {x y : Value K} (hxy : x.Gains h y) :
    y.figures?.map Grid.shape
      = (x.figures?.map Grid.shape).bind fun s => Shape.broadcast? s h.shape := by
  obtain ⟨g, w, hg, hw, hy⟩ := hxy.sum
  rw [hg, hy]
  exact (Grid.zipWith?_eq_some hw).2.2.1.symm

omit [ExactArith K] in
/-- Grids that add up are added to values that do. -/
theorem Sums.gains {c u : Fin 3 → Value K} {h : Fin 3 → Grid K} (hc : Sums uniform c)
    (hu : ∀ i, (c i).Gains (h i) (u i)) (hsum : (h 0).plus? (h 1) = some (h 2))
    (hshape : uniform → ∀ i, (h i).shape = (h 0).shape) : Sums uniform u := by
  refine ⟨hc.sum.gains (hu 0) (hu 1) (hu 2) hsum, fun hone i => ?_⟩
  rw [(hu i).shape, (hu 0).shape, hc.shape hone i, hshape hone i]

theorem sums_zero : Sums uniform fun _ => (Store.zero : Value K) := by
  have hzero : (Store.zero : Value K).figures? = some (.single 0) :=
    figures?_of_isZeroValue rfl ((ExactArith.same_iff _ _).mpr rfl)
  exact ⟨⟨_, _, _, hzero, hzero, hzero, Grid.plus?_zero _⟩, fun _ _ => rfl⟩

/-- Values that add up are added in slots whose contents do. -/
theorem Sums.plus {c v u : Fin 3 → Value K} (hc : Sums uniform c)
    (hreal : ∀ i, (c i).isFractional = true) (hv : Sums uniform v)
    (hu : ∀ i, (c i).plus (v i) = .ok (u i)) :
    Sums uniform u ∧ ∀ i, (u i).isFractional = true := by
  choose g hg using hc.exists_figures
  choose h hh using hv.exists_figures
  have hgains : ∀ i, (c i).Gains (h i) (u i) := fun i =>
    Value.plus_gains (hreal i) (hg i) (hh i) (hu i)
  refine ⟨hc.gains hgains ?_ fun hone i => ?_, fun i => (hgains i).real⟩
  · obtain ⟨x, y, z, hx, hy, hz, hsum⟩ := hv.sum
    rw [hh] at hx hy hz
    cases hx
    cases hy
    cases hz
    exact hsum
  · have := hv.shape hone i
    rw [hh, hh] at this
    exact Option.some.inj this

/-- Sparse updates add up, if the derivatives of the part do. -/
theorem Sums.scatter {owned : Bool} {source index : Value K} {dy c target u : Fin 3 → Value K}
    (hc : Sums uniform c) (hreal : ∀ i, (c i).isFractional = true) (hdy : Sums uniform dy)
    (hdtype : ∀ i d, source.commonDtype (dy i) = .ok d → d.isReal = true)
    (htarget : ∀ i, scatterTarget owned (c i) source (dy i) = .ok (target i))
    (hu : ∀ i, addInto (target i) index (dy i) = .ok (u i)) :
    Sums uniform u ∧ ∀ i, (u i).isFractional = true := by
  choose g hg using hc.exists_figures
  have hall : ∀ i, ∃ h, sparseAddend source index (dy i) = .ok h ∧ (c i).Gains h (u i) := fun i =>
    scatter_gains (hreal i) (hg i) (fun _ => hdtype i) (htarget i) (hu i)
  choose h hh hgains using hall
  refine ⟨hc.gains hgains (sparseAddend_plus? hdy.sum (hh 0) (hh 1) (hh 2)) fun _ i => ?_,
    fun i => (hgains i).real⟩
  have hi := shape_sparseAddend (hh i)
  rw [shape_sparseAddend (hh 0)] at hi
  exact (Except.ok.inj hi).symm

end

/-! ### Backward passes -/

section

variable {nodes : List (Node K)} {layers : List (Placed K)} {net : CompiledNet K} {call : Calls K}
  {uniform : Prop} {seed : Fin 3 → Value K}

/-- Indexing layers have a source that is a node, and an index. -/
def IndexesNodes {F : Type} (nodes : List (Node F)) : Prop :=
  ∀ k a, (k, a) ∈ layersOf nodes → a.op.scatter = true → ∃ h index, a.args = [.node h, index]

omit [Field K] [ExactArith K] in
/-- A text cannot be added at an index. -/
theorem addInto_text (target index : Value K) (x : String) (v : Value K) :
    addInto target index (.text x) ≠ .ok v := by
  intro h
  unfold addInto at h
  cases target with
  | array t =>
    obtain ⟨u, hu, -⟩ := bind_eq_ok.mp h
    unfold Tensor.addAtIndex at hu
    obtain ⟨ps, -, hu⟩ := bind_eq_ok.mp hu
    obtain ⟨sel, -, hu⟩ := bind_eq_ok.mp hu
    cases hu
  | _ => cases h

omit [Field K] [Arith K] [ExactArith K] in
/-- An indexing layer's sparse update adds the derivative of its output, unless that is put in
before an index that is a text. -/
theorem scatterArguments_pair {slotOf : Handle → Option Nat} {s : Store K} {place : Nat}
    {h : Handle} {index a b c : Value K}
    (habc : scatterArguments (adjointArguments slotOf s place [.node h, index]) = .ok (a, b, c)) :
    (∃ x, c = .text x) ∨
      a = s.argument slotOf (.node h) ∧ b = s.argument slotOf index ∧
        c = s.content (valueSlot place + 1) := by
  unfold adjointArguments seedPlace at habc
  cases hindex : index.isText with
  | true =>
    obtain ⟨x, rfl⟩ : ∃ x, index = .text x := by
      cases index <;> first | exact ⟨_, rfl⟩ | cases hindex
    cases habc
    exact .inl ⟨x, rfl⟩
  | false =>
    have hplace : [Value.node h, index].findIdx Value.isText = 2 := by
      have hnode : (Value.node h : Value K).isText = false := rfl
      simp [List.findIdx_cons, hnode, hindex]
    rw [hplace] at habc
    cases habc
    exact .inr ⟨rfl, rfl, rfl⟩

/-- **The additions of a backward instruction keep sums**, if adjoints are additive. -/
theorem Streams.stepKeeps_balanced (h : Streams nodes layers net) (ho : Ordered nodes)
    (hindex : IndexesNodes nodes) {t : Fin 3 → Store K}
    (hsizes : ∀ i, (t i).size = 2 * nodes.length)
    (hadd : ∀ k a, (k, a) ∈ layersOf nodes → a.op.scatter = false →
      AdditiveAdjoint uniform seed call nodes (t 0) k a)
    (hreal : ∀ i, RealUpdates nodes (fun _ => True) (t i)) {p : Placed K} (hp : p ∈ layers)
    {s : Fin 3 → Store K} (hsize : ∀ i, (s i).size = 2 * nodes.length)
    (hs : ∀ k, k < 2 * nodes.length →
      Balanced uniform seed nodes.length (t 0).content k fun i => (s i).content k)
    (hargs : ∀ i, adjointArguments (slotIn nodes) (s i) p.place p.layer.args
      = adjointArguments (slotIn nodes) (t i) p.place p.layer.args) :
    StepKeeps (Balanced uniform seed nodes.length (t 0).content) call (slotIn nodes) p s := by
  have hw := h.wellPlaced ho
  have hlayer := h.mem_layersOf hp
  have hplace := hw.inStore p hp
  have hvalues : ∀ i k, k % 2 = 0 → (s i).content k = (t 0).content k := by
    intro i k hk
    by_cases hlt : k < 2 * nodes.length
    · exact (hs k hlt).values hk i
    · rw [Store.content_of_le (by rw [hsize]; omega), Store.content_of_le (by rw [hsizes]; omega)]
  have hdy : Sums uniform fun i => (s i).content (valueSlot p.place + 1) :=
    (hs _ hplace).sums (valueSlot_succ_mod_two _)
  have hown : (∀ i, ((s i).content (valueSlot p.place + 1)).isFractional = true) ∨
      (fun i => (s i).content (valueSlot p.place + 1)) = seed :=
    ((hs _ hplace).real (valueSlot_succ_mod_two _)).imp_right And.right
  -- What is added to has a smaller place, so it is no seed.
  have hbefore : ∀ {j}, j < p.place → ∀ {c : Fin 3 → Value K},
      Balanced uniform seed nodes.length (t 0).content (valueSlot j + 1) c →
        ∀ i, (c i).isFractional = true := by
    intro j hj c hc
    refine (hc.real (valueSlot_succ_mod_two j)).resolve_right fun hlast => ?_
    have := valueSlot_lt_valueSlot.mpr hj
    omega
  constructor
  · intro hscatter out hout j q hjq
    have hj := hw.operand_lt hp hjq
    -- The three runs call the adjoint on the same values, and differ in the derivative of the
    -- output alone.
    have hcalls : ∀ i, adjointAnswer call (derCountOf (slotIn nodes) p.layer) p.layer
        (adjointArguments (slotIn nodes) ((t 0).setAt (valueSlot p.place + 1)
          ((s i).content (valueSlot p.place + 1))) p.place p.layer.args) = .ok (out i) := by
      intro i
      rw [← hout i, hw.adjointArguments_eq hp (fun k hk => ?_) ?_]
      · exact Store.content_setAt_self (by rw [hsizes]; exact hplace) _
      · rw [Store.content_setAt_of_ne _ (ne_valueSlot_succ hk p.place), hvalues i k hk]
    rcases hadd p.place p.layer hlayer hscatter _ out hdy hown hcalls q with hnone | ⟨v, hv, hsums⟩
    · exact .inl hnone
    · refine .inr ⟨v, hv, fun c u hc hu => ?_⟩
      obtain ⟨husums, hureal⟩ := (hc.sums (valueSlot_succ_mod_two j)).plus (hbefore hj hc) hsums hu
      exact balanced_der husums (.inl hureal)
  · intro hscatter m rest j hm hslot owned source index dy c target u hthree hc htarget hu
    obtain ⟨j', hj, hslot'⟩ := hw.earlier p hp m (by rw [hm]; exact List.mem_cons_self ..)
    obtain rfl := valueSlot_inj.mp (Option.some.inj (hslot.symm.trans hslot'))
    obtain ⟨m', i₀, hpair⟩ := hindex p.place p.layer hlayer hscatter
    rw [hpair] at hthree
    have hthree' : ∀ i, source i = (t 0).argument (slotIn nodes) (.node m') ∧
        index i = (t 0).argument (slotIn nodes) i₀ ∧
          dy i = (s i).content (valueSlot p.place + 1) := by
      intro i
      rcases scatterArguments_pair (hthree i) with ⟨x, hx⟩ | ⟨hsource, hi, hdy⟩
      -- Nothing can be added before a text.
      · have htext := hu i
        rw [hx] at htext
        exact (addInto_text _ _ _ _ htext).elim
      · have hboth := hw.argument_eq hp (s := t 0) (t := s i) fun j _ =>
          hvalues i _ (valueSlot_mod_two j)
        rw [hpair] at hboth
        simp only [List.map_cons, List.map_nil, List.cons.injEq, and_true] at hboth
        exact ⟨hsource.trans hboth.1, hi.trans hboth.2, hdy⟩
    -- The update is of real numbers, so no addition is cut to integers.
    have hdtype : ∀ i d, ((t 0).argument (slotIn nodes) (.node m')).commonDtype
        ((s i).content (valueSlot p.place + 1)) = .ok d → d.isReal = true := by
      intro i d hd
      refine hreal i p.place p.layer m rest j (source i) (index i) (dy i) d hlayer hscatter hm hslot
        trivial ?_ ?_
      · rw [← hargs i, hpair]
        exact hthree i
      · rw [(hthree' i).1, (hthree' i).2.2]
        exact hd
    obtain ⟨husums, hureal⟩ := (hc.sums (valueSlot_succ_mod_two j)).scatter
      (hbefore hj hc) hdy hdtype (fun i => (hthree' i).1 ▸ (hthree' i).2.2 ▸ htarget i)
      (fun i => (hthree' i).2.1 ▸ (hthree' i).2.2 ▸ hu i)
    exact balanced_der husums (.inl hureal)

end

/-- **Runs from several seeds stay related.**  Evaluations of a net from one store complete,
each with its own seed.  They leave the same values.  A relation between the contents of slots
that holds of given values, of the seeds and of zero, and that the additions of every backward
instruction keep, holds of what they leave. -/
theorem Streams.evaluate_related {F ι : Type} [Arith F] {nodes : List (Node F)}
    {layers : List (Placed F)} {net : CompiledNet F} (h : Streams nodes layers net)
    (ho : Ordered nodes) (hne : nodes ≠ []) (hsource : ∀ p ∈ layers, p.layer.op.scatter = true →
      ∃ m rest, p.layer.args = .node m :: rest) {call : Calls F} {seed : ι → Value F}
        {r : RunState F}
    (hkept : ∀ i slot, slot ∈ keptSlots net ⟨seed i, false⟩ ↔
      false = true ∧ ∃ k, (nodes[k]?).map Node.kind = some .param ∧
        slot = ((valueSlot k + 1 : Nat) : Int))
    (hdone : ∀ i, (evaluate call net .normal ⟨seed i, false⟩ r).error = none) {t : ι → Store F}
    (ht : ∀ i, (evaluate call net .normal ⟨seed i, false⟩ r).state.store = t i) (i₀ : ι)
    {C : Nat → (ι → Value F) → Prop}
    (hvalue : ∀ k v, k % 2 = 0 → (∀ i, v i = (t i₀).content k) → C k v)
    (hseed : ∀ j, j + 1 = nodes.length → C (valueSlot j + 1) seed)
    (hzero : ∀ j, j + 1 < nodes.length → C (valueSlot j + 1) fun _ => Store.zero)
    (hstep : (∀ i, (t i).size = 2 * nodes.length) →
      (∀ i k, k % 2 = 0 → (t i).content k = (t i₀).content k) →
      ∀ p ∈ layers, ∀ s : ι → Store F, (∀ i, (s i).size = 2 * nodes.length) →
        (∀ k, k < 2 * nodes.length → C k fun i => (s i).content k) →
        (∀ i, adjointArguments (slotIn nodes) (s i) p.place p.layer.args
          = adjointArguments (slotIn nodes) (t i) p.place p.layer.args) →
        StepKeeps C call (slotIn nodes) p s) :
    (∀ i k, k % 2 = 0 → (t i).content k = (t i₀).content k) ∧
      ∀ k, k < 2 * nodes.length → C k fun i => (t i).content k := by
  have hw := h.wellPlaced ho
  have hall := fun i => h.evaluate_completed (hdone i)
  have hcontent := fun i => h.seededRun_content (o := ⟨seed i, false⟩) ho hne call
    (hkept i) (hall i).1 (hall i).2.2.1
  have hstream := forall₂_zipIdx_map (backwardOf (slotIn nodes)) layers.reverse 0
  have hmem : ∀ p ∈ layers.reverse, p ∈ layers := fun p hp => List.mem_reverse.mp hp
  have hsource' : ∀ p ∈ layers.reverse, p.layer.op.scatter = true →
      ∃ m rest, p.layer.args = .node m :: rest := fun p hp => hsource p (hmem p hp)
  have hfinal : ∀ i, t i = (runAll (backwardStep call)
      (layers.reverse.map (backwardOf (slotIn nodes))).zipIdx
      (seededRun call net ⟨seed i, false⟩ r)).state.store := by
    intro i
    rw [← ht i, (hall i).2.2.2, h.backward]
  -- The backward stream leaves the values that the runs are seeded with, and these are the same.
  have hleft : ∀ i k, k % 2 = 0 →
      (t i).content k = (seededRun call net ⟨seed i, false⟩ r).store.content k := by
    intro i k hk
    rw [hfinal i]
    exact (hw.backward_frame hstream hmem hsource' call (.inl hk) _).2
  have hsame : ∀ i j k, k % 2 = 0 → (seededRun call net ⟨seed i, false⟩ r).store.content k
      = (seededRun call net ⟨seed j, false⟩ r).store.content k := fun i j k hk =>
    h.seededRun_agree ho (hall i).1 (hall i).1 rfl (fun _ _ _ _ => rfl) (hall i).2.2.1 hk
  have hvalues : ∀ i k, k % 2 = 0 → (t i).content k = (t i₀).content k := fun i k hk => by
    rw [hleft i k hk, hleft i₀ k hk, hsame i i₀ k hk]
  have hsizes : ∀ i, (t i).size = 2 * nodes.length := by
    intro i
    rw [hfinal i, (hw.backward_frame hstream hmem hsource' call (.inl (Nat.zero_mod 2)) _).1]
    exact (hcontent i).1
  have hseeded : Related C (2 * nodes.length) fun i => seededRun call net ⟨seed i, false⟩ r := by
    refine ⟨fun i => (hcontent i).1, fun _ _ _ => Iff.rfl, fun k hk => ?_⟩
    -- The passes start from equal values, and from derivatives that differ in the seed only.
    rcases Nat.mod_two_eq_zero_or_one k with heven | hodd
    · refine hvalue k _ heven fun i => ?_
      rw [hleft i₀ k heven]
      exact hsame i i₀ k heven
    · obtain ⟨j, rfl⟩ := exists_valueSlot_succ hodd
      have hj := valueSlot_succ_lt.mp hk
      rw [show (fun i => (seededRun call net ⟨seed i, false⟩ r).store.content (valueSlot j + 1))
        = fun i => if j + 1 = nodes.length then seed i else Store.zero from funext fun i => by
          rw [(hcontent i).2.2 j hj]
          unfold startAt
          rw [if_neg (c := false = true ∧ _) (by simp)]]
      by_cases hroot : j + 1 = nodes.length
      · simp only [if_pos hroot]
        exact hseed j hroot
      · simp only [if_neg hroot]
        exact hzero j (by omega)
  have hrelated := backward_related hw call hstream hmem hsource'
    (List.pairwise_reverse.mpr hw.increasing)
    hseeded (fun i => ?_) fun p hp s hsize hs hargs => ?_
  · refine ⟨hvalues, fun k hk => ?_⟩
    rw [show (fun i => (t i).content k) = fun i => _ from funext fun i => by rw [hfinal i]]
    exact hrelated.contents k hk
  · have hi := hdone i
    rw [(hall i).2.2.2, h.backward] at hi
    exact hi
  · refine hstep hsizes hvalues p (hmem p hp) s hsize hs fun i => ?_
    rw [hfinal i]
    exact hargs i

/-- **Derivatives are additive in the seed.**  Let the adjoints of a net be additive in the
derivative of the output.  If evaluations from one store complete with two seeds and with their
sum, they leave the same values, and every derivative that the third one leaves is the sum of
those that the other two leave. -/
theorem derivatives_additive [Interchange K] {checks : Checks K} {known : Node K → Bool}
    {nodes : List (Node K)} {roots : Option (List Handle)} {options : Options K} {c : Compilation K}
    (hc : compileNodes checks known nodes roots options = .ok c) (ho : Ordered nodes)
    (hindex : IndexesNodes nodes) (call : Calls K) {uniform : Prop} {seed : Fin 3 → Value K}
    (hseed : Sums uniform seed) (r : RunState K)
    (hdone : ∀ i, (evaluate call c.net .normal ⟨seed i, false⟩ r).error = none)
    {t : Fin 3 → Store K}
    (ht : ∀ i, (evaluate call c.net .normal ⟨seed i, false⟩ r).state.store = t i)
    (hadd : ∀ k a, (k, a) ∈ layersOf nodes → a.op.scatter = false →
      AdditiveAdjoint uniform seed call nodes (t 0) k a)
    (hreal : ∀ i, RealUpdates nodes (fun _ => True) (t i)) :
    (∀ i k, k % 2 = 0 → (t i).content k = (t 0).content k) ∧
      ∀ k, k < nodes.length → ((t 0).content (valueSlot k + 1)).IsSum
        ((t 1).content (valueSlot k + 1)) ((t 2).content (valueSlot k + 1)) := by
  obtain ⟨hne, names, heads, hlen, hnet⟩ := compileNodes_assembled hc
  have h := assemble_streams hlen hnet
  have hsource : ∀ p ∈ placedLayers nodes names, p.layer.op.scatter = true →
      ∃ m rest, p.layer.args = .node m :: rest := by
    intro p hp hscatter
    obtain ⟨m, i, hpair⟩ := hindex _ _ (h.mem_layersOf hp) hscatter
    exact ⟨m, [i], hpair⟩
  obtain ⟨hvalues, hrelated⟩ := h.evaluate_related
    (C := Balanced uniform seed nodes.length (t 0).content) ho hne hsource
    (fun _ _ => mem_keptSlots hlen hnet) hdone ht 0
    (fun k v heven hv => ⟨fun _ => hv, fun hodd => by omega, fun hodd => by omega⟩)
    (fun j hj => balanced_der hseed (.inr ⟨hj, rfl⟩))
    (fun j _ => balanced_der sums_zero (.inl fun _ => rfl))
    fun hsizes _ p hp s hsize hs hargs =>
      h.stepKeeps_balanced ho hindex hsizes hadd hreal hp hsize hs hargs
  refine ⟨hvalues, fun k hk => ?_⟩
  exact ((hrelated _ (valueSlot_succ_lt.mpr hk)).sums (valueSlot_succ_mod_two k)).sum

/-- A value that stands for numbers is a single result. -/
theorem resultsOf_of_figures? {F : Type} [Arith F] {v : Value F} {g : Grid F}
    (h : v.figures? = some g) : resultsOf v = [v] := by
  cases v <;> first | rfl | cases h

/-- A parameter, its first element, and that element passed on. -/
def passedElement : List (Node ℚ) :=
  [⟨0, bareLabel, .param ⟨pair 1 2, .none, .none, .gradient⟩⟩,
    ⟨1, bareLabel, .layer ⟨Builtin.slice.op, [.node ⟨0, .param, ""⟩, .integer 0], [], .same, .same,
      [], none⟩⟩,
    ⟨2, bareLabel, .layer ⟨Builtin.deal.op, [.node ⟨1, .layer, ""⟩], [], .same, .same, [], none⟩⟩]

/-- The seeds one, two and three. -/
def countingSeeds : Fin 3 → Value ℚ
  | 0 => .real 1
  | 1 => .real 2
  | 2 => .real 3

theorem sums_countingSeeds : Sums True countingSeeds := by
  refine ⟨⟨.single 1, .single 2, .single (1 + 2), rfl, rfl, ?_, rfl⟩, fun _ i => ?_⟩
  · exact congrArg (some ∘ Grid.single) (show (3 : ℚ) = 1 + 2 by decide +kernel)
  · match i with
    | 0 => rfl
    | 1 => rfl
    | 2 => rfl

/-- The layer that passes the element on passes its derivative back. -/
theorem additiveAdjoint_passedElement {t : Store ℚ} (ht : t.size = 6) {k : Nat} {a : Application ℚ}
    (hL : (k, a) ∈ layersOf passedElement) (hscatter : a.op.scatter = false) :
    AdditiveAdjoint True countingSeeds builtinCalls passedElement t k a := by
  rcases List.mem_cons.mp hL with heq | hL
  · cases heq
    cases hscatter
  cases List.mem_singleton.mp hL
  intro dy out hdy _ hout q
  have hone : ∀ i, out i = [dy i] ∧ (dy i).isNone = false := by
    intro i
    obtain ⟨g, hg⟩ := hdy.exists_figures i
    have hi : Except.ok ((resultsOf ((t.setAt (valueSlot 2 + 1) (dy i)).content
        (valueSlot 2 + 1))).take 1) = (Except.ok (out i) : Attempt (List (Value ℚ))) := hout i
    rw [Store.content_setAt_self (by rw [ht]; decide), resultsOf_of_figures? hg] at hi
    exact ⟨(Except.ok.inj hi).symm, Value.isNone_of_figures? hg⟩
  rcases q with _ | q
  · exact .inr ⟨dy, fun i => by simp [(hone i).1, (hone i).2, taken?], hdy⟩
  · exact .inl fun i => by simp [(hone i).1, taken?]

theorem derivatives_additive_passed_element :
    ∃ c, compileNodes [] (fun _ => true) passedElement none plainOptions = .ok c ∧
      (∀ i, (evaluate builtinCalls c.net .normal ⟨countingSeeds i, false⟩
        ⟨c.store, [], none⟩).error = none) ∧
      ∀ k, k < 3 → ((evaluate builtinCalls c.net .normal ⟨countingSeeds 0, false⟩
          ⟨c.store, [], none⟩).state.store.content (valueSlot k + 1)).IsSum
        ((evaluate builtinCalls c.net .normal ⟨countingSeeds 1, false⟩
          ⟨c.store, [], none⟩).state.store.content (valueSlot k + 1))
        ((evaluate builtinCalls c.net .normal ⟨countingSeeds 2, false⟩
          ⟨c.store, [], none⟩).state.store.content (valueSlot k + 1)) := by
  obtain ⟨c, hc⟩ := exists_of_isOk
    (show (compileNodes [] (fun _ => true) passedElement none plainOptions).isOk = true from rfl)
  have ho : Ordered passedElement := ⟨by decide, violations_eq_nil_iff.mp rfl⟩
  have hindex : IndexesNodes passedElement := by
    intro k a hL hscatter
    rcases List.mem_cons.mp hL with heq | hL
    · cases heq
      exact ⟨_, _, rfl⟩
    cases List.mem_singleton.mp hL
    cases hscatter
  have hdone : ∀ i, (evaluate builtinCalls c.net .normal ⟨countingSeeds i, false⟩
      ⟨c.store, [], none⟩).error = none := by
    cases hc
    decide +kernel
  refine ⟨c, hc, hdone,
    (derivatives_additive hc ho hindex builtinCalls sums_countingSeeds _ hdone
    (fun _ => rfl) (fun k a => additiveAdjoint_passedElement ?_) fun i => ?_).2⟩
  · cases hc
    decide +kernel
  · have hnumbers : ∀ i, (layersOf passedElement).all (addsNumbers builtinCalls passedElement
        (evaluate builtinCalls c.net .normal ⟨countingSeeds i, false⟩
          ⟨c.store, [], none⟩).state.store) = true := by
      cases hc
      decide +kernel
    exact realUpdates_of_addsNumbers (hnumbers i) _

end SlotGrad
