import SlotGrad.Proofs.BoundInputs
import SlotGrad.Proofs.DerivativeSums
import SlotGrad.Proofs.ParallelRuns

/-!
# Accumulating runs

Derivatives of parameters can be summed over several evaluations, each with other values bound
to the inputs: the first evaluation resets them and the others add to what is there.  An
accumulating run and a plain run on the same values are run side by side.  They call the same
adjoints with the same arguments, since no adjoint is called with the derivative of a parameter;
so what the accumulating run has in a parameter's derivative is always what the plain run has
there and what was there before.

## Main definitions

* `CompiledNet.boundRun` — bind all inputs and evaluate in normal mode.
* `RealParams` — what is added into derivatives of parameters are real numbers.
* `Carried` — the relation between a plain run and an accumulating one.
* `SumsUp` — what several runs leave.

## Main results

* `Streams.accumulating_run` — an accumulating run next to a plain one.
* `accumulating_runs_sum` — a plain run and accumulating ones leave sums in the derivatives of
  parameters, and everything else as the last of them does alone.
-/

namespace SlotGrad

variable {F : Type}

/-! ### Binding inputs -/

section

variable [Arith F]

/-- What a binding of all inputs writes. -/
def CompiledNet.inputValues (c : CompiledNet F) (b : String → Value F) : List (Int × Value F) :=
  c.inputs.map fun p => ((c.inputs.lookup p.1).getD p.2, b p.1)

/-- Bind all inputs by name and evaluate in normal mode. -/
def CompiledNet.boundRun [Interchange F] (c : CompiledNet F) (call : Calls F) (o : EvalOptions F)
    (b : String → Value F) (s : Store F) : Outcome (Store F) :=
  (c.setInputs (alternating (c.inputs.map fun p => (p.1, b p.1))) [] s).andThen fun s =>
    (evaluate call c .normal o ⟨s, [], none⟩).map RunState.store

/-- Each input has a slot, so that all of them can be bound. -/
theorem CompiledNet.setInputs_all [Interchange F] (c : CompiledNet F) (b : String → Value F)
    (s : Store F) :
    c.setInputs (alternating (c.inputs.map fun p => (p.1, b p.1))) [] s
      = s.writeAll (c.inputValues b) := by
  have hknown : ∀ p ∈ c.inputs, (c.inputs.lookup p.1).isSome := fun p hp =>
    lookup_isSome_iff.mpr ⟨p.2, hp⟩
  obtain ⟨-, hset⟩ := (c.setInputs_all_or_nothing
    (alternating (c.inputs.map fun p => (p.1, b p.1))) [] s).2 (by simp) |>.2 _ rfl
  have hgiven : ∀ p ∈ (c.inputs.map fun p => (p.1, b p.1)) ++ [], (c.inputs.lookup p.1).isSome := by
    rw [List.append_nil]
    exact List.forall_mem_map.mpr hknown
  rw [hset hgiven, List.append_nil, List.map_map]
  unfold inputValues
  refine congrArg s.writeAll (List.map_congr_left fun p hp => ?_)
  obtain ⟨slot, hslot⟩ := Option.isSome_iff_exists.mp (hknown p hp)
  simp [slotNamed, hslot]

omit [Arith F] in
/-- A completed binding leaves a slot that it does not write as it was. -/
theorem Store.writeAll_frame {ws : List (Int × Value F)}
    (hslots : ∀ p ∈ ws, ∃ n : Nat, p.1 = (n : Int)) {k : Nat} (hk : ∀ p ∈ ws, p.1 ≠ (k : Int))
    (s : Store F) : SameAt k s (s.writeAll ws).state := by
  unfold writeAll
  apply runAll_invariant (P := SameAt k s) _ _ _ (SameAt.refl k s)
  intro p hp t ht
  obtain ⟨n, hn⟩ := hslots p hp
  refine ht.trans (Outcome.attempt_state (SameAt.refl k t) fun u hu => ?_)
  refine SameAt.of_set (lift_eq_ok.mp hu) ?_
  rw [hn]
  refine locate?_ne_of_ne fun hnk => hk p hp ?_
  rw [hn, hnk]

omit [Arith F] in
/-- Stores that agree on a slot, or of which the slot is written, agree on it after a binding. -/
theorem Store.writeAll_agree {k : Nat} :
    ∀ {ws : List (Int × Value F)} {s t : Store F}, (∀ p ∈ ws, ∃ n : Nat, p.1 = (n : Int)) →
      t.size = s.size → (t.content k = s.content k ∨ ∃ p ∈ ws, p.1 = (k : Int)) →
      (s.writeAll ws).error = none → (t.writeAll ws).error = none →
        (t.writeAll ws).state.content k = (s.writeAll ws).state.content k := by
  intro ws
  induction ws with
  | nil =>
    intro s t _ _ hk _ _
    exact hk.resolve_right fun ⟨p, hp, _⟩ => by cases hp
  | cons p ws ih =>
    intro s t hslots hsize hk hs ht
    obtain ⟨n, hn⟩ := hslots p (List.mem_cons_self ..)
    unfold writeAll at hs ht ⊢
    obtain ⟨hs₁, hs₂⟩ := runAll_cons_completed.mp hs
    obtain ⟨ht₁, ht₂⟩ := runAll_cons_completed.mp ht
    rw [runAll_cons, runAll_cons, Outcome.andThen_state _ hs₁, Outcome.andThen_state _ ht₁]
    have hwrite : ∀ {u : Store F}, (write p.1 p.2 u).error = none →
        n < u.size ∧ (write p.1 p.2 u).state = u.setAt n p.2 := by
      intro u hu
      have hu := lift_eq_ok.mp (Outcome.attempt_completed.mp hu)
      rw [hn] at hu
      obtain ⟨hlt, h⟩ := Store.set_natCast_eq_ok.mp hu
      exact ⟨hlt, by rw [hn]; exact h.symm⟩
    obtain ⟨hlt, hs'⟩ := hwrite hs₁
    obtain ⟨hlt', ht'⟩ := hwrite ht₁
    rw [hs'] at hs₂ ⊢
    rw [ht'] at ht₂ ⊢
    refine ih (fun q hq => hslots q (List.mem_cons_of_mem _ hq)) (by simpa using hsize) ?_ hs₂ ht₂
    -- After the first write the stores agree on the slot written.
    by_cases hkn : k = n
    · left
      rw [hkn, content_setAt_self hlt, content_setAt_self hlt']
    · rw [content_setAt_of_ne _ hkn, content_setAt_of_ne _ hkn]
      refine hk.imp_right ?_
      rintro ⟨q, hq, hqk⟩
      rcases List.mem_cons.mp hq with rfl | hq
      · rw [hn] at hqk
        omega
      · exact ⟨q, hq, hqk⟩

section

variable {known : Node F → Bool} {nodes : List (Node F)} {names : List String} {roots : List Handle}
  {options : Options F} {net : CompiledNet F}

omit [Arith F] in
/-- A binding writes value slots. -/
theorem exists_of_mem_inputValues (h : assemble known nodes names roots options = .ok net)
    {b : String → Value F} {w : Int × Value F} (hw : w ∈ net.inputValues b) :
    ∃ k, w.1 = ((valueSlot k : Nat) : Int) := by
  have hinput : ∀ q ∈ net.inputs, ∃ k, q.2 = ((valueSlot k : Nat) : Int) := by
    intro q hq
    rw [(assemble_registries h).1] at hq
    obtain ⟨k, -, -, -, -, hslot⟩ := mem_inputSlots.mp hq
    exact ⟨k, hslot⟩
  obtain ⟨q, hq, rfl⟩ := List.mem_map.mp hw
  dsimp only
  cases hlookup : net.inputs.lookup q.1 with
  | none => exact hinput q hq
  | some slot => exact hinput (q.1, slot) (mem_of_lookup hlookup)

end

omit [Arith F] in
/-- Which slots a binding writes does not depend on the values. -/
theorem CompiledNet.exists_inputValues {c : CompiledNet F} {b : String → Value F} {slot : Int}
    (h : ∃ w ∈ c.inputValues b, w.1 = slot) (b' : String → Value F) :
    ∃ w ∈ c.inputValues b', w.1 = slot := by
  obtain ⟨w, hw, hslot⟩ := h
  obtain ⟨q, hq, rfl⟩ := List.mem_map.mp hw
  exact ⟨_, List.mem_map.mpr ⟨q, hq, rfl⟩, hslot⟩

/-- A completed run on bound inputs is a completed binding and a completed evaluation. -/
theorem CompiledNet.boundRun_completed [Interchange F] {c : CompiledNet F} {call : Calls F}
    {o : EvalOptions F} {b : String → Value F} {s : Store F}
    (h : (c.boundRun call o b s).error = none) :
    (s.writeAll (c.inputValues b)).error = none ∧
      (evaluate call c .normal o ⟨(s.writeAll (c.inputValues b)).state, [], none⟩).error = none ∧
      (c.boundRun call o b s).state = (evaluate call c .normal o
        ⟨(s.writeAll (c.inputValues b)).state, [], none⟩).state.store := by
  unfold boundRun at h ⊢
  rw [setInputs_all] at h ⊢
  obtain ⟨hbound, hdone⟩ := Outcome.andThen_completed.mp h
  exact ⟨hbound, hdone, by rw [Outcome.andThen_state _ hbound]; rfl⟩

end

/-! ### An accumulating run next to a plain one -/

/-- The node at a place is a parameter. -/
def IsParam (nodes : List (Node F)) (j : Nat) : Prop := (nodes[j]?).map Node.kind = some .param

/-- What is added into derivatives of parameters, from the calls of adjoints on a store, are real
numbers or arrays of numbers. -/
structure RealParams [Arith F] (call : Calls F) (nodes : List (Node F)) (t : Store F) : Prop where
  /-- What an adjoint answers for a parameter stands for numbers. -/
  answers : ∀ k a out, (k, a) ∈ layersOf nodes → a.op.scatter = false →
    adjointAnswer call (derCountOf (slotIn nodes) a) a
      (adjointArguments (slotIn nodes) t k a.args) = .ok out →
    ∀ j q : Nat, (((valueSlot j : Nat) : Int), (q : Int)) ∈ adjointOperands (slotIn nodes) a.args →
      IsParam nodes j → ∀ v, taken? out q = some v → v.figures?.isSome
  /-- A sparse update of a parameter makes real arrays. -/
  updates : RealUpdates nodes (IsParam nodes) t

section

variable [Arith F]

/-- The contents of a slot in a plain run and in an accumulating one: in a parameter's
derivative the second is the sum of what was kept and the first, and in any other slot they are
the same. -/
structure Carried [Add F] (nodes : List (Node F)) (kept : Nat → Value F) (k : Nat)
    (v : Bool → Value F) : Prop where
  /-- Slots other than derivatives of parameters hold the same. -/
  same : (∀ j, IsParam nodes j → k ≠ valueSlot j + 1) → v true = v false
  /-- The derivatives of parameters are real. -/
  real : ∀ j, IsParam nodes j → k = valueSlot j + 1 →
    (kept j).isFractional = true ∧ ∀ i, (v i).isFractional = true
  /-- Those of the accumulating run are sums. -/
  sum : ∀ j, IsParam nodes j → k = valueSlot j + 1 → (kept j).IsSum (v false) (v true)

variable [Add F] {nodes : List (Node F)} {kept : Nat → Value F}

omit [Arith F] [Add F] in
theorem isParam_of_slot_eq {j n : Nat} (h : valueSlot j + 1 = valueSlot n + 1)
    (hn : IsParam nodes n) :
    IsParam nodes j := by
  obtain rfl : j = n := by simpa using h
  exact hn

omit [Add F] in
/-- A derivative that is no parameter's starts from the seed or from zero. -/
theorem startAt_of_not_isParam {j : Nat} (hj : ¬ IsParam nodes j) {o : EvalOptions F}
    {s : Store F} :
    startAt nodes o s j = if j + 1 = nodes.length then o.seed else Store.zero := by
  have hreset : ¬ (o.accumulate = true ∧ (nodes[j]?).map Node.kind = some .param) := fun h => hj h.2
  unfold startAt
  rw [if_neg hreset]

/-- In a derivative that is no parameter's, the runs have the same. -/
theorem carried_iff_same {j : Nat} (hj : ¬ IsParam nodes j) {v : Bool → Value F} :
    Carried nodes kept (valueSlot j + 1) v ↔ v true = v false := by
  constructor
  · intro h
    exact h.same fun n hn heq => hj (isParam_of_slot_eq heq hn)
  · intro h
    exact ⟨fun _ => h, fun n hn heq => absurd (isParam_of_slot_eq heq hn) hj,
      fun n hn heq => absurd (isParam_of_slot_eq heq hn) hj⟩

/-- In a parameter's derivative the accumulating run has a sum. -/
theorem carried_iff_isSum {j : Nat} (hj : IsParam nodes j) {v : Bool → Value F} :
    Carried nodes kept (valueSlot j + 1) v ↔ (kept j).isFractional = true ∧
      (∀ i, (v i).isFractional = true) ∧ (kept j).IsSum (v false) (v true) := by
  constructor
  · intro h
    exact ⟨(h.real j hj rfl).1, (h.real j hj rfl).2, h.sum j hj rfl⟩
  · rintro ⟨hkept, hreal, hsum⟩
    refine ⟨fun hne => absurd rfl (hne j hj), fun n _ heq => ?_, fun n _ heq => ?_⟩
    all_goals
      obtain rfl : j = n := by simpa using heq
    · exact ⟨hkept, hreal⟩
    · exact hsum

end

variable {K : Type} [Field K] [Arith K] [ExactArith K]

section

variable {nodes : List (Node K)} {layers : List (Placed K)} {net : CompiledNet K} {call : Calls K}
  {kept : Nat → Value K}

omit [ExactArith K] in
/-- If the same is added in both runs, what they carry stays so. -/
theorem Carried.gains {j : Nat} {c u : Bool → Value K} {h : Grid K} (hj : IsParam nodes j)
    (hc : Carried nodes kept (valueSlot j + 1) c) (hu : ∀ i, (c i).Gains h (u i)) :
    Carried nodes kept (valueSlot j + 1) u := by
  obtain ⟨hkept, -, hsum⟩ := (carried_iff_isSum hj).mp hc
  exact (carried_iff_isSum hj).mpr
    ⟨hkept, fun i => (hu i).real, hsum.gains_same hkept (hu false) (hu true)⟩

omit [ExactArith K] in
/-- What runs carry in a parameter's derivative stands for numbers. -/
theorem Carried.exists_figures {j : Nat} {c : Bool → Value K} (hj : IsParam nodes j)
    (hc : Carried nodes kept (valueSlot j + 1) c) (i : Bool) : ∃ g, (c i).figures? = some g := by
  obtain ⟨-, -, -, g, w, -, hg, hw, -⟩ := (carried_iff_isSum hj).mp hc
  cases i with
  | false => exact ⟨g, hg⟩
  | true => exact ⟨w, hw⟩

/-- The additions of a backward instruction keep what the runs carry. -/
theorem Streams.stepKeeps_carried (h : Streams nodes layers net) (ho : Ordered nodes)
    {t : Store K} (hreal : RealParams call nodes t) {p : Placed K} (hp : p ∈ layers)
    {s : Bool → Store K} (hsize : ∀ i, (s i).size = 2 * nodes.length)
    (hs : ∀ k, k < 2 * nodes.length → Carried nodes kept k fun i => (s i).content k)
    (hargs : adjointArguments (slotIn nodes) (s false) p.place p.layer.args
      = adjointArguments (slotIn nodes) t p.place p.layer.args) :
    StepKeeps (Carried nodes kept) call (slotIn nodes) p s := by
  have hw := h.wellPlaced ho
  have hlayer := h.mem_layersOf hp
  -- No adjoint is called with a parameter's derivative, so both runs call it with the same.
  have hsame : ∀ k, (∀ j, IsParam nodes j → k ≠ valueSlot j + 1) →
      (s true).content k = (s false).content k := by
    intro k hk
    by_cases hlt : k < 2 * nodes.length
    · exact (hs k hlt).same hk
    · rw [Store.content_of_le (by rw [hsize]; omega), Store.content_of_le (by rw [hsize]; omega)]
  have hown : ¬ IsParam nodes p.place := by
    intro hparam
    obtain ⟨n, hn, hrole⟩ := SlotGrad.mem_layersOf.mp hlayer
    unfold IsParam Node.kind at hparam
    simp [hn, hrole] at hparam
  have hboth : ∀ i, adjointArguments (slotIn nodes) (s i) p.place p.layer.args
      = adjointArguments (slotIn nodes) t p.place p.layer.args := by
    intro i
    rw [← hargs]
    cases i with
    | false => rfl
    | true =>
      refine hw.adjointArguments_eq hp (fun k hk => hsame k fun j _ => ?_)
        (hsame _ fun j hj heq => ?_)
      · exact ne_valueSlot_succ hk j
      · exact hown (isParam_of_slot_eq heq hj)
  constructor
  · intro hscatter out hout j q hjq
    have hone : ∀ i, out i = out false := by
      intro i
      have hi := hout i
      rw [hboth, ← hboth false, hout false] at hi
      exact (Except.ok.inj hi).symm
    -- Both runs add the same answer: to equal derivatives, or to a parameter's, of which one is
    -- ahead by what was kept.
    cases hv : taken? (out false) q with
    | none => exact .inl fun i => by rw [hone i, hv]
    | some v =>
      refine .inr ⟨fun _ => v, fun i => by rw [hone i, hv], fun c u hc hu => ?_⟩
      by_cases hj : IsParam nodes j
      · obtain ⟨g, hg⟩ := Option.isSome_iff_exists.mp (hreal.answers p.place p.layer (out false)
          hlayer hscatter (hboth false ▸ hout false) j q hjq hj v hv)
        refine hc.gains (h := g) hj fun i => ?_
        obtain ⟨f, hf⟩ := hc.exists_figures hj i
        exact Value.plus_gains ((hc.real j hj rfl).2 i) hf hg (hu i)
      · rw [carried_iff_same hj] at hc ⊢
        have hsum := hu true
        rw [hc, hu false] at hsum
        exact (Except.ok.inj hsum).symm
  · intro hscatter m rest j hm hslot owned source index dy c target u hthree hc htarget hu
    have hone : ∀ i, source i = source false ∧ index i = index false ∧ dy i = dy false := by
      intro i
      have hi := hthree i
      rw [hboth, ← hboth false, hthree false] at hi
      simp only [Except.ok.injEq, Prod.mk.injEq] at hi
      exact ⟨hi.1.symm, hi.2.1.symm, hi.2.2.symm⟩
    by_cases hj : IsParam nodes j
    · have hdtype : ∀ d, (source false).commonDtype (dy false) = .ok d → d.isReal = true := fun d =>
        hreal.updates p.place p.layer m rest j _ _ _ d hlayer hscatter hm hslot hj
          (hboth false ▸ hthree false)
      -- The same grid is added at the index in both runs.
      have hgains : ∀ i, ∃ g, sparseAddend (source false) (index false) (dy false) = .ok g ∧
          (c i).Gains g (u i) := by
        intro i
        obtain ⟨f, hf⟩ := hc.exists_figures hj i
        have hi := hu i
        have hti := htarget i
        rw [(hone i).1, (hone i).2.2] at hti
        rw [(hone i).2.1, (hone i).2.2] at hi
        exact scatter_gains ((hc.real j hj rfl).2 i) hf (fun _ => hdtype) hti hi
      obtain ⟨g, hg, -⟩ := hgains false
      refine hc.gains (h := g) hj fun i => ?_
      obtain ⟨g', hg', hi⟩ := hgains i
      rw [hg] at hg'
      cases hg'
      exact hi
    · rw [carried_iff_same hj] at hc ⊢
      have htrue := htarget true
      rw [(hone true).1, (hone true).2.2, hc, htarget false] at htrue
      have hsum := hu true
      rw [(hone true).2.1, (hone true).2.2, ← Except.ok.inj htrue, hu false] at hsum
      exact (Except.ok.inj hsum).symm

omit [Field K] [ExactArith K] in
/-- A completed evaluation leaves inputs and parameters as they were. -/
theorem Streams.evaluate_keeps_leaf (h : Streams nodes layers net) (ho : Ordered nodes)
    (hne : nodes ≠ []) {o : EvalOptions K} (hkept : ∀ slot, slot ∈ keptSlots net o ↔
      o.accumulate = true ∧ ∃ k, IsParam nodes k ∧ slot = ((valueSlot k + 1 : Nat) : Int))
    (hsource : SourcesNodes nodes) {r : RunState K}
    (hdone : (evaluate call net .normal o r).error = none) {k : Nat} {n : Node K}
    (hn : nodes[k]? = some n) (hrole : n.application? = none) :
    (evaluate call net .normal o r).state.store.content (valueSlot k)
      = r.store.content (valueSlot k) := by
  obtain ⟨hsize, -, hforward, heval⟩ := h.evaluate_completed hdone
  rw [heval, h.backward]
  have heven := valueSlot_mod_two k
  have hback := (h.wellPlaced ho).backward_frame
    (forall₂_zipIdx_map (backwardOf (slotIn nodes)) layers.reverse 0)
    (fun p hp => List.mem_reverse.mp hp)
    (fun p hp => hsource _ _ (h.mem_layersOf (List.mem_reverse.mp hp))) call
    (.inl heven) (seededRun call net o r)
  rw [hback.2]
  exact (h.seededRun_content ho hne call hkept hsize hforward).2.1 k n hn hrole

/-- **An accumulating run next to a plain one.**  If both start with the same inputs and parameters,
every slot holds the same after both, but for derivatives of parameters: these are sums of what the
accumulating run started with and what the plain run leaves. -/
theorem Streams.accumulating_run (h : Streams nodes layers net) (ho : Ordered nodes)
    (hne : nodes ≠ []) (hkept : ∀ o slot, slot ∈ keptSlots net o ↔
      o.accumulate = true ∧ ∃ k, IsParam nodes k ∧ slot = ((valueSlot k + 1 : Nat) : Int))
    (hroot : ¬ IsParam nodes (nodes.length - 1)) (hsource : SourcesNodes nodes) (call : Calls K)
    {o : Bool → EvalOptions K} {r : Bool → RunState K} (hseed : (o true).seed = (o false).seed)
    (hplain : (o false).accumulate = false) (hprofile : (r true).profile = (r false).profile)
    (hleaves : ∀ k n, nodes[k]? = some n → n.application? = none →
      (r true).store.content (valueSlot k) = (r false).store.content (valueSlot k))
    (hdone : ∀ i, (evaluate call net .normal (o i) (r i)).error = none)
    (hreal : RealParams call nodes (evaluate call net .normal (o false) (r false)).state.store)
    (hstart : ∀ j, IsParam nodes j →
      (startAt nodes (o true) (r true).store j).isFractional = true ∧
        ∃ g, (startAt nodes (o true) (r true).store j).figures? = some g) :
    Related (Carried nodes (startAt nodes (o true) (r true).store)) (2 * nodes.length) fun i =>
      (evaluate call net .normal (o i) (r i)).state := by
  have hw := h.wellPlaced ho
  have hall := fun i => h.evaluate_completed (hdone i)
  have hcontent := fun i => h.seededRun_content (o := o i) ho hne call (hkept (o i))
    (hall i).1 (hall i).2.2.1
  -- The runs are related when the backward stream starts.
  have hseeded : Related (Carried nodes (startAt nodes (o true) (r true).store)) (2 * nodes.length)
      fun i => seededRun call net (o i) (r i) := by
    refine ⟨fun i => (hcontent i).1, fun _ _ _ => Iff.rfl, fun k hk => ?_⟩
    rcases Nat.mod_two_eq_zero_or_one k with heven | hodd
    · have hne := ne_valueSlot_succ heven
      refine ⟨fun _ => ?_, fun j _ heq => absurd heq (hne j), fun j _ heq => absurd heq (hne j)⟩
      exact h.seededRun_agree ho (hall false).1 (hall true).1 hprofile hleaves
        (hall false).2.2.1 heven
    · obtain ⟨j, rfl⟩ := exists_valueSlot_succ hodd
      have hj := valueSlot_succ_lt.mp hk
      have hders := fun i => (hcontent i).2.2 j hj
      rw [show (fun i => (seededRun call net (o i) (r i)).store.content (valueSlot j + 1))
        = fun i => startAt nodes (o i) (r i).store j from funext hders]
      by_cases hparam : IsParam nodes j
      · -- The plain run starts from zero.
        have hzero : startAt nodes (o false) (r false).store j = Store.zero := by
          unfold startAt
          rw [if_neg (fun hlast => hroot ?_), if_neg (by simp [hplain])]
          rwa [show nodes.length - 1 = j by omega]
        obtain ⟨hfractional, g, hg⟩ := hstart j hparam
        refine (carried_iff_isSum hparam).mpr
          ⟨hfractional, fun i => ?_, g, .single 0, g, hg, ?_, hg, Grid.plus?_zero g⟩
        · cases i with
          | false =>
            rw [hzero]
            rfl
          | true => exact hfractional
        · rw [hzero]
          exact figures?_of_isZeroValue rfl ((ExactArith.same_iff _ _).mpr rfl)
      · refine (carried_iff_same hparam).mpr ?_
        rw [startAt_of_not_isParam hparam, startAt_of_not_isParam hparam, hseed]
  have hevals : (fun i => (evaluate call net .normal (o i) (r i)).state)
      = fun i =>
          (runAll (backwardStep call) net.backward.zipIdx (seededRun call net (o i) (r i))).state :=
    funext fun i => congrArg Outcome.state (hall i).2.2.2
  rw [hevals]
  rw [(hall false).2.2.2] at hreal
  have hstream := forall₂_zipIdx_map (backwardOf (slotIn nodes)) layers.reverse 0
  rw [h.backward] at hreal ⊢
  -- From there on every instruction keeps them related.
  refine backward_related hw call hstream (fun p hp => List.mem_reverse.mp hp) (fun p hp =>
    hsource _ _ (h.mem_layersOf (List.mem_reverse.mp hp))) (List.pairwise_reverse.mpr hw.increasing)
    hseeded (fun i => ?_) fun p hp s hsize hs hargs => ?_
  · have hi := hdone i
    rw [(hall i).2.2.2, h.backward] at hi
    exact hi
  · exact h.stepKeeps_carried ho hreal (List.mem_reverse.mp hp) hsize hs (hargs false)

end

/-! ### Several runs -/

section

variable [Interchange K] {nodes : List (Node K)} {net : CompiledNet K} {call : Calls K}

/-- What runs on several bindings leave: sums of the derivatives of parameters that plain runs from
one store leave, and everything else as the plain run on the last binding. -/
structure SumsUp (call : Calls K) (net : CompiledNet K) (nodes : List (Node K)) (seed : Value K)
    (s : Store K) (bs : List (String → Value K)) (t : Store K) : Prop where
  /-- The store has the net's size. -/
  size : t.size = 2 * nodes.length
  /-- Other slots are as the plain run on the last binding leaves them. -/
  others : ∀ b, bs.getLast? = some b → ∀ k, (∀ j, IsParam nodes j → k ≠ valueSlot j + 1) →
    t.content k = (net.boundRun call ⟨seed, false⟩ b s).state.content k
  /-- The derivatives of parameters are sums. -/
  sums : ∀ j, IsParam nodes j → ∃ total g,
    (bs.map fun b => (net.boundRun call ⟨seed, false⟩ b s).state.content (valueSlot j + 1)).foldlM
      Value.plus Store.zero = .ok total ∧ total.isFractional = true ∧ total.figures? = some g ∧
    (t.content (valueSlot j + 1)).isFractional = true ∧
    (t.content (valueSlot j + 1)).figures? = some g

omit [Interchange K] in
/-- One more derivative is added to a sum. -/
theorem exists_sum_concat {vs : List (Value K)} {total kept p t : Value K} {g : Grid K}
    (hvs : vs.foldlM Value.plus Store.zero = .ok total) (hreal : total.isFractional = true)
    (htotal : total.figures? = some g) (hkept : kept.figures? = some g) (hsum : kept.IsSum p t) :
    ∃ total' w, (vs ++ [p]).foldlM Value.plus Store.zero = .ok total' ∧
      total'.isFractional = true ∧ total'.figures? = some w ∧ t.figures? = some w := by
  obtain ⟨g', h, w, hg', hh, hw, hplus⟩ := hsum
  rw [hkept] at hg'
  cases hg'
  obtain ⟨total', htotal', hfigures, hreal'⟩ := Value.exists_plus hreal htotal hh hplus
  refine ⟨total', w, foldlM_append_eq_ok.mpr ⟨total, hvs, ?_⟩, hreal', hfigures, hw⟩
  rw [List.foldlM_cons, htotal']
  rfl

variable {known : Node K → Bool} {names : List String} {roots : List Handle} {options : Options K}
  {seed : Value K}

omit [Field K] [Arith K] [ExactArith K] [Interchange K] in
/-- A binding leaves a slot that is no input's as it was. -/
theorem writeAll_inputValues_frame (hnet : assemble known nodes names roots options = .ok net)
    (b : String → Value K) (s : Store K) {k : Nat}
    (hk : ¬ ∃ w ∈ net.inputValues b, w.1 = (k : Int)) :
    SameAt k s (s.writeAll (net.inputValues b)).state := by
  refine Store.writeAll_frame (fun w hw => ?_) (fun w hw heq => hk ⟨w, hw, heq⟩) s
  obtain ⟨n, hn⟩ := exists_of_mem_inputValues hnet hw
  exact ⟨valueSlot n, hn⟩

omit [Field K] [Arith K] [ExactArith K] [Interchange K] in
/-- A binding leaves derivatives as they were. -/
theorem writeAll_inputValues_der (hnet : assemble known nodes names roots options = .ok net)
    (b : String → Value K) (s : Store K) (j : Nat) :
    SameAt (valueSlot j + 1) s (s.writeAll (net.inputValues b)).state := by
  refine writeAll_inputValues_frame hnet b s ?_
  rintro ⟨w, hw, heq⟩
  obtain ⟨n, hn⟩ := exists_of_mem_inputValues hnet hw
  rw [hn] at heq
  exact natCast_valueSlot_ne_succ _ _ heq

/-- A run on a binding next to the plain run on it: the slots of both are alike, but in
derivatives of parameters there is also what was kept. -/
theorem boundRun_carries (hlen : names.length = nodes.length) (hne : nodes ≠ [])
    (hnet : assemble known nodes names roots options = .ok net) (ho : Ordered nodes)
    (hroot : ¬ IsParam nodes (nodes.length - 1)) (hsource : SourcesNodes nodes) {s t : Store K}
    {b : String → Value K} {accumulate : Bool}
    (hplain : (net.boundRun call ⟨seed, false⟩ b s).error = none)
    (hreal : RealParams call nodes (net.boundRun call ⟨seed, false⟩ b s).state)
    (hdone : (net.boundRun call ⟨seed, accumulate⟩ b t).error = none) (hsize : t.size = s.size)
    (hleaves : ∀ k n, nodes[k]? = some n → n.application? = none →
      (¬ ∃ w ∈ net.inputValues b, w.1 = ((valueSlot k : Nat) : Int)) →
        t.content (valueSlot k) = s.content (valueSlot k))
    (kept : Nat → Value K) (hkept : ∀ j, IsParam nodes j →
      kept j = (if accumulate then t.content (valueSlot j + 1) else Store.zero) ∧
        (kept j).isFractional = true ∧ ∃ g, (kept j).figures? = some g) :
    (net.boundRun call ⟨seed, accumulate⟩ b t).state.size = 2 * nodes.length ∧
      (∀ k, (∀ j, IsParam nodes j → k ≠ valueSlot j + 1) →
        (net.boundRun call ⟨seed, accumulate⟩ b t).state.content k
          = (net.boundRun call ⟨seed, false⟩ b s).state.content k) ∧
      ∀ j, IsParam nodes j →
        ((net.boundRun call ⟨seed, accumulate⟩ b t).state.content (valueSlot j + 1)).isFractional
          = true ∧
        (kept j).IsSum ((net.boundRun call ⟨seed, false⟩ b s).state.content (valueSlot j + 1))
          ((net.boundRun call ⟨seed, accumulate⟩ b t).state.content (valueSlot j + 1)) := by
  have h := assemble_streams hlen hnet
  obtain ⟨hbound, heval, hstate⟩ := CompiledNet.boundRun_completed hplain
  obtain ⟨hbound', heval', hstate'⟩ := CompiledNet.boundRun_completed hdone
  rw [hstate] at hreal
  rw [hstate, hstate']
  have hslots : ∀ w ∈ net.inputValues b, ∃ n : Nat, w.1 = (n : Int) := fun w hw => by
    obtain ⟨n, hn⟩ := exists_of_mem_inputValues hnet hw
    exact ⟨_, hn⟩
  -- What was kept is what the run finds in the derivative, unless it is reset.
  have hstart : ∀ j, IsParam nodes j →
      startAt nodes ⟨seed, accumulate⟩ (t.writeAll (net.inputValues b)).state j = kept j := by
    intro j hj
    unfold startAt
    rw [if_neg fun hlast => hroot (by rwa [show nodes.length - 1 = j by omega]), (hkept j hj).1,
      (writeAll_inputValues_der hnet b t j).2]
    cases accumulate with
    | false => rfl
    | true => rw [if_pos ⟨rfl, hj⟩, if_pos rfl]
  -- The two runs side by side: the plain one at `false`, the other at `true`.
  have hrelated := h.accumulating_run ho hne (fun _ _ => mem_keptSlots hlen hnet) hroot hsource
    call (o := fun i => ⟨seed, i && accumulate⟩)
    (r := fun i => bif i then ⟨(t.writeAll (net.inputValues b)).state, [], none⟩
      else ⟨(s.writeAll (net.inputValues b)).state, [], none⟩) rfl rfl rfl
    (fun k n hn hrole => ?_) (fun i => ?_) hreal fun j hj => ?_
  · refine ⟨hrelated.size true, fun k hk => ?_, fun j hj => ?_⟩
    · by_cases hlt : k < 2 * nodes.length
      · exact (hrelated.contents k hlt).same hk
      · have hbeyond := Nat.le_of_not_lt hlt
        exact (Store.content_of_le ((hrelated.size true).le.trans hbeyond)).trans
          (Store.content_of_le ((hrelated.size false).le.trans hbeyond)).symm
    · have hlt : j < nodes.length := by
        obtain ⟨n, hn, -⟩ := Option.map_eq_some_iff.mp hj
        exact (List.getElem?_eq_some_iff.mp hn).1
      obtain ⟨-, hfractional, hsum⟩ := (carried_iff_isSum hj).mp
        (hrelated.contents (valueSlot j + 1) (valueSlot_succ_lt.mpr hlt))
      exact ⟨hfractional true, hstart j hj ▸ hsum⟩
  · -- An input that is bound is bound to the same; one that is not had the same before.
    refine Store.writeAll_agree hslots hsize ?_ hbound hbound'
    by_cases hwritten : ∃ w ∈ net.inputValues b, w.1 = ((valueSlot k : Nat) : Int)
    · exact .inr hwritten
    · exact .inl (hleaves k n hn hrole hwritten)
  · cases i with
    | false => exact heval
    | true => exact heval'
  · obtain ⟨-, hfractional, g, hg⟩ := hkept j hj
    rw [← hstart j hj] at hfractional hg
    exact ⟨hfractional, g, hg⟩

/-- **A plain run leaves what it leaves.** -/
theorem sumsUp_single (hlen : names.length = nodes.length) (hne : nodes ≠ [])
    (hnet : assemble known nodes names roots options = .ok net) (ho : Ordered nodes)
    (hroot : ¬ IsParam nodes (nodes.length - 1)) (hsource : SourcesNodes nodes) {s : Store K}
    {b : String → Value K} (hplain : (net.boundRun call ⟨seed, false⟩ b s).error = none)
    (hreal : RealParams call nodes (net.boundRun call ⟨seed, false⟩ b s).state) :
    SumsUp call net nodes seed s [b] (net.boundRun call ⟨seed, false⟩ b s).state := by
  have hzero : (Store.zero : Value K).figures? = some (.single 0) :=
    figures?_of_isZeroValue rfl ((ExactArith.same_iff _ _).mpr rfl)
  obtain ⟨hsize, hsame, hsums⟩ :=
    boundRun_carries hlen hne hnet ho hroot hsource hplain hreal hplain
    rfl (fun _ _ _ _ _ => rfl) (fun _ => Store.zero) fun j hj => ⟨rfl, rfl, _, hzero⟩
  refine ⟨hsize, fun b' hb' k hk => ?_, fun j hj => ?_⟩
  · cases hb'
    rfl
  · obtain ⟨hfractional, hsum⟩ := hsums j hj
    have hnothing : ([] : List (Value K)).foldlM Value.plus Store.zero = .ok Store.zero := rfl
    obtain ⟨total, w, htotal, hreal, hfigures, hw⟩ :=
      exists_sum_concat hnothing rfl hzero hzero hsum
    exact ⟨total, w, htotal, hreal, hfigures, hfractional, hw⟩

/-- An accumulating run adds one more summand. -/
theorem SumsUp.concat (hlen : names.length = nodes.length) (hne : nodes ≠ [])
    (hnet : assemble known nodes names roots options = .ok net) (ho : Ordered nodes)
    (hroot : ¬ IsParam nodes (nodes.length - 1)) (hsource : SourcesNodes nodes) {s t : Store K}
    {bs : List (String → Value K)} {b : String → Value K}
    (hsums : SumsUp call net nodes seed s bs t) (hbs : bs ≠ [])
    (hall : ∀ b ∈ bs, (net.boundRun call ⟨seed, false⟩ b s).error = none)
    (hplain : (net.boundRun call ⟨seed, false⟩ b s).error = none)
    (hreal : RealParams call nodes (net.boundRun call ⟨seed, false⟩ b s).state)
    (hdone : (net.boundRun call ⟨seed, true⟩ b t).error = none) :
    SumsUp call net nodes seed s (bs ++ [b]) (net.boundRun call ⟨seed, true⟩ b t).state := by
  have h := assemble_streams hlen hnet
  have hsize : t.size = s.size := by
    obtain ⟨-, heval, -⟩ := CompiledNet.boundRun_completed hplain
    rw [hsums.size, ← (h.evaluate_completed heval).1]
    exact (writeAll_inputValues_der hnet b s 0).1
  -- Inputs that a binding does not write still have the values of the first store.
  have hleaves : ∀ k n, nodes[k]? = some n → n.application? = none →
      (¬ ∃ w ∈ net.inputValues b, w.1 = ((valueSlot k : Nat) : Int)) →
        t.content (valueSlot k) = s.content (valueSlot k) := by
    intro k n hn hrole hk
    obtain ⟨last, hlast⟩ := List.getLast?_isSome.mpr hbs |> Option.isSome_iff_exists.mp
    obtain ⟨-, heval, hstate⟩ := CompiledNet.boundRun_completed
      (hall last (List.mem_of_getLast? hlast))
    have hk' : ¬ ∃ w ∈ net.inputValues last, w.1 = ((valueSlot k : Nat) : Int) := fun h =>
      hk (CompiledNet.exists_inputValues h b)
    rw [hsums.others last hlast _ fun j _ => ne_valueSlot_succ (valueSlot_mod_two k) j, hstate,
      h.evaluate_keeps_leaf ho hne (fun _ => mem_keptSlots hlen hnet) hsource heval hn hrole]
    exact (writeAll_inputValues_frame hnet last s hk').2
  obtain ⟨hsize', hsame, hnew⟩ := boundRun_carries hlen hne hnet ho hroot hsource hplain hreal hdone
    hsize hleaves (fun j => t.content (valueSlot j + 1)) fun j hj => by
      obtain ⟨total, g, -, -, -, hfractional, hg⟩ := hsums.sums j hj
      exact ⟨rfl, hfractional, g, hg⟩
  refine ⟨hsize', fun b' hb' k hk => ?_, fun j hj => ?_⟩
  · rw [List.getLast?_concat] at hb'
    cases hb'
    exact hsame k hk
  · obtain ⟨total, g, htotal, hreal, hfigures, -, hg⟩ := hsums.sums j hj
    obtain ⟨hfractional, hsum⟩ := hnew j hj
    obtain ⟨total', w, htotal', hreal', hfigures', hw⟩ :=
      exists_sum_concat htotal hreal hfigures hg hsum
    refine ⟨total', w, ?_, hreal', hfigures', hfractional, hw⟩
    rw [List.map_append]
    exact htotal'

/-- Accumulating runs add one summand each. -/
theorem SumsUp.runAll (hlen : names.length = nodes.length) (hne : nodes ≠ [])
    (hnet : assemble known nodes names roots options = .ok net) (ho : Ordered nodes)
    (hroot : ¬ IsParam nodes (nodes.length - 1)) (hsource : SourcesNodes nodes) {s : Store K} :
    ∀ {bs as : List (String → Value K)} {t : Store K}, SumsUp call net nodes seed s as t → as ≠ [] →
      (∀ b ∈ as ++ bs, (net.boundRun call ⟨seed, false⟩ b s).error = none) →
      (∀ b ∈ as ++ bs, RealParams call nodes (net.boundRun call ⟨seed, false⟩ b s).state) →
      (SlotGrad.runAll (net.boundRun call ⟨seed, true⟩) bs t).error = none →
        SumsUp call net nodes seed s (as ++ bs)
          (SlotGrad.runAll (net.boundRun call ⟨seed, true⟩) bs t).state := by
  intro bs
  induction bs with
  | nil =>
    intro as t hsums _ _ _ _
    rw [List.append_nil]
    exact hsums
  | cons b bs ih =>
    intro as t hsums has hplain hreal hdone
    have hb : b ∈ as ++ b :: bs := List.mem_append_right _ (List.mem_cons_self ..)
    obtain ⟨hfirst, hrest⟩ := runAll_cons_completed.mp hdone
    have hnext := hsums.concat hlen hne hnet ho hroot hsource has
      (fun b hb => hplain b (List.mem_append_left _ hb)) (hplain b hb) (hreal b hb) hfirst
    rw [runAll_cons_state bs hfirst]
    rw [List.append_cons] at hplain hreal ⊢
    exact ih hnext (by simp) hplain hreal hrest

end

/-- **Accumulating runs sum derivatives of parameters.**  A plain run on some values of the
inputs and accumulating runs on others, one after another, leave in the derivative of every
parameter the numbers of the sum of what plain runs on all these values leave there, and in
every other slot what a plain run on the last values leaves. -/
theorem accumulating_runs_sum [Interchange K] {checks : Checks K} {known : Node K → Bool}
    {nodes : List (Node K)} {roots : Option (List Handle)} {options : Options K} {c : Compilation K}
    (hc : compileNodes checks known nodes roots options = .ok c) (ho : Ordered nodes)
    (hroot : (nodes.getLast?).map Node.kind ≠ some .param) (hsource : SourcesNodes nodes)
    (call : Calls K) (seed : Value K) (s : Store K) (b : String → Value K)
    (bs : List (String → Value K))
    (hplain : ∀ b' ∈ b :: bs, (c.net.boundRun call ⟨seed, false⟩ b' s).error = none)
    (hreal : ∀ b' ∈ b :: bs, RealParams call nodes (c.net.boundRun call ⟨seed, false⟩ b' s).state)
    (hdone : ((c.net.boundRun call ⟨seed, false⟩ b s).andThen
      (runAll (c.net.boundRun call ⟨seed, true⟩) bs)).error = none) {t : Store K}
    (ht : ((c.net.boundRun call ⟨seed, false⟩ b s).andThen
      (runAll (c.net.boundRun call ⟨seed, true⟩) bs)).state = t) :
    (∀ j, IsParam nodes j → ∃ total,
      ((b :: bs).map fun b => (c.net.boundRun call ⟨seed, false⟩ b s).state.content
        (valueSlot j + 1)).foldlM Value.plus Store.zero = .ok total ∧
      total.figures?.isSome ∧ (t.content (valueSlot j + 1)).figures? = total.figures?) ∧
    ∀ k, (∀ j, IsParam nodes j → k ≠ valueSlot j + 1) → t.content k
      = (c.net.boundRun call ⟨seed, false⟩ ((b :: bs).getLast (List.cons_ne_nil b bs))
        s).state.content k := by
  obtain ⟨hne, names, heads, hlen, hnet⟩ := compileNodes_assembled hc
  have hlast : ¬ IsParam nodes (nodes.length - 1) := by
    unfold IsParam
    rwa [← List.getLast?_eq_getElem?]
  obtain ⟨hfirst, hrest⟩ := Outcome.andThen_completed.mp hdone
  have hsums := (sumsUp_single hlen hne hnet ho hlast hsource (hplain b (List.mem_cons_self ..))
    (hreal b (List.mem_cons_self ..))).runAll hlen hne hnet ho hlast hsource (List.cons_ne_nil _ _)
    hplain hreal hrest
  rw [Outcome.andThen_state _ hfirst] at ht
  rw [ht, List.singleton_append] at hsums
  refine ⟨fun j hj => ?_, fun k hk => hsums.others _ (List.getLast?_eq_some_getLast _) k hk⟩
  obtain ⟨total, g, htotal, -, hg, -, hw⟩ := hsums.sums j hj
  exact ⟨total, htotal, by rw [hg]; rfl, by rw [hg, hw]⟩

/-- A test that what a layer adds into derivatives, called on a store, are numbers. -/
def addsNumbers [Arith F] (call : Calls F) (nodes : List (Node F)) (t : Store F)
    (L : Nat × Application F) : Bool :=
  if L.2.op.scatter then
    match scatterArguments (adjointArguments (slotIn nodes) t L.1 L.2.args) with
    | .ok (source, _, dy) => (source.commonDtype dy).toOption.all Dtype.isReal
    | .error _ => true
  else
    ((adjointAnswer call (derCountOf (slotIn nodes) L.2) L.2
      (adjointArguments (slotIn nodes) t L.1 L.2.args)).toOption.getD []).all fun v =>
        v.isNone || v.figures?.isSome

theorem realUpdates_of_addsNumbers [Arith F] {call : Calls F} {nodes : List (Node F)} {t : Store F}
    (h : (layersOf nodes).all (addsNumbers call nodes t) = true) (counted : Nat → Prop) :
    RealUpdates nodes counted t := by
  intro k a m rest j source index dy d hL hscatter _ _ _ hthree hd
  have hlayer := List.all_eq_true.mp h (k, a) hL
  unfold addsNumbers at hlayer
  rw [if_pos hscatter, hthree] at hlayer
  dsimp only at hlayer
  rw [hd] at hlayer
  exact hlayer

theorem realParams_of_addsNumbers [Arith F] {call : Calls F} {nodes : List (Node F)} {t : Store F}
    (h : (layersOf nodes).all (addsNumbers call nodes t) = true) : RealParams call nodes t := by
  refine ⟨?_, realUpdates_of_addsNumbers h _⟩
  intro k a out hL hscatter hout j q _ _ v hv
  have hlayer := List.all_eq_true.mp h (k, a) hL
  unfold addsNumbers at hlayer
  rw [if_neg (by simp [hscatter]), hout] at hlayer
  obtain ⟨hq, hv⟩ := Option.filter_eq_some_iff.mp hv
  have hanswer := List.all_eq_true.mp hlayer v (List.mem_of_getElem? hq)
  rw [Bool.not_eq_true'] at hv
  rwa [hv, Bool.false_or] at hanswer

/-- A parameter that is multiplied by an input and indexed, and the sum of both. -/
def sharedParameter : List (Node ℚ) :=
  [⟨0, bareLabel, .param ⟨pair 1 2, .none, .none, .gradient⟩⟩,
    ⟨1, { bareLabel with name := some "x" }, .input⟩,
    ⟨2, bareLabel,
      .layer ⟨Builtin.times.op, [.node ⟨0, .param, ""⟩, .node ⟨1, .input, ""⟩], [], .same,
      .same, [], none⟩⟩,
    ⟨3, bareLabel, .layer ⟨Builtin.slice.op, [.node ⟨0, .param, ""⟩, .integer 0], [], .same, .same,
      [], none⟩⟩,
    ⟨4, bareLabel,
      .layer ⟨Builtin.plus.op, [.node ⟨2, .layer, ""⟩, .node ⟨3, .layer, ""⟩], [], .same,
      .same, [], none⟩⟩]

theorem accumulating_runs_sum_shared_parameter :
    ∃ c, compileNodes [] (fun _ => true) sharedParameter none plainOptions = .ok c ∧
      ((c.net.boundRun builtinCalls ⟨.real 1, false⟩ (fun _ => pair 3 4) c.store).andThen
        (runAll (c.net.boundRun builtinCalls ⟨.real 1, true⟩) [fun _ => pair 5 6])).error = none ∧
      ∃ total, (((c.net.boundRun builtinCalls ⟨.real 1, false⟩ (fun _ => pair 3 4) c.store).andThen
          (runAll (c.net.boundRun builtinCalls ⟨.real 1, true⟩) [fun _ => pair 5 6])).state.content
            1).figures? = Value.figures? total ∧
        ([fun _ => pair 3 4, fun _ => pair 5 6].map fun b => (c.net.boundRun builtinCalls
          ⟨.real 1, false⟩ b c.store).state.content 1).foldlM Value.plus Store.zero
              = .ok total := by
  obtain ⟨c, hc⟩ := exists_of_isOk
    (show (compileNodes [] (fun _ => true) sharedParameter none plainOptions).isOk = true from rfl)
  have ho : Ordered sharedParameter := ⟨by decide, violations_eq_nil_iff.mp rfl⟩
  -- Every layer, the indexing one included, starts with a node.
  have hsource : SourcesNodes sharedParameter := by
    have hreads : ∀ L ∈ layersOf sharedParameter, ∃ h rest, L.2.args = Value.node h :: rest := by
      intro L hL
      rcases List.mem_cons.mp hL with rfl | hL
      · exact ⟨_, _, rfl⟩
      rcases List.mem_cons.mp hL with rfl | hL
      · exact ⟨_, _, rfl⟩
      cases List.mem_singleton.mp hL
      exact ⟨_, _, rfl⟩
    exact fun k a hL _ => hreads (k, a) hL
  have hplain : ∀ b ∈ [fun _ => pair 3 4, fun _ => pair 5 6],
      (c.net.boundRun builtinCalls ⟨.real 1, false⟩ b c.store).error = none ∧
        RealParams builtinCalls sharedParameter
          (c.net.boundRun builtinCalls ⟨.real 1, false⟩ b c.store).state := by
    refine List.forall_mem_cons.mpr ⟨?_, List.forall_mem_singleton.mpr ?_⟩
    all_goals
      cases hc
      exact ⟨by decide +kernel, realParams_of_addsNumbers (by decide +kernel)⟩
  have hdone : ((c.net.boundRun builtinCalls ⟨.real 1, false⟩ (fun _ => pair 3 4) c.store).andThen
      (runAll (c.net.boundRun builtinCalls ⟨.real 1, true⟩) [fun _ => pair 5 6])).error
        = none := by
    cases hc
    decide +kernel
  obtain ⟨total, htotal, -, hfigures⟩ := (accumulating_runs_sum hc ho (by decide) hsource
    builtinCalls (.real 1) c.store (fun _ => pair 3 4) [fun _ => pair 5 6]
    (fun b hb => (hplain b hb).1) (fun b hb => (hplain b hb).2) hdone rfl).1 0 rfl
  exact ⟨c, hc, hdone, total, hfigures, htotal⟩

end SlotGrad
