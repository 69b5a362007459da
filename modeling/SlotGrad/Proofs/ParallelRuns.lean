import SlotGrad.Proofs.SparseAgreement

/-!
# Several runs of one backward stream

The backward stream of a net is run from several states at once, and what the runs hold in a
slot is compared.  A relation between the contents of every slot is carried through the stream
if additions keep it: those of what an adjoint answers, and sparse updates.  What adjoints are
called with is final when they are called, since later instructions write derivatives of smaller
places only; so what is asked of the calls can be asked of the stores that the runs end with.

## Main definitions

* `Related` — runs that own the same slots of stores of one size, with related contents in every
  slot.
* `taken?` — the result of an adjoint at a place, unless it is absent.
* `seededRun` — the state in which the backward stream of an evaluation starts.
* `AnswersKeep`, `StepKeeps` — additions that keep a relation.

## Main results

* `WellPlaced.backwardStep_frame`, `WellPlaced.backward_frame` — a backward instruction changes
  derivatives of smaller places only, and a stream what its instructions do.
* `WellPlaced.backwardStep_keeps`, `WellPlaced.backward_keeps` — the same of layers that may read no
  node, but for later values.
* `Streams.evaluate_completed`, `Streams.seededRun_agree` — a completed evaluation from where its
  backward stream starts.
* `backwardStep_related`, `backward_related` — backward instructions and streams keep relations.
-/

namespace SlotGrad

variable {F : Type} [Arith F]

/-! ### What a backward instruction changes -/

section

variable {slotOf : Handle → Option Nat} {size : Nat} {layers : List (Placed F)}

omit [Arith F] in
/-- The first slots of operands are those of nodes. -/
theorem head?_operandSlots {args : List (Value F)} (hlocated : ∀ h, Value.node h ∈ args →
    (slotOf h).isSome) (q : Nat) : ((operandSlots slotOf q args).map Prod.fst).head?
      = ((args.findSome? Value.node?).bind slotOf).map fun k : Nat => (k : Int) := by
  induction args generalizing q with
  | nil => rfl
  | cons v vs ih =>
    rw [operandSlots, List.findSome?_cons]
    cases hv : v.node? with
    | none => exact ih (fun h hh => hlocated h (List.mem_cons_of_mem _ hh)) (q + 1)
    | some h =>
      obtain ⟨k, hk⟩ := Option.isSome_iff_exists.mp
        (hlocated h (Value.node?_eq_some.mp hv ▸ List.mem_cons_self ..))
      rw [Option.bind_some, hk]
      rfl

omit [Arith F] in
/-- A well placed layer records the value slot of the first node that it reads first, or its own
derivative slot if it reads no node. -/
theorem WellPlaced.head_inputVars_backwardOf (hw : WellPlaced slotOf size layers) {p : Placed F}
    (hp : p ∈ layers) : (backwardOf slotOf p).inputVars.head? = some
      ((((p.layer.args.findSome? Value.node?).bind slotOf).map fun k : Nat => (k : Int)).getD
        (derSlot (valueSlot p.place : Nat))) := by
  have hlocated : ∀ h, Value.node h ∈ p.layer.args → (slotOf h).isSome := by
    intro h hh
    obtain ⟨j, -, hslot⟩ := hw.earlier p hp h hh
    rw [hslot]
    rfl
  unfold backwardOf
  dsimp only
  rw [adjointOperands_fst, List.head?_append, head?_operandSlots hlocated]
  cases ((p.layer.args.findSome? Value.node?).bind slotOf).map fun k : Nat => (k : Int) <;> rfl

omit [Arith F] in
/-- The first node that a well placed layer reads has a smaller place. -/
theorem WellPlaced.first_earlier (hw : WellPlaced slotOf size layers) {p : Placed F}
    (hp : p ∈ layers) {h : Handle} (hfirst : p.layer.args.findSome? Value.node? = some h) :
    ∃ j, j < p.place ∧ slotOf h = some (valueSlot j) := by
  obtain ⟨v, hv, hnode⟩ := List.exists_of_findSome?_eq_some hfirst
  exact hw.earlier p hp h (Value.node?_eq_some.mp hnode ▸ hv)

omit [Arith F] in
/-- What a backward instruction writes are derivatives of smaller places, but for an indexing
layer that reads no node, which writes the value of the next place. -/
theorem WellPlaced.exists_target (hw : WellPlaced slotOf size layers) {p : Placed F}
    (hp : p ∈ layers) {slot : Int} (hslot : slot ∈ (backwardOf slotOf p).targets) :
    (∃ j, j < p.place ∧ slot = ((valueSlot j + 1 : Nat) : Int)) ∨
      (p.layer.op.scatter = true ∧ p.layer.args.findSome? Value.node? = none ∧
        slot = ((valueSlot (p.place + 1) : Nat) : Int)) := by
  unfold Instruction.targets at hslot
  split at hslot
  · rename_i hscatter
    rw [hw.head_inputVars_backwardOf hp] at hslot
    cases hfirst : p.layer.args.findSome? Value.node? with
    | none =>
      rw [hfirst] at hslot
      exact .inr ⟨hscatter, rfl, List.mem_singleton.mp hslot⟩
    | some h =>
      obtain ⟨j, hj, hloc⟩ := hw.first_earlier hp hfirst
      rw [hfirst, Option.bind_some, hloc] at hslot
      exact .inl ⟨j, hj, List.mem_singleton.mp hslot⟩
  · obtain ⟨b, hb, rfl⟩ := List.mem_map.mp hslot
    rw [operands_backwardOf] at hb
    obtain ⟨j, q, rfl, hj⟩ := hw.operands hp hb
    exact .inl ⟨j, hj, rfl⟩

/-- A backward instruction changes derivatives of smaller places only, also when it fails. -/
theorem WellPlaced.backwardStep_frame (hw : WellPlaced slotOf size layers) {p : Placed F}
    (hp : p ∈ layers)
    (hsource : p.layer.op.scatter = true → ∃ h rest, p.layer.args = .node h :: rest)
    (call : Calls F) (index : Nat) {k : Nat} (hk : k % 2 = 0 ∨ valueSlot p.place < k)
    (r : RunState F) :
    SameAt k r.store (backwardStep call (backwardOf slotOf p, index) r).state.store := by
  apply SlotGrad.backwardStep_frame
  intro slot hslot
  rcases hw.exists_target hp hslot with ⟨j, hj, rfl⟩ | ⟨hscatter, hnone, -⟩
  · apply locate?_ne_of_ne
    unfold valueSlot at hk ⊢
    omega
  · obtain ⟨h, rest, hargs⟩ := hsource hscatter
    rw [hargs] at hnone
    cases hnone

/-- A backward instruction changes no derivative from its own on and no value up to its own,
whatever its layer reads, also when it fails. -/
theorem WellPlaced.backwardStep_keeps (hw : WellPlaced slotOf size layers) {p : Placed F}
    (hp : p ∈ layers) (call : Calls F) (index : Nat) {k : Nat}
    (hk : k % 2 = 0 ∧ k ≤ valueSlot p.place ∨ k % 2 = 1 ∧ valueSlot p.place < k) (r : RunState F) :
    SameAt k r.store (backwardStep call (backwardOf slotOf p, index) r).state.store := by
  apply SlotGrad.backwardStep_frame
  intro slot hslot
  rcases hw.exists_target hp hslot with ⟨j, hj, rfl⟩ | ⟨-, -, rfl⟩
  all_goals
    apply locate?_ne_of_ne
    unfold valueSlot at hk ⊢
    omega

/-- A backward stream keeps what its instructions keep. -/
theorem runAll_backwardStep_keeps {stream : List (Instruction F × Nat)} {ls : List (Placed F)}
    (hstream : List.Forall₂ (fun q p => q.1 = backwardOf slotOf p) stream ls)
    {call : Calls F} {k : Nat} (hstep : ∀ p ∈ ls, ∀ index (r : RunState F), SameAt k r.store
      (backwardStep call (backwardOf slotOf p, index) r).state.store) (r : RunState F) :
    SameAt k r.store (runAll (backwardStep call) stream r).state.store := by
  induction hstream generalizing r with
  | nil => exact SameAt.refl k r.store
  | @cons q p stream ls hq _ ih =>
    obtain ⟨i, index⟩ := q
    have hq : i = backwardOf slotOf p := hq
    subst hq
    rw [List.forall_mem_cons] at hstep
    rw [runAll_cons]
    exact Outcome.andThen_keeps (P := fun r' : RunState F => SameAt k r.store r'.store)
      (hstep.1 index r) fun r' hr' => hr'.trans (ih hstep.2 r')

/-- A backward stream changes no derivative behind those of its layers and no value up to theirs. -/
theorem WellPlaced.backward_keeps (hw : WellPlaced slotOf size layers)
    {stream : List (Instruction F × Nat)} {ls : List (Placed F)}
    (hstream : List.Forall₂ (fun q p => q.1 = backwardOf slotOf p) stream ls)
    (hls : ∀ p ∈ ls, p ∈ layers) (call : Calls F) {k : Nat}
    (hk : ∀ p ∈ ls, k % 2 = 0 ∧ k ≤ valueSlot p.place ∨ k % 2 = 1 ∧ valueSlot p.place < k)
    (r : RunState F) : SameAt k r.store (runAll (backwardStep call) stream r).state.store :=
  runAll_backwardStep_keeps hstream (fun p hp index r =>
    hw.backwardStep_keeps (hls p hp) call index (hk p hp) r) r

/-- A backward stream changes derivatives of places smaller than one of its layers' only. -/
theorem WellPlaced.backward_frame (hw : WellPlaced slotOf size layers)
    {stream : List (Instruction F × Nat)} {ls : List (Placed F)}
    (hstream : List.Forall₂ (fun q p => q.1 = backwardOf slotOf p) stream ls)
    (hls : ∀ p ∈ ls, p ∈ layers)
    (hsource : ∀ p ∈ ls, p.layer.op.scatter = true → ∃ h rest, p.layer.args = .node h :: rest)
    (call : Calls F) {k : Nat} (hk : k % 2 = 0 ∨ ∀ p ∈ ls, valueSlot p.place < k) (r : RunState F) :
    SameAt k r.store (runAll (backwardStep call) stream r).state.store :=
  runAll_backwardStep_keeps hstream
    (fun p hp index r => hw.backwardStep_frame (hls p hp) (hsource p hp)
    call index (hk.imp_right fun h => h p hp) r) r

end

/-! ### What a completed instruction did -/

/-- The result of an adjoint at a place, unless there is none or an absent one. -/
def taken? (out : List (Value F)) (q : Nat) : Option (Value F) :=
  (out[q]?).filter fun v => !v.isNone

/-- A completed contribution adds the result at the operand's place. -/
theorem contribute_completed {out : List (Value F)} {j q : Nat} {r : RunState F}
    (hj : valueSlot j + 1 < r.store.size)
    (hdone : (contribute out (((valueSlot j : Nat) : Int), (q : Int)) r).error = none) :
    (taken? out q = none ∧ contribute out (((valueSlot j : Nat) : Int), (q : Int)) r = .done r) ∨
      ∃ v u, taken? out q = some v ∧ (r.store.content (valueSlot j + 1)).plus v = .ok u ∧
        contribute out (((valueSlot j : Nat) : Int), (q : Int)) r = .done
          (r.put ((valueSlot j + 1 : Nat) : Int) (r.store.setAt (valueSlot j + 1) u)) := by
  have hslot : derSlot ((valueSlot j : Nat) : Int) = ((valueSlot j + 1 : Nat) : Int) := rfl
  unfold contribute at hdone ⊢
  unfold taken?
  dsimp only at hdone ⊢
  rw [resultAt_natCast] at hdone ⊢
  cases hout : out[q]? with
  | none => exact .inl ⟨rfl, rfl⟩
  | some v =>
    rw [hout] at hdone
    simp only [liftM_eq_lift, Fallible.lift_ok, bind, Except.bind] at hdone ⊢
    cases hv : v.isNone with
    | true =>
      refine .inl ⟨by simp [Option.filter, hv], ?_⟩
      rw [if_pos rfl]
      rfl
    | false =>
      right
      rw [hv, if_neg Bool.false_ne_true, hslot, Store.accumulate_natCast hj] at hdone
      rw [if_neg Bool.false_ne_true, hslot, Store.accumulate_natCast hj]
      cases hu : (r.store.content (valueSlot j + 1)).plus v with
      | error f =>
        rw [hu] at hdone
        cases hdone
      | ok u => exact ⟨v, u, by simp [Option.filter, hv], hu, rfl⟩

section

variable {slotOf : Handle → Option Nat}

/-- A completed call of an adjoint makes the contributions of what it answered. -/
theorem adjointStep_completed {call : Calls F} {p : Placed F} {args : List (Value F)}
    {r : RunState F} (hactive : (derCountOf slotOf p.layer).isActive = true)
    (hdone : (adjointStep call (backwardOf slotOf p) (derCountOf slotOf p.layer) args r).error
      = none) :
    ∃ out, adjointAnswer call (derCountOf slotOf p.layer) p.layer args = .ok out ∧
      adjointStep call (backwardOf slotOf p) (derCountOf slotOf p.layer) args r
        = runAll (contribute out) (adjointOperands slotOf p.layer.args) r := by
  have hfunction : (backwardOf slotOf p).function? = p.layer.op.adjoint := rfl
  have hkwargs : (backwardOf slotOf p).kwargs = p.layer.kwargs := rfl
  unfold adjointStep at hdone ⊢
  unfold adjointAnswer
  rw [if_pos hactive]
  dsimp only at hdone ⊢
  rw [hfunction, hkwargs] at hdone ⊢
  cases hf : p.layer.op.adjoint with
  | none =>
    rw [hf] at hdone
    cases hdone
  | some f =>
    rw [hf] at hdone
    dsimp only at hdone ⊢
    rw [← operands_backwardOf slotOf p]
    cases hout : (do
        let out ← call f ⟨args, p.layer.kwargs⟩
        return takeResults (← (derCountOf slotOf p.layer).taken) (resultsOf out) :
          Attempt (List (Value F))) with
    | error e =>
      rw [hout] at hdone
      cases hdone
    | ok out => exact ⟨out, rfl, rfl⟩

theorem runAll_contribute_nil {bs : List (Int × Int)} (hbs : ∀ b ∈ bs, 0 ≤ b.2) (r : RunState F) :
    runAll (contribute []) bs r = .done r := by
  induction bs with
  | nil => rfl
  | cons b bs ih =>
    have hnone : resultAt ([] : List (Value F)) b.2 = .ok none := by
      unfold resultAt
      rw [if_pos (by simpa using hbs b (List.mem_cons_self ..))]
    have hb : contribute [] b r = .done r := by
      unfold contribute
      rw [hnone]
      rfl
    rw [runAll_cons, hb]
    exact ih fun c hc => hbs c (List.mem_cons_of_mem _ hc)

/-- A completed backward instruction of a layer with an adjoint. -/
theorem backwardStep_completed_dense {call : Calls F} {p : Placed F} {index : Nat} {r : RunState F}
    (hslots : ∀ h k, slotOf h = some k → k < r.store.size)
    (hplace : valueSlot p.place + 1 < r.store.size) (hscatter : p.layer.op.scatter = false)
    (hdone : (backwardStep call (backwardOf slotOf p, index) r).error = none) :
    ∃ out, adjointAnswer call (derCountOf slotOf p.layer) p.layer
        (adjointArguments slotOf r.store p.place p.layer.args) = .ok out ∧
      (runAll (contribute out) (adjointOperands slotOf p.layer.args) r).error = none ∧
      (backwardStep call (backwardOf slotOf p, index) r).state
        = (runAll (contribute out) (adjointOperands slotOf p.layer.args) r).state.record index
          .backward (backwardOf slotOf p) := by
  have hsc : ¬ (backwardOf slotOf p).op.scatter = true := by
    change ¬ p.layer.op.scatter = true
    rw [hscatter]
    exact Bool.false_ne_true
  have hder : (backwardOf slotOf p).derCount = some (derCountOf slotOf p.layer) := rfl
  unfold backwardStep at hdone ⊢
  dsimp only at hdone ⊢
  rw [backwardOf_bind hslots p hplace] at hdone ⊢
  dsimp only at hdone ⊢
  rw [if_neg hsc, hder] at hdone ⊢
  dsimp only at hdone ⊢
  obtain ⟨hworked, -⟩ := Outcome.andThen_completed.mp hdone
  rw [Outcome.andThen_state _ hworked]
  cases hactive : (derCountOf slotOf p.layer).isActive with
  | true =>
    rw [hactive, if_pos rfl] at hworked
    obtain ⟨out, hout, hrun⟩ := adjointStep_completed hactive hworked
    rw [if_pos rfl, hrun]
    exact ⟨out, hout, hrun ▸ hworked, rfl⟩
  | false =>
    have hplaces : ∀ b ∈ adjointOperands slotOf p.layer.args, 0 ≤ b.2 := by
      intro b hb
      obtain ⟨q, h, k, -, -, rfl⟩ := exists_of_mem_adjointOperands hb
      exact Int.natCast_nonneg _
    have hnothing := runAll_contribute_nil hplaces r
    refine ⟨[], ?_, by rw [hnothing]; rfl, by rw [if_neg Bool.false_ne_true, hnothing]; rfl⟩
    unfold adjointAnswer
    rw [if_neg (by simp [hactive])]

/-- A completed sparse update of a layer that reads a node. -/
theorem backwardStep_completed_sparse {call : Calls F} {p : Placed F} {index : Nat} {r : RunState F}
    (hslots : ∀ h k, slotOf h = some k → k < r.store.size)
    (hplace : valueSlot p.place + 1 < r.store.size) (hscatter : p.layer.op.scatter = true)
    {j : Nat} (hfirst : (backwardOf slotOf p).inputVars.head? = some ((valueSlot j : Nat) : Int))
    (hj : valueSlot j + 1 < r.store.size)
    (hdone : (backwardStep call (backwardOf slotOf p, index) r).error = none) :
    ∃ source i dy target v,
      scatterArguments (adjointArguments slotOf r.store p.place p.layer.args)
        = .ok (source, i, dy) ∧
      scatterTarget (r.owned.contains ((valueSlot j + 1 : Nat) : Int))
        (r.store.content (valueSlot j + 1)) source dy = .ok target ∧
      addInto target i dy = .ok v ∧
      (backwardStep call (backwardOf slotOf p, index) r).state
        = RunState.record index .backward (backwardOf slotOf p)
          ((r.put ((valueSlot j + 1 : Nat) : Int) (r.store.setAt (valueSlot j + 1) target)).put
            ((valueSlot j + 1 : Nat) : Int) (r.store.setAt (valueSlot j + 1) v)) := by
  have hsc : (backwardOf slotOf p).op.scatter = true := hscatter
  have hvar : (backwardOf slotOf p).inputVars.head?.map derSlot
      = some ((valueSlot j + 1 : Nat) : Int) := by
    rw [hfirst]
    rfl
  unfold backwardStep at hdone ⊢
  dsimp only at hdone ⊢
  rw [backwardOf_bind hslots p hplace] at hdone ⊢
  dsimp only at hdone ⊢
  rw [if_pos hsc] at hdone ⊢
  obtain ⟨hworked, -⟩ := Outcome.andThen_completed.mp hdone
  rw [Outcome.andThen_state _ hworked]
  obtain ⟨-, source, i, dy, target, v, hthree, htarget, hv, -⟩ := scatterStep_completed hvar hworked
  rw [scatterStep_eq_done hvar hj hthree htarget hv, Store.setAt_setAt]
  exact ⟨source, i, dy, target, v, hthree, htarget, hv, rfl⟩

end

/-! ### Where the backward stream starts -/

section

variable {nodes : List (Node F)} {layers : List (Placed F)} {net : CompiledNet F} {call : Calls F}

/-- The state in which the backward stream of an evaluation starts: values are computed, derivatives
are reset, and the root's is the seed. -/
def seededRun (call : Calls F) (net : CompiledNet F) (o : EvalOptions F) (r : RunState F) :
    RunState F :=
  { ((runForward call .forward net.forward r).andThen (seedDers net o)).state with owned := [] }

/-- A completed evaluation in normal mode is a completed forward pass and the backward stream. -/
theorem Streams.evaluate_completed (h : Streams nodes layers net) {o : EvalOptions F}
    {r : RunState F} (hdone : (evaluate call net .normal o r).error = none) :
    r.store.size = 2 * nodes.length ∧ isEmptySeed o.seed = false ∧
      (runForward call .forward net.forward r).error = none ∧
      evaluate call net .normal o r
        = runAll (backwardStep call) net.backward.zipIdx (seededRun call net o r) := by
  unfold evaluate at hdone ⊢
  cases hcheck : checkRequest net .normal o r.store with
  | error e =>
    rw [hcheck] at hdone
    cases hdone
  | ok u =>
    rw [hcheck] at hdone
    dsimp only at hdone ⊢
    obtain ⟨hempty, hnum⟩ := checkRequest_accepts hcheck
    have hvars := h.numVars
    obtain ⟨hseeded, -⟩ := Outcome.andThen_completed.mp hdone
    obtain ⟨hforward, -⟩ := Outcome.andThen_completed.mp hseeded
    refine ⟨by omega, hempty rfl, hforward, ?_⟩
    generalize hq : (runForward call .forward net.forward r).andThen (seedDers net o) = q at hseeded
    obtain ⟨state, error⟩ := q
    obtain rfl : error = none := hseeded
    unfold seededRun
    rw [hq]
    rfl

variable {o : EvalOptions F} {r : RunState F}

/-- An evaluation in normal mode is the backward stream, once the forward pass has completed. -/
theorem Streams.evaluate_of_forward (h : Streams nodes layers net) (hne : nodes ≠ [])
    (hkept : ∀ slot, slot ∈ keptSlots net o ↔
      o.accumulate = true ∧ ∃ k, (nodes[k]?).map Node.kind = some .param ∧
        slot = ((valueSlot k + 1 : Nat) : Int))
    (hempty : isEmptySeed o.seed = false) (hsize : r.store.size = 2 * nodes.length)
    (hdone : (runForward call .forward net.forward r).error = none)
    (hlast : (runForward call .forward net.forward r).state.store.size = 2 * nodes.length) :
    evaluate call net .normal o r
      = runAll (backwardStep call) net.backward.zipIdx (seededRun call net o r) := by
  have hcheck : checkRequest net .normal o r.store = .ok () := by
    unfold checkRequest
    rw [if_neg (by simp [hempty]), if_neg (by rw [h.numVars, hsize]; simp)]
    rfl
  have hseeded := (seedDers_start hkept hlast hne).1
  unfold evaluate seededRun
  rw [hcheck]
  dsimp only
  rw [Outcome.andThen_state _ hdone]
  generalize hq : (runForward call .forward net.forward r) = q at hdone hseeded
  obtain ⟨state, error⟩ := q
  obtain rfl : error = none := hdone
  change ((seedDers net o state).andThen (runBackward call net.backward)) = _
  dsimp only at hseeded ⊢
  generalize hs : seedDers net o state = u at hseeded
  obtain ⟨state', error'⟩ := u
  obtain rfl : error' = none := hseeded
  rfl

/-- After the seeding inputs and parameters have their values, and derivatives what they start
from. -/
theorem Streams.seededRun_content (h : Streams nodes layers net) (ho : Ordered nodes)
    (hne : nodes ≠ []) (call : Calls F) (hkept : ∀ slot, slot ∈ keptSlots net o ↔
      o.accumulate = true ∧ ∃ k, (nodes[k]?).map Node.kind = some .param ∧
        slot = ((valueSlot k + 1 : Nat) : Int))
    (hsize : r.store.size = 2 * nodes.length)
    (hdone : (runForward call .forward net.forward r).error = none) :
    (seededRun call net o r).store.size = 2 * nodes.length ∧
      (∀ k n, nodes[k]? = some n → n.application? = none →
        (seededRun call net o r).store.content (valueSlot k) = r.store.content (valueSlot k)) ∧
      ∀ k, k < nodes.length → (seededRun call net o r).store.content (valueSlot k + 1)
        = startAt nodes o r.store k := by
  have hw := h.wellPlaced ho
  rw [h.forward] at hdone
  obtain ⟨hfsize, -, hframe⟩ := runForward_computes (hsize ▸ hw) hdone rfl
  obtain ⟨-, hssize, hvalues, hders⟩ := seedDers_start hkept (hfsize.trans hsize) hne
  have hstate : (seededRun call net o r).store = (seedDers net o (runForward call .forward
      (layers.map (forwardOf (slotIn nodes))) r).state).state.store := by
    unfold seededRun
    rw [h.forward, Outcome.andThen_state _ hdone]
  rw [hstate]
  refine ⟨hssize, fun k n hn hrole => ?_, fun k hk => ?_⟩
  · rw [hvalues _ (valueSlot_mod_two k), hframe]
    exact fun p hp => mt valueSlot_inj.mp (h.ne_of_leaf hn hrole hp).symm
  · rw [hders k hk]
    exact startAt_congr (hframe _ fun p _ => ne_valueSlot (valueSlot_succ_mod_two k) p.place).symm

/-- After the seeding runs that started with the same inputs and parameters have the same values. -/
theorem Streams.seededRun_agree (h : Streams nodes layers net) (ho : Ordered nodes)
    {o' : EvalOptions F} {r' : RunState F} (hsize : r.store.size = 2 * nodes.length)
    (hsize' : r'.store.size = 2 * nodes.length) (hprofile : r'.profile = r.profile)
    (hleaves : ∀ k n, nodes[k]? = some n → n.application? = none →
      r'.store.content (valueSlot k) = r.store.content (valueSlot k))
    (hdone : (runForward call .forward net.forward r).error = none) {k : Nat} (hk : k % 2 = 0) :
    (seededRun call net o' r').store.content k = (seededRun call net o r).store.content k := by
  have hw := h.wellPlaced ho
  have hagree := h.agreeExcept hsize hsize' hprofile hleaves
  rw [h.forward] at hdone
  obtain ⟨herror, hstate⟩ := runForward_agree call .forward (hsize ▸ hw) hagree
  have hdone' := herror.trans hdone
  unfold seededRun
  rw [h.forward, Outcome.andThen_state _ hdone, Outcome.andThen_state _ hdone']
  exact ((seedDers_frame hk).2.trans ((hstate hdone).content_even hk)).trans
    (seedDers_frame hk).2.symm

end

/-! ### Indexing layers -/

/-- The sources of indexing layers are nodes. -/
def SourcesNodes (nodes : List (Node F)) : Prop :=
  ∀ k a, (k, a) ∈ layersOf nodes → a.op.scatter = true → ∃ h rest, a.args = .node h :: rest

/-- Sparse updates of the nodes at some places, called on a store, make real arrays. -/
def RealUpdates (nodes : List (Node F)) (counted : Nat → Prop) (t : Store F) : Prop :=
  ∀ k a h rest j source index dy d, (k, a) ∈ layersOf nodes → a.op.scatter = true →
    a.args = .node h :: rest → slotIn nodes h = some (valueSlot j) → counted j →
    scatterArguments (adjointArguments (slotIn nodes) t k a.args) = .ok (source, index, dy) →
      source.commonDtype dy = .ok d → d.isReal = true

/-! ### Runs side by side -/

section

variable {ι : Type} {C : Nat → (ι → Value F) → Prop} {size : Nat} {r : ι → RunState F}

/-- Runs that own the same slots of stores of one size, with related contents in every slot. -/
structure Related (C : Nat → (ι → Value F) → Prop) (total : Nat) (r : ι → RunState F) : Prop where
  /-- The stores have one size. -/
  size : ∀ i, (r i).store.size = total
  /-- The runs own the same slots. -/
  owned : ∀ i j slot, slot ∈ (r i).owned ↔ slot ∈ (r j).owned
  /-- The contents of every slot are related. -/
  contents : ∀ k, k < total → C k fun i => (r i).store.content k

omit [Arith F] in
/-- Runs stay related if related contents are written to one slot. -/
theorem Related.put (h : Related C size r) {k : Nat} {u : ι → Value F} (hu : C k u) :
    Related C size fun i => (r i).put (k : Int) ((r i).store.setAt k (u i)) := by
  refine ⟨fun i => ?_, fun i j slot => ?_, fun n hn => ?_⟩
  · exact (Store.size_setAt ..).trans (h.size i)
  · unfold RunState.put
    rw [List.mem_cons, List.mem_cons, h.owned i j]
  · change C n fun i => ((r i).store.setAt k (u i)).content n
    by_cases hnk : n = k
    · subst hnk
      have hwritten : (fun i => ((r i).store.setAt n (u i)).content n) = u := by
        funext i
        exact Store.content_setAt_self (by rw [h.size i]; exact hn) _
      rw [hwritten]
      exact hu
    · have hkept : (fun i => ((r i).store.setAt k (u i)).content n)
          = fun i => (r i).store.content n := by
        funext i
        exact Store.content_setAt_of_ne _ hnk _
      rw [hkept]
      exact h.contents n hn

omit [Arith F] in
theorem Related.record (h : Related C size r) (index : Nat) (stage : Stage) (p : Instruction F) :
    Related C size fun i => (r i).record index stage p :=
  ⟨h.size, h.owned, h.contents⟩

/-- What adjoints answered for an operand is absent in all runs, or adding it keeps the relation. -/
def AnswersKeep (C : Nat → (ι → Value F) → Prop) (out : ι → List (Value F)) (j q : Nat) : Prop :=
  (∀ i, taken? (out i) q = none) ∨ ∃ v : ι → Value F, (∀ i, taken? (out i) q = some (v i)) ∧
    ∀ c u : ι → Value F, C (valueSlot j + 1) c → (∀ i, (c i).plus (v i) = .ok (u i)) →
      C (valueSlot j + 1) u

/-- Contributions keep runs related. -/
theorem contributions_related {out : ι → List (Value F)} :
    ∀ {bs : List (Int × Int)} {r : ι → RunState F},
      (∀ b ∈ bs, ∃ j q : Nat, b = (((valueSlot j : Nat) : Int), (q : Int)) ∧
        valueSlot j + 1 < size ∧ AnswersKeep C out j q) → Related C size r →
      (∀ i, (runAll (contribute (out i)) bs (r i)).error = none) →
        Related C size fun i => (runAll (contribute (out i)) bs (r i)).state := by
  intro bs
  induction bs with
  | nil =>
    intro r _ hr _
    exact hr
  | cons b bs ih =>
    intro r hbs hr hdone
    obtain ⟨j, q, rfl, hj, hkeep⟩ := hbs b (List.mem_cons_self ..)
    have hboth := fun i => runAll_cons_completed.mp (hdone i)
    have hfirst := fun i => contribute_completed (by rw [hr.size i]; exact hj) (hboth i).1
    have hstate : (fun i => (runAll (contribute (out i)) ((((valueSlot j : Nat) : Int), (q : Int))
        :: bs) (r i)).state) = fun i => (runAll (contribute (out i)) bs
          (contribute (out i) (((valueSlot j : Nat) : Int), (q : Int)) (r i)).state).state :=
      funext fun i => runAll_cons_state bs (hboth i).1
    rw [hstate]
    refine ih (fun b' hb' => hbs b' (List.mem_cons_of_mem _ hb')) ?_ fun i => (hboth i).2
    rcases hkeep with hnone | ⟨v, hv, hadd⟩
    · -- Nothing is added in any run.
      have hsame : (fun i =>
        (contribute (out i) (((valueSlot j : Nat) : Int), (q : Int)) (r i)).state)
          = r := by
        funext i
        rcases hfirst i with ⟨-, h⟩ | ⟨w, u, hw, -⟩
        · rw [h]
          rfl
        · rw [hnone i] at hw
          cases hw
      rw [hsame]
      exact hr
    -- Every run adds its own answer to its own derivative.
    · have hsum : ∀ i, ∃ u, ((r i).store.content (valueSlot j + 1)).plus (v i) = .ok u ∧
          contribute (out i) (((valueSlot j : Nat) : Int), (q : Int)) (r i) = .done ((r i).put
            ((valueSlot j + 1 : Nat) : Int) ((r i).store.setAt (valueSlot j + 1) u)) := by
        intro i
        rcases hfirst i with ⟨hnone, -⟩ | ⟨w, u, hw, hu, h⟩
        · rw [hv i] at hnone
          cases hnone
        · rw [hv i] at hw
          cases hw
          exact ⟨u, hu, h⟩
      choose u hu hput using hsum
      have hstate : (fun i => (contribute (out i) (((valueSlot j : Nat) : Int), (q : Int))
          (r i)).state) = fun i => (r i).put ((valueSlot j + 1 : Nat) : Int)
            ((r i).store.setAt (valueSlot j + 1) (u i)) := by
        funext i
        rw [hput i]
        rfl
      rw [hstate]
      exact hr.put (hadd _ u (hr.contents _ hj) hu)

variable {slotOf : Handle → Option Nat}

/-- Additions of a layer's backward instruction keep a relation, if the instruction is called on
given stores. -/
structure StepKeeps (C : Nat → (ι → Value F) → Prop) (call : Calls F)
    (slotOf : Handle → Option Nat) (p : Placed F) (s : ι → Store F) : Prop where
  /-- What adjoints answer keeps the relation. -/
  answers : p.layer.op.scatter = false → ∀ out : ι → List (Value F),
    (∀ i, adjointAnswer call (derCountOf slotOf p.layer) p.layer
      (adjointArguments slotOf (s i) p.place p.layer.args) = .ok (out i)) →
    ∀ j q : Nat, (((valueSlot j : Nat) : Int), (q : Int)) ∈ adjointOperands slotOf p.layer.args →
      AnswersKeep C out j q
  /-- Sparse updates keep the relation. -/
  updates : p.layer.op.scatter = true → ∀ h rest j, p.layer.args = .node h :: rest →
    slotOf h = some (valueSlot j) → ∀ (owned : Bool) (source index dy c target u : ι → Value F),
      (∀ i, scatterArguments (adjointArguments slotOf (s i) p.place p.layer.args)
        = .ok (source i, index i, dy i)) → C (valueSlot j + 1) c →
      (∀ i, scatterTarget owned (c i) (source i) (dy i) = .ok (target i)) →
      (∀ i, addInto (target i) (index i) (dy i) = .ok (u i)) → C (valueSlot j + 1) u

variable {layers : List (Placed F)}

/-- A backward instruction keeps runs related, if its additions do. -/
theorem backwardStep_related (hw : WellPlaced slotOf size layers) {p : Placed F} (hp : p ∈ layers)
    (hsource : p.layer.op.scatter = true → ∃ h rest, p.layer.args = .node h :: rest)
    {call : Calls F} {index : Nat} (hr : Related C size r)
    (hstep : StepKeeps C call slotOf p fun i => (r i).store)
    (hdone : ∀ i, (backwardStep call (backwardOf slotOf p, index) (r i)).error = none) :
    Related C size fun i => (backwardStep call (backwardOf slotOf p, index) (r i)).state := by
  have hslots : ∀ i h k, slotOf h = some k → k < (r i).store.size := fun i => hr.size i ▸ hw.slot_lt
  have hown : ∀ i, valueSlot p.place + 1 < (r i).store.size := fun i => hr.size i ▸ hw.inStore p hp
  have hder : ∀ {j}, j < p.place → valueSlot j + 1 < size := by
    intro j hj
    have := hw.inStore p hp
    have := valueSlot_lt_valueSlot.mpr hj
    omega
  cases hscatter : p.layer.op.scatter with
  | false =>
    have hall := fun i => backwardStep_completed_dense (hslots i) (hown i) hscatter (hdone i)
    -- An instruction with an adjoint contributes its results one by one.
    choose out hout hrun hstate using hall
    rw [funext hstate]
    refine (contributions_related (fun b hb => ?_) hr hrun).record ..
    obtain ⟨j, q, rfl, hj⟩ := hw.operands hp hb
    exact ⟨j, q, rfl, hder hj, hstep.answers hscatter out hout j q hb⟩
  | true =>
    obtain ⟨h, rest, hargs⟩ := hsource hscatter
    obtain ⟨j, hj, hslot⟩ := hw.earlier p hp h (by rw [hargs]; exact List.mem_cons_self ..)
    have hfirst : (backwardOf slotOf p).inputVars.head? = some ((valueSlot j : Nat) : Int) := by
      rw [hw.head_inputVars_backwardOf hp, hargs, List.findSome?_cons, Value.node?_node,
        Option.bind_some, hslot]
      rfl
    have hall := fun i => backwardStep_completed_sparse (hslots i) (hown i) hscatter hfirst
      (by rw [hr.size i]; exact hder hj) (hdone i)
    choose source i dy target v hthree htarget hv hstate using hall
    rw [funext hstate]
    refine Related.record ?_ ..
    -- Which slots the pass has made is the same in all runs, so one run tells it for all.
    have hu : C (valueSlot j + 1) v := by
      cases isEmpty_or_nonempty ι with
      | inl hempty =>
        refine hstep.updates hscatter h rest j hargs hslot true source i dy _ target v hthree
          (hr.contents _ (hder hj)) (fun k => hempty.elim k) fun k => hempty.elim k
      | inr hnonempty =>
        obtain ⟨k₀⟩ := hnonempty
        refine hstep.updates hscatter h rest j hargs hslot
          ((r k₀).owned.contains ((valueSlot j + 1 : Nat) : Int)) source i dy _ target v hthree
          (hr.contents _ (hder hj)) (fun k => ?_) hv
        have hsame : (r k₀).owned.contains ((valueSlot j + 1 : Nat) : Int)
            = (r k).owned.contains ((valueSlot j + 1 : Nat) : Int) := by
          rw [Bool.eq_iff_iff, List.contains_iff_mem, List.contains_iff_mem]
          exact hr.owned k₀ k _
        rw [hsame]
        exact htarget k
    have hput := hr.put hu
    refine ⟨hput.size, fun a b slot => ?_, hput.contents⟩
    have howned := hput.owned a b slot
    unfold RunState.put at howned ⊢
    dsimp only at howned ⊢
    simp only [List.mem_cons] at howned ⊢
    tauto

omit [Arith F] in
/-- What an adjoint is called with depends on values and on the layer's own derivative. -/
theorem WellPlaced.adjointArguments_eq (hw : WellPlaced slotOf size layers) {p : Placed F}
    (hp : p ∈ layers) {s t : Store F} (hvalues : ∀ k, k % 2 = 0 → t.content k = s.content k)
    (hder : t.content (valueSlot p.place + 1) = s.content (valueSlot p.place + 1)) :
    adjointArguments slotOf t p.place p.layer.args
      = adjointArguments slotOf s p.place p.layer.args := by
  refine adjointArguments_congr (fun v hv => Store.argument_congr ?_) hder
  rintro n k rfl hk
  obtain ⟨j, -, hslot⟩ := hw.earlier p hp n hv
  rw [hk] at hslot
  cases hslot
  exact hvalues _ (valueSlot_mod_two j)

/-- Neither a backward instruction nor those after it change what it is called with. -/
theorem WellPlaced.adjointArguments_final (hw : WellPlaced slotOf size layers)
    {p : Placed F} (hp : p ∈ layers) (call : Calls F) {stream : List (Instruction F × Nat)}
    {ls : List (Placed F)} (hstream : List.Forall₂ (fun q p => q.1 = backwardOf slotOf p) stream ls)
    (hls : ∀ p ∈ ls, p ∈ layers)
    (hsource : ∀ p ∈ ls, p.layer.op.scatter = true → ∃ h rest, p.layer.args = .node h :: rest)
    (hle : ∀ p' ∈ ls, p'.place ≤ p.place) (r : RunState F) :
    adjointArguments slotOf (runAll (backwardStep call) stream r).state.store p.place p.layer.args
      = adjointArguments slotOf r.store p.place p.layer.args :=
  hw.adjointArguments_eq hp
    (fun k hk => (hw.backward_frame hstream hls hsource call (.inl hk) r).2)
    (hw.backward_frame hstream hls hsource call (.inr fun p' hp' => by
      have := hle p' hp'
      unfold valueSlot
      omega) r).2

/-- **A backward stream keeps runs related, if the additions of its instructions do.**  It is
enough that they do on stores from which the instruction is called as on the stores that the
runs end with. -/
theorem backward_related (hw : WellPlaced slotOf size layers) (call : Calls F)
    {stream : List (Instruction F × Nat)} {ls : List (Placed F)}
    (hstream : List.Forall₂ (fun q p => q.1 = backwardOf slotOf p) stream ls)
    (hls : ∀ p ∈ ls, p ∈ layers)
    (hsource : ∀ p ∈ ls, p.layer.op.scatter = true → ∃ h rest, p.layer.args = .node h :: rest)
    (hdec : ls.Pairwise fun p q => q.place < p.place) {r : ι → RunState F} (hr : Related C size r)
    (hdone : ∀ i, (runAll (backwardStep call) stream (r i)).error = none)
    (hstep : ∀ p ∈ ls, ∀ s : ι → Store F, (∀ i, (s i).size = size) →
      (∀ k, k < size → C k fun i => (s i).content k) →
      (∀ i, adjointArguments slotOf (s i) p.place p.layer.args = adjointArguments slotOf
        (runAll (backwardStep call) stream (r i)).state.store p.place p.layer.args) →
      StepKeeps C call slotOf p s) :
    Related C size fun i => (runAll (backwardStep call) stream (r i)).state := by
  induction hstream generalizing r with
  | nil => exact hr
  | @cons q p stream ls hq hrest ih =>
    obtain ⟨i, index⟩ := q
    have hq : i = backwardOf slotOf p := hq
    subst hq
    have hp := hls p (List.mem_cons_self ..)
    have hboth := fun i => runAll_cons_completed.mp (hdone i)
    have hstate := fun i => runAll_cons_state stream (hboth i).1
    have hls' : ∀ p' ∈ ls, p' ∈ layers := fun p' hp' => hls p' (List.mem_cons_of_mem _ hp')
    have hsource' : ∀ p' ∈ ls, p'.layer.op.scatter = true →
        ∃ h rest, p'.layer.args = .node h :: rest :=
      fun p' hp' => hsource p' (List.mem_cons_of_mem _ hp')
    have hlater : ∀ p' ∈ ls, p'.place < p.place := (List.pairwise_cons.mp hdec).1
    -- What the first instruction is called with no later one changes.
    have hfinal : ∀ i, adjointArguments slotOf (r i).store p.place p.layer.args
        = adjointArguments slotOf
          (runAll (backwardStep call) ((backwardOf slotOf p, index) :: stream)
          (r i)).state.store p.place p.layer.args := fun i =>
      (hw.adjointArguments_final hp call (.cons rfl hrest) hls hsource (List.forall_mem_cons.mpr
        ⟨Nat.le_refl _, fun p' hp' => Nat.le_of_lt (hlater p' hp')⟩) (r i)).symm
    have hnext := backwardStep_related hw hp (hsource p (List.mem_cons_self ..)) hr
      (hstep p (List.mem_cons_self ..) _ hr.size hr.contents hfinal) fun i => (hboth i).1
    rw [funext hstate]
    refine ih hls' hsource' (List.pairwise_cons.mp hdec).2 hnext (fun i => (hboth i).2) ?_
    intro p' hp' s hsize hs hargs
    refine hstep p' (List.mem_cons_of_mem _ hp') s hsize hs fun i => ?_
    rw [hstate i]
    exact hargs i

end

end SlotGrad
