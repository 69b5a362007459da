import SlotGrad.Proofs.Assembly
import SlotGrad.Proofs.Contributions

/-!
# What earlier runs left behind

A slot may hold anything when an evaluation starts: what an earlier evaluation wrote, or what one
that failed had written until then.  Only the values of inputs and parameters are read before they
are written.  A forward or inference stream writes a value slot before any instruction reads it; and
when the backward stream starts, every value slot was written and every derivative slot was reset,
so that two evaluations of the same inputs and parameters go on from the same store.

## Main definitions

* `AgreeExcept` — two runs whose stores agree on the value slots of all places but some.

## Main results

* `runForward_agree` — a forward stream takes the same course from stores that agree on the slots it
  does not write.
* `evaluation_forgets` — an evaluation does not depend on what else is in the store.
-/

namespace SlotGrad

variable {F : Type}

/-! ### The forward pass -/

/-- Two runs with one record whose stores agree on the value slots of all places but some. -/
structure AgreeExcept (places : List Nat) (r r' : RunState F) : Prop where
  /-- The stores have one size. -/
  size : r'.store.size = r.store.size
  /-- The same instructions are recorded. -/
  profile : r'.profile = r.profile
  /-- The value slots of other places hold the same. -/
  values : ∀ j, j ∉ places → r'.store.content (valueSlot j) = r.store.content (valueSlot j)

/-- A write to the value slot of a place makes the stores agree there, too. -/
theorem AgreeExcept.write {place : Nat} {places : List Nat} {r r' : RunState F}
    (h : AgreeExcept (place :: places) r r') (hplace : valueSlot place < r.store.size)
    (index : Nat) (stage : Stage) (i : Instruction F) (v : Value F) :
    AgreeExcept places
      (RunState.record index stage i { r with store := r.store.setAt (valueSlot place) v })
      (RunState.record index stage i { r' with store := r'.store.setAt (valueSlot place) v }) := by
  refine ⟨?_, ?_, ?_⟩
  · simpa [RunState.record] using h.size
  · simp [RunState.record, h.profile]
  · intro j hj
    simp only [RunState.record]
    by_cases hjp : j = place
    · subst hjp
      rw [Store.content_setAt_self hplace, Store.content_setAt_self (by rw [h.size]; exact hplace)]
    · have hne : valueSlot j ≠ valueSlot place := mt valueSlot_inj.mp hjp
      rw [Store.content_setAt_of_ne _ hne, Store.content_setAt_of_ne _ hne]
      exact h.values j (by simp [hjp, hj])

section

variable {slotOf : Handle → Option Nat}

/-- A stream of forward instructions takes the same course from stores that agree on the value slots
that it does not write, and leaves stores that agree on all value slots. -/
theorem runAll_forwardStep_agree {call : Calls F} {stage : Stage} :
    ∀ {layers : List (Placed F)} {stream : List (Instruction F × Nat)},
      List.Forall₂ (fun q p => q.1 = forwardOf slotOf p) stream layers →
        ∀ {r r' : RunState F}, WellPlaced slotOf r.store.size layers →
          AgreeExcept (layers.map Placed.place) r r' →
            (runAll (forwardStep call stage) stream r').error
                = (runAll (forwardStep call stage) stream r).error ∧
              ((runAll (forwardStep call stage) stream r).error = none →
                AgreeExcept [] (runAll (forwardStep call stage) stream r).state
                  (runAll (forwardStep call stage) stream r').state) := by
  intro layers stream hrel
  induction hrel with
  | nil =>
    intro r r' _ hagree
    exact ⟨rfl, fun _ => hagree⟩
  | @cons q p stream layers hq _ ih =>
    intro r r' hw hagree
    obtain ⟨i, index⟩ := q
    have hq : i = forwardOf slotOf p := hq
    subst hq
    have hslots := hw.slot_lt
    have hplace := hw.value_lt (List.mem_cons_self ..)
    -- The layer reads smaller places, which no instruction that is still to run writes.
    have hcall : layerCall call slotOf r'.store p.layer
        = layerCall call slotOf r.store p.layer := by
      refine hw.layerCall_eq (List.mem_cons_self ..) call fun j hj => hagree.values j ?_
      simp only [List.map_cons, List.mem_cons, List.mem_map, not_or, not_exists, not_and]
      refine ⟨by omega, fun q hq => ?_⟩
      have := (List.pairwise_cons.mp hw.increasing).1 q hq
      omega
    rw [runAll_cons, runAll_cons, forwardStep_forwardOf hslots hplace,
      forwardStep_forwardOf (by rw [hagree.size]; exact hslots) (by rw [hagree.size]; exact hplace),
      hcall]
    cases layerCall call slotOf r.store p.layer with
    | error e => exact ⟨rfl, fun h => by cases h⟩
    | ok v =>
      refine ih ?_ (hagree.write hplace index stage _ v)
      change WellPlaced slotOf (r.store.setAt (valueSlot p.place) v).size layers
      rw [Store.size_setAt]
      exact hw.tail

/-- A forward stream takes the same course from stores that agree on the value slots that it
does not write, and leaves stores that agree on all value slots. -/
theorem runForward_agree (call : Calls F) (stage : Stage) {layers : List (Placed F)}
    {r r' : RunState F} (hw : WellPlaced slotOf r.store.size layers)
    (hagree : AgreeExcept (layers.map Placed.place) r r') :
    (runForward call stage (layers.map (forwardOf slotOf)) r').error
        = (runForward call stage (layers.map (forwardOf slotOf)) r).error ∧
      ((runForward call stage (layers.map (forwardOf slotOf)) r).error = none →
        AgreeExcept [] (runForward call stage (layers.map (forwardOf slotOf)) r).state
          (runForward call stage (layers.map (forwardOf slotOf)) r').state) :=
  runAll_forwardStep_agree (forall₂_zipIdx_map _ _ _) hw hagree

end

/-! ### The start of the backward pass -/

section

variable [Arith F]

/-- After a reset a slot of the store holds what it held, or zero. -/
theorem Store.content_resetDers {s : Store F} {keep : List Int} {k : Nat} (hk : k < s.size) :
    (s.resetDers keep).content k = resetSlot keep (s.content k) k := by
  unfold content resetDers
  rw [Array.getElem?_mapIdx, Array.getElem?_eq_getElem hk]
  rfl

/-- Stores that agree on their value slots and on the derivatives that a reset keeps are the same
after the reset. -/
theorem Store.resetDers_congr {s t : Store F} {keep : List Int} (hsize : t.size = s.size)
    (hvalues : ∀ k, k % 2 = 0 → t.content k = s.content k)
    (hkept : ∀ k : Nat, (k : Int) ∈ keep → t.content k = s.content k) :
    t.resetDers keep = s.resetDers keep := by
  refine Store.ext_content (by simpa using hsize) fun k => ?_
  by_cases hk : k < s.size
  · rw [content_resetDers hk, content_resetDers (hsize ▸ hk)]
    unfold resetSlot
    split
    · rfl
    · rename_i hreset
      rcases Nat.mod_two_eq_zero_or_one k with heven | hodd
      · exact hvalues k heven
      · exact hkept k (not_not.mp fun hmem => hreset ⟨hodd, hmem⟩)
  · rw [content_of_le (by simp; omega), content_of_le (by simp; omega)]

/-- Seeding writes the seed to the last slot after the reset, or stops if there is none. -/
theorem seedDers_eq (c : CompiledNet F) (o : EvalOptions F) (r : RunState F) {s : Store F}
    (hs : r.store.resetDers (keptSlots c o) = s) :
    seedDers c o r = match s.set (s.size - 1 : Int) o.seed with
      | .ok t => .done { r with store := t }
      | .error f => .stopped { r with store := s } (.fault f) := by
  unfold seedDers
  dsimp only
  rw [hs]
  cases s.set (s.size - 1 : Int) o.seed <;> rfl

/-- From stores that are the same after the reset of their derivatives, the backward pass takes the
same course. -/
theorem backward_agree {call : Calls F} {c : CompiledNet F} {o : EvalOptions F}
    {stream : List (Instruction F)} {r r' : RunState F} (hprofile : r'.profile = r.profile)
    (hreset : r'.store.resetDers (keptSlots c o) = r.store.resetDers (keptSlots c o)) :
    ((seedDers c o r').andThen (runBackward call stream)).error
        = ((seedDers c o r).andThen (runBackward call stream)).error ∧
      (((seedDers c o r).andThen (runBackward call stream)).error = none →
        ((seedDers c o r').andThen (runBackward call stream)).state
          = ((seedDers c o r).andThen (runBackward call stream)).state) := by
  rw [seedDers_eq c o r rfl, seedDers_eq c o r' hreset]
  cases (r.store.resetDers (keptSlots c o)).set
      ((r.store.resetDers (keptSlots c o)).size - 1 : Int) o.seed with
  | error f => exact ⟨rfl, fun h => by cases h⟩
  | ok t =>
    -- The stream starts without owned slots, so what the runs owned before does not matter.
    have hstart : runBackward call stream { r' with store := t }
        = runBackward call stream { r with store := t } := by
      unfold runBackward
      dsimp only
      rw [hprofile]
    simp [hstart]

/-! ### Evaluation -/

section

variable {nodes : List (Node F)} {layers : List (Placed F)} {net : CompiledNet F}

omit [Arith F] in
/-- Stores that agree on the values of inputs and parameters agree on the value slots of all places
that are no layer's. -/
theorem Streams.agreeExcept (h : Streams nodes layers net) {r r' : RunState F}
    (hsize : r.store.size = 2 * nodes.length) (hsize' : r'.store.size = 2 * nodes.length)
    (hprofile : r'.profile = r.profile)
    (hleaves : ∀ k n, nodes[k]? = some n → n.application? = none →
      r'.store.content (valueSlot k) = r.store.content (valueSlot k)) :
    AgreeExcept (layers.map Placed.place) r r' := by
  refine ⟨hsize'.trans hsize.symm, hprofile, fun k hk => ?_⟩
  cases hn : nodes[k]? with
  | none =>
    have hlen := List.getElem?_eq_none_iff.mp hn
    have hbeyond : 2 * nodes.length ≤ valueSlot k := le_valueSlot.mpr hlen
    rw [Store.content_of_le (by omega), Store.content_of_le (by omega)]
  | some n =>
    exact hleaves k n hn (h.leaf_of_ne hn fun p hp hpk => hk (List.mem_map.mpr ⟨p, hp, hpk⟩))

omit [Arith F] in
/-- Runs that agree on all value slots agree on all slots at even places. -/
theorem AgreeExcept.content_even {r r' : RunState F} (h : AgreeExcept [] r r') {k : Nat}
    (hk : k % 2 = 0) : r'.store.content k = r.store.content k := by
  obtain ⟨j, rfl⟩ := exists_valueSlot hk
  exact h.values j (by simp)

/-- A forward pass and then a backward pass take the same course from stores that agree on the
values of inputs and parameters and on the derivatives that the reset between the passes keeps. -/
theorem Streams.normal_agree (h : Streams nodes layers net) (ho : Ordered nodes) (call : Calls F)
    {o : EvalOptions F} {r r' : RunState F} (hsize : r.store.size = 2 * nodes.length)
    (hagree : AgreeExcept (layers.map Placed.place) r r')
    (hkept : ∀ k : Nat, (k : Int) ∈ keptSlots net o →
      k % 2 = 1 ∧ r'.store.content k = r.store.content k) :
    let run (r : RunState F) := ((runForward call .forward net.forward r).andThen
      (seedDers net o)).andThen (runBackward call net.backward)
    (run r').error = (run r).error ∧ ((run r).error = none → (run r').state = (run r).state) := by
  have hw := h.wellPlaced ho
  rw [← hsize] at hw
  intro run
  have hrun : ∀ r, run r = (runForward call .forward net.forward r).andThen
      fun r => (seedDers net o r).andThen (runBackward call net.backward) := fun r =>
    Outcome.andThen_assoc ..
  rw [hrun, hrun, h.forward]
  obtain ⟨herror, hstate⟩ := runForward_agree call .forward hw hagree
  cases hdone : (runForward call .forward (layers.map (forwardOf (slotIn nodes))) r).error with
  | some e =>
    have hdone' := herror.trans hdone
    unfold Outcome.andThen
    rw [hdone, hdone']
    exact ⟨hdone'.trans hdone.symm, fun h => by cases hdone.symm.trans h⟩
  | none =>
    have hdone' := herror.trans hdone
    have hagree' := hstate hdone
    have hw' : WellPlaced (slotIn nodes) r'.store.size layers := hagree.size ▸ hw
    have hframe := (runForward_computes hw hdone rfl).2.2
    have hframe' := (runForward_computes hw' hdone' rfl).2.2
    unfold Outcome.andThen
    rw [hdone, hdone']
    -- What the reset keeps is a derivative, and the forward pass leaves those alone.
    refine backward_agree hagree'.profile ?_
    refine Store.resetDers_congr hagree'.size (fun k hk => hagree'.content_even hk) ?_
    intro k hk
    obtain ⟨hodd, hcontent⟩ := hkept k hk
    have hne : ∀ p ∈ layers, k ≠ valueSlot p.place := by
      exact fun p _ => ne_valueSlot hodd p.place
    rw [hframe k hne, hframe' k hne, hcontent]

end

/-- **Evaluation forgets.**  Two evaluations of one net in one mode, from stores of the net's size
that agree on the values of inputs and parameters (and, if parameter derivatives are added to those
already there, on these), stop with the same error or both complete; and then the stores agree on
every slot in normal mode, and on every value slot in the other modes. -/
theorem evaluation_forgets [Interchange F] {checks : Checks F} {known : Node F → Bool}
    {nodes : List (Node F)} {roots : Option (List Handle)} {options : Options F}
    {c : Compilation F} (hc : compileNodes checks known nodes roots options = .ok c)
    (ho : Ordered nodes) (call : Calls F) (mode : Mode) (o : EvalOptions F) (r r' : RunState F)
    (hsize : r.store.size = 2 * nodes.length) (hsize' : r'.store.size = 2 * nodes.length)
    (hprofile : r'.profile = r.profile)
    (hleaves : ∀ k n, nodes[k]? = some n → n.application? = none →
      r'.store.content (valueSlot k) = r.store.content (valueSlot k))
    (hkept : mode = .normal → o.accumulate = true → ∀ k n, nodes[k]? = some n → n.kind = .param →
      r'.store.content (valueSlot k + 1) = r.store.content (valueSlot k + 1)) :
    (evaluate call c.net mode o r').error = (evaluate call c.net mode o r).error ∧
      ((evaluate call c.net mode o r).error = none → ∀ k, mode = .normal ∨ k % 2 = 0 →
        (evaluate call c.net mode o r').state.store.content k
          = (evaluate call c.net mode o r).state.store.content k) := by
  obtain ⟨-, names, heads, hlen, hnet⟩ := compileNodes_assembled hc
  have hs := assemble_streams hlen hnet
  have hagree := hs.agreeExcept hsize hsize' hprofile hleaves
  -- Whether the request is accepted depends on the size of the store alone.
  have hcheck : checkRequest c.net mode o r'.store = checkRequest c.net mode o r.store := by
    unfold checkRequest
    rw [hagree.size]
  unfold evaluate
  rw [hcheck]
  cases checkRequest c.net mode o r.store with
  | error e => exact ⟨rfl, fun h => by cases h⟩
  | ok u =>
    cases mode with
    | forward =>
      dsimp only
      rw [hs.forward]
      obtain ⟨herror, hstate⟩ := runForward_agree call .forward
        (hsize ▸ hs.wellPlaced ho) hagree
      exact ⟨herror, fun hdone k hk => (hstate hdone).content_even (hk.resolve_left (by simp))⟩
    | inference =>
      dsimp only
      -- The stream for inference mode writes the same slots as the forward stream.
      have hplaces : (placedLayers nodes names).map Placed.place
          = ((placedLayers nodes names).map Placed.inference).map Placed.place := by
        rw [List.map_map]
        rfl
      rw [assemble_test hnet]
      obtain ⟨herror, hstate⟩ := runForward_agree call .inference
        (hsize ▸ hs.inference ho) (hplaces ▸ hagree)
      exact ⟨herror, fun hdone k hk => (hstate hdone).content_even (hk.resolve_left (by simp))⟩
    | normal =>
      -- What is not reset are the parameters' derivatives, on which the stores agree.
      have hsame : ∀ k : Nat, (k : Int) ∈ keptSlots c.net o →
          k % 2 = 1 ∧ r'.store.content k = r.store.content k := by
        intro k hk
        obtain ⟨hacc, j, hkind, hslot⟩ := (mem_keptSlots hlen hnet).mp hk
        obtain ⟨n, hn, hkind⟩ := Option.map_eq_some_iff.mp hkind
        obtain rfl : k = valueSlot j + 1 := by omega
        exact ⟨valueSlot_succ_mod_two j, hkept rfl hacc j n hn hkind⟩
      obtain ⟨herror, hstate⟩ := hs.normal_agree ho call hsize hagree hsame
      exact ⟨herror, fun hdone k _ => by rw [hstate hdone]⟩

/-- The store of a squared parameter with a derivative from an earlier run, and something in the
slots of the square. -/
def squareStore (value der : Value ℚ) : Store ℚ := ⟨#[.real 3, .real 5, value, der], by simp⟩

theorem evaluation_forgets_squared_parameter :
    ∃ c, compileNodes [] (fun _ => true) squaredParameter none plainOptions = .ok c ∧
      (evaluate builtinCalls c.net .normal ⟨.real 1, true⟩
        ⟨squareStore .none .none, [], none⟩).error = none ∧
      ∀ k, (evaluate builtinCalls c.net .normal ⟨.real 1, true⟩
          ⟨squareStore (.text "stale") (pair 1 2), [1, 3], none⟩).state.store.content k
        = (evaluate builtinCalls c.net .normal ⟨.real 1, true⟩
          ⟨squareStore .none .none, [], none⟩).state.store.content k := by
  obtain ⟨c, hc⟩ := exists_of_isOk
    (show (compileNodes [] (fun _ => true) squaredParameter none plainOptions).isOk = true from rfl)
  have ho : Ordered squaredParameter := ⟨by decide, violations_eq_nil_iff.mp rfl⟩
  have hdone : (evaluate builtinCalls c.net .normal ⟨.real 1, true⟩
      ⟨squareStore .none .none, [], none⟩).error = none := by
    cases hc
    rfl
  have hleaf : ∀ k n, squaredParameter[k]? = some n → n.kind = .param → k = 0 := by
    intro k n hn hkind
    rcases k with _ | _ | k
    · rfl
    · cases hn
      cases hkind
    · cases hn
  refine ⟨c, hc, hdone, fun k => ?_⟩
  refine (evaluation_forgets hc ho builtinCalls .normal ⟨.real 1, true⟩
    ⟨squareStore .none .none, [], none⟩
    ⟨squareStore (.text "stale") (pair 1 2), [1, 3], none⟩ rfl rfl rfl ?_ ?_).2 hdone k (.inl rfl)
  · intro k n hn hrole
    rcases k with _ | _ | k
    · rfl
    · cases hn
      cases hrole
    · cases hn
  · intro _ _ k n hn hkind
    rw [hleaf k n hn hkind]
    rfl

end

end SlotGrad
