import SlotGrad.Net
import SlotGrad.Proofs.Builtins
import SlotGrad.Proofs.Exact
import SlotGrad.Proofs.Streams

/-!
# What the passes may write

A forward instruction writes its output slot, which is the value slot of a layer.  A backward
instruction writes the derivative slots of its operands and nothing else.  An indexing layer has
one target, the derivative slot of its first recorded input, and its first recorded input is its
source only if some argument is a node: a layer that indexes a constant at a constant place records
nothing but its own derivative slot, and the slot after that one is the value slot of the next node.

## Main definitions

* `Instruction.targets` — the slots that a backward instruction writes.
* `ReadsNode` — a layer that has a node among its arguments.

## Main results

* `runForward_frame` — a forward stream changes no slot but the outputs of its instructions.
* `runBackward_frame` — a backward stream changes no slot but the targets of its instructions.
* `backward_keeps_values` — if indexing layers read nodes, values outlive the backward pass; and an
  indexing layer that reads none overwrites the value slot after its own derivative.
-/

namespace SlotGrad

variable {F : Type}

/-! ### Writes -/

theorem Store.content_set_of_ne {s t : Store F} {slot : Int} {v : Value F} {k : Nat}
    (h : s.set slot v = .ok t) (hk : locate? s.size slot ≠ some k) :
    t.content k = s.content k := by
  unfold Store.set at h
  split at h
  · rename_i j hj
    cases h
    refine Store.content_setAt_of_ne s ?_ v
    rintro rfl
    exact hk hj
  · cases h

/-- A store of the same size with the same content at a place. -/
def SameAt (k : Nat) (s t : Store F) : Prop := t.size = s.size ∧ t.content k = s.content k

theorem SameAt.refl (k : Nat) (s : Store F) : SameAt k s s := ⟨rfl, rfl⟩

theorem SameAt.trans {k : Nat} {s t u : Store F} (h : SameAt k s t) (h' : SameAt k t u) :
    SameAt k s u :=
  ⟨h'.1.trans h.1, h'.2.trans h.2⟩

theorem SameAt.of_set {k : Nat} {s t : Store F} {slot : Int} {v : Value F}
    (h : s.set slot v = .ok t) (hk : locate? s.size slot ≠ some k) : SameAt k s t :=
  ⟨Store.size_set h, Store.content_set_of_ne h hk⟩

/-! ### Targets -/

/-- The slots that a backward instruction writes. -/
def Instruction.targets (i : Instruction F) : List Int :=
  if i.op.scatter then (i.inputVars.head?.map derSlot).toList
  else (operands i).map fun b => derSlot b.1

/-- A layer that has a node among its arguments. -/
def ReadsNode (a : Application F) : Prop := ∃ h, Value.node h ∈ a.args

/-- The operands of a backward instruction are those of the layer. -/
theorem operands_backwardOf (slotOf : Handle → Option Nat) (p : Placed F) :
    operands (backwardOf slotOf p) = adjointOperands slotOf p.layer.args := by
  unfold operands backwardOf
  rw [List.dropLast_concat, List.dropLast_concat, zip_map_fst_snd]

/-- The targets of a layer that is no indexing layer or reads a node are derivative slots of nodes
that it reads. -/
theorem targets_backwardOf {nodes : List (Node F)} {p : Placed F}
    (h : p.layer.op.scatter = true → ReadsNode p.layer)
    (hlocated : ∀ h, Value.node h ∈ p.layer.args → (slotIn nodes h).isSome) {slot : Int}
    (hslot : slot ∈ (backwardOf (slotIn nodes) p).targets) :
    ∃ j, j < nodes.length ∧ slot = ((valueSlot j + 1 : Nat) : Int) := by
  -- A target is the derivative slot of an operand's slot, and operands are nodes with slots.
  have hvar : ∀ var ∈ (operandSlots (slotIn nodes) 0 p.layer.args).map Prod.fst,
      ∃ j, j < nodes.length ∧ derSlot var = ((valueSlot j + 1 : Nat) : Int) := by
    intro var hvar
    obtain ⟨b, hb, rfl⟩ := List.mem_map.mp hvar
    obtain ⟨q, h, k, -, hk, rfl⟩ := mem_operandSlots.mp hb
    obtain ⟨j, hj, rfl⟩ := slotIn_eq_some.mp hk
    exact ⟨j, position?_lt hj, rfl⟩
  unfold Instruction.targets at hslot
  split at hslot
  · rename_i hscatter
    obtain ⟨h₀, hnode⟩ := h hscatter
    obtain ⟨k₀, hk₀⟩ := Option.isSome_iff_exists.mp (hlocated h₀ hnode)
    obtain ⟨q, hq⟩ := List.mem_iff_getElem?.mp hnode
    have hmem : ((k₀ : Nat) : Int) ∈ (operandSlots (slotIn nodes) 0 p.layer.args).map Prod.fst :=
      List.mem_map.mpr ⟨_, mem_operandSlots.mpr ⟨q, h₀, k₀, hq, hk₀, rfl⟩, rfl⟩
    cases hvars : (operandSlots (slotIn nodes) 0 p.layer.args).map Prod.fst with
    | nil =>
      rw [hvars] at hmem
      cases hmem
    | cons var vars =>
      have hhead : (backwardOf (slotIn nodes) p).inputVars.head? = some var := by
        unfold backwardOf
        rw [adjointOperands_fst, hvars]
        rfl
      rw [hhead] at hslot
      rw [List.mem_singleton.mp hslot]
      exact hvar var (by rw [hvars]; exact List.mem_cons_self ..)
  · obtain ⟨b, hb, rfl⟩ := List.mem_map.mp hslot
    rw [operands_backwardOf] at hb
    refine hvar b.1 ?_
    rw [← adjointOperands_fst]
    exact List.mem_map.mpr ⟨b, hb, rfl⟩

/-- A layer that reads no node has no operands. -/
theorem operandSlots_eq_nil {slotOf : Handle → Option Nat} {a : Application F}
    (h : ¬ ReadsNode a) (k : Nat) : operandSlots slotOf k a.args = [] := by
  rw [List.eq_nil_iff_forall_not_mem]
  intro b hb
  obtain ⟨q, n, slot, hq, -, -⟩ := mem_operandSlots.mp hb
  exact h ⟨n, List.mem_of_getElem? hq⟩

/-- What an indexing layer that reads no node records is its own derivative slot. -/
theorem inputVars_backwardOf {slotOf : Handle → Option Nat} {p : Placed F}
    (h : ¬ ReadsNode p.layer) :
    (backwardOf slotOf p).inputVars = [((valueSlot p.place + 1 : Nat) : Int)] := by
  unfold backwardOf
  rw [adjointOperands_fst, operandSlots_eq_nil h]
  rfl

/-! ### The forward pass -/

/-- A forward instruction changes no slot but its output, also when it fails. -/
theorem forwardStep_frame {call : Calls F} {stage : Stage} {p : Instruction F × Nat}
    {r : RunState F} {k : Nat}
    (hk : ∀ slot, p.1.outputVar = some slot → locate? r.store.size slot ≠ some k) :
    SameAt k r.store (forwardStep call stage p r).state.store := by
  unfold forwardStep
  refine Outcome.attempt_state (P := fun r' : RunState F => SameAt k r.store r'.store)
    (SameAt.refl k r.store) ?_
  intro t ht
  obtain ⟨v, -, h⟩ := bind_eq_ok.mp ht
  obtain ⟨s, hs, h⟩ := bind_eq_ok.mp h
  rw [← pure_eq_ok.mp h]
  have hs := liftM_eq_ok.mp hs
  unfold writeOutput at hs
  split at hs
  · rename_i slot hslot
    exact SameAt.of_set hs (hk slot hslot)
  · cases hs

/-- A forward stream changes no slot but the outputs of its instructions, also when it fails. -/
theorem runForward_frame {call : Calls F} {stage : Stage} {stream : List (Instruction F)}
    {r : RunState F} {k : Nat}
    (hk : ∀ i ∈ stream, ∀ slot, i.outputVar = some slot →
      locate? r.store.size slot ≠ some k) :
    SameAt k r.store (runForward call stage stream r).state.store := by
  unfold runForward
  refine runAll_invariant (P := fun r' : RunState F => SameAt k r.store r'.store) stream.zipIdx
    ?_ r (SameAt.refl k r.store)
  intro p hp r' hr'
  refine hr'.trans (forwardStep_frame ?_)
  rw [hr'.1]
  exact hk p.1 (List.fst_mem_of_mem_zipIdx hp)

/-! ### The backward pass -/

variable [Arith F]

theorem Store.accumulate_eq_ok {s t : Store F} {slot : Int} {v : Value F} :
    s.accumulate slot v = .ok t ↔ ∃ w u, s.get slot = .ok w ∧
      (if w.isNone then Store.zero else w).add v = .ok u ∧ s.set slot u = .ok t := by
  unfold Store.accumulate
  rw [bind_eq_ok]
  constructor
  · rintro ⟨w, hw, h⟩
    obtain ⟨u, hu, h⟩ := bind_eq_ok.mp h
    exact ⟨w, u, hw, hu, h⟩
  · rintro ⟨w, u, hw, hu, h⟩
    exact ⟨w, hw, bind_eq_ok.mpr ⟨u, hu, h⟩⟩

theorem contribute_frame {out : List (Value F)} {b : Int × Int} {r : RunState F} {k : Nat}
    (hk : locate? r.store.size (derSlot b.1) ≠ some k) :
    SameAt k r.store (contribute out b r).state.store := by
  unfold contribute
  refine Outcome.attempt_state (P := fun r' : RunState F => SameAt k r.store r'.store)
    (SameAt.refl k r.store) ?_
  intro t ht
  obtain ⟨o, -, h⟩ := bind_eq_ok.mp ht
  cases o with
  | none =>
    rw [← pure_eq_ok.mp h]
    exact SameAt.refl k r.store
  | some v =>
    dsimp only at h
    split at h
    · rw [← pure_eq_ok.mp h]
      exact SameAt.refl k r.store
    · obtain ⟨s, hs, h⟩ := bind_eq_ok.mp h
      obtain ⟨w, u, -, -, hset⟩ := Store.accumulate_eq_ok.mp (liftM_eq_ok.mp hs)
      rw [← pure_eq_ok.mp h]
      exact SameAt.of_set hset hk

theorem adjointStep_frame {call : Calls F} {i : Instruction F} {c : Count F}
    {args : List (Value F)} {r : RunState F} {k : Nat}
    (hk : ∀ b ∈ operands i, locate? r.store.size (derSlot b.1) ≠ some k) :
    SameAt k r.store (adjointStep call i c args r).state.store := by
  unfold adjointStep
  dsimp only
  split
  · exact SameAt.refl k r.store
  · rename_i out _
    refine runAll_invariant (P := fun r' : RunState F => SameAt k r.store r'.store) (operands i)
      ?_ r (SameAt.refl k r.store)
    intro b hb r' hr'
    refine hr'.trans (contribute_frame ?_)
    rw [hr'.1]
    exact hk b hb

theorem scatterStep_frame {i : Instruction F} {args : List (Value F)} {r : RunState F} {k : Nat}
    (hk : ∀ slot, i.inputVars.head? = some slot → locate? r.store.size (derSlot slot) ≠ some k) :
    SameAt k r.store (scatterStep i args r).state.store := by
  unfold scatterStep
  dsimp only
  split
  · exact SameAt.refl k r.store
  · rename_i slot target index dy hprepared
    -- The slot that is prepared is the derivative slot of the first recorded input.
    have hslot : locate? r.store.size slot ≠ some k := by
      obtain ⟨⟨source, index', dy'⟩, -, h⟩ := bind_eq_ok.mp hprepared
      obtain ⟨var, hvar, h⟩ := bind_eq_ok.mp h
      obtain ⟨current, -, h⟩ := bind_eq_ok.mp h
      obtain ⟨target', -, h⟩ := bind_eq_ok.mp h
      cases pure_eq_ok.mp h
      exact hk var (ofOption_eq_ok.mp hvar)
    have hchange : ∀ (v : Value F) (r' : RunState F), SameAt k r.store r'.store →
        SameAt k r.store (Outcome.attempt r' (do
          return r'.put slot (← r'.store.set slot v))).state.store := by
      intro v r' hr'
      refine Outcome.attempt_state (P := fun r'' : RunState F => SameAt k r.store r''.store)
        hr' ?_
      intro t ht
      obtain ⟨s, hs, h⟩ := bind_eq_ok.mp ht
      rw [← pure_eq_ok.mp h]
      refine hr'.trans (SameAt.of_set (liftM_eq_ok.mp hs) ?_)
      rw [hr'.1]
      exact hslot
    refine Outcome.andThen_keeps (P := fun r' : RunState F => SameAt k r.store r'.store)
      (hchange target r (SameAt.refl k r.store)) ?_
    intro r' hr'
    split
    · exact hr'
    · exact hchange _ r' hr'

/-- A backward instruction changes no slot but its targets, also when it fails. -/
theorem backwardStep_frame {call : Calls F} {p : Instruction F × Nat} {r : RunState F} {k : Nat}
    (hk : ∀ slot ∈ p.1.targets, locate? r.store.size slot ≠ some k) :
    SameAt k r.store (backwardStep call p r).state.store := by
  obtain ⟨i, idx⟩ := p
  unfold backwardStep
  dsimp only
  refine Outcome.andThen_keeps (P := fun r' : RunState F => SameAt k r.store r'.store) ?_
    (fun r' hr' => hr')
  split
  · exact SameAt.refl k r.store
  · rename_i args _
    unfold Instruction.targets at hk
    split
    · rename_i hscatter
      rw [if_pos hscatter] at hk
      refine scatterStep_frame ?_
      intro slot hslot
      refine hk (derSlot slot) ?_
      rw [hslot]
      exact List.mem_singleton.mpr rfl
    · rename_i hscatter
      rw [if_neg hscatter] at hk
      split
      · split
        · refine adjointStep_frame ?_
          intro b hb
          exact hk _ (List.mem_map.mpr ⟨b, hb, rfl⟩)
        · exact SameAt.refl k r.store
      · exact SameAt.refl k r.store

/-- A backward stream changes no slot but the targets of its instructions, also when it fails. -/
theorem runBackward_frame {call : Calls F} {stream : List (Instruction F)} {r : RunState F}
    {k : Nat} (hk : ∀ i ∈ stream, ∀ slot ∈ i.targets, locate? r.store.size slot ≠ some k) :
    SameAt k r.store (runBackward call stream r).state.store := by
  unfold runBackward
  refine runAll_invariant (P := fun r' : RunState F => SameAt k r.store r'.store) stream.zipIdx
    ?_ _ (SameAt.refl k r.store)
  intro p hp r' hr'
  refine hr'.trans (backwardStep_frame ?_)
  rw [hr'.1]
  exact hk p.1 (List.fst_mem_of_mem_zipIdx hp)

/-- Seeding changes no slot at an even place. -/
theorem seedDers_frame {c : CompiledNet F} {o : EvalOptions F} {r : RunState F} {k : Nat}
    (heven : k % 2 = 0) : SameAt k r.store (seedDers c o r).state.store := by
  have hreset : SameAt k r.store (r.store.resetDers (keptSlots c o)) := by
    refine ⟨Store.size_resetDers _ _, ?_⟩
    unfold Store.content Store.resetDers
    rw [Array.getElem?_mapIdx]
    cases r.store.slots[k]? with
    | none => rfl
    | some v =>
      have hkeep : Store.resetSlot (keptSlots c o) v k = v := by
        unfold Store.resetSlot
        rw [if_neg (by omega)]
      simp [hkeep]
  unfold seedDers
  dsimp only
  refine Outcome.attempt_state (P := fun r' : RunState F => SameAt k r.store r'.store) hreset ?_
  intro t ht
  obtain ⟨s, hs, h⟩ := bind_eq_ok.mp ht
  rw [← pure_eq_ok.mp h]
  refine hreset.trans (SameAt.of_set (liftM_eq_ok.mp hs) ?_)
  -- The seed goes to the last slot, which has an odd place.
  have hsize : (r.store.resetDers (keptSlots c o)).size % 2 = 0 := Store.even _
  unfold locate?
  intro h
  split at h
  · simp only [Option.some.injEq] at h
    omega
  · split at h
    · simp only [Option.some.injEq] at h
      omega
    · cases h

/-- A completed sparse update prepares the derivative slot of the first recorded input and then adds
the derivative of the output at the index. -/
theorem scatterStep_completed {i : Instruction F} {args : List (Value F)} {r : RunState F} {k : Nat}
    (hvar : (i.inputVars.head?).map derSlot = some (k : Int))
    (hdone : (scatterStep i args r).error = none) :
    k < r.store.size ∧ ∃ source index dy target v, scatterArguments args = .ok (source, index, dy) ∧
      scatterTarget (r.owned.contains (k : Int)) (r.store.content k) source dy = .ok target ∧
      addInto target index dy = .ok v ∧
      (scatterStep i args r).state.store = (r.store.setAt k target).setAt k v := by
  unfold scatterStep at hdone ⊢
  dsimp only at hdone ⊢
  split at hdone
  · cases hdone
  · rename_i slot target index dy hprepared
    obtain ⟨⟨source, index', dy'⟩, harguments, h⟩ := bind_eq_ok.mp hprepared
    obtain ⟨var, hv, h⟩ := bind_eq_ok.mp h
    obtain ⟨current, hcurrent, h⟩ := bind_eq_ok.mp h
    obtain ⟨target', htarget, h⟩ := bind_eq_ok.mp h
    cases pure_eq_ok.mp h
    have hslot : derSlot var = (k : Int) := by
      rw [ofOption_eq_ok.mp hv] at hvar
      exact Option.some.inj hvar
    rw [hslot] at hcurrent htarget hdone ⊢
    obtain ⟨hfirst, hsecond⟩ := Outcome.andThen_completed.mp hdone
    rw [Outcome.andThen_state _ hfirst]
    -- The first write shows that the slot is in the store.
    obtain ⟨s, hs, hr⟩ := bind_eq_ok.mp (Outcome.attempt_completed.mp hfirst)
    obtain ⟨hlt, hstore⟩ := Store.set_natCast_eq_ok.mp (liftM_eq_ok.mp hs)
    rw [Store.get_natCast hlt] at hcurrent
    cases hcurrent
    refine ⟨hlt, source, index', dy', target, ?_⟩
    split at hsecond
    · cases hsecond
    · rename_i v hadd
      obtain ⟨s', hs', hr'⟩ := bind_eq_ok.mp (Outcome.attempt_completed.mp hsecond)
      obtain ⟨-, hstore'⟩ := Store.set_natCast_eq_ok.mp (liftM_eq_ok.mp hs')
      refine ⟨v, harguments, htarget, hadd, ?_⟩
      rw [← pure_eq_ok.mp hr', RunState.put, ← hstore', ← pure_eq_ok.mp hr, RunState.put, ← hstore]

/-- A completed sparse update has found its three arguments. -/
theorem scatterStep_arguments {i : Instruction F} {args : List (Value F)} {r : RunState F}
    (hdone : (scatterStep i args r).error = none) :
    ∃ source index dy, scatterArguments args = .ok (source, index, dy) := by
  unfold scatterStep at hdone
  dsimp only at hdone
  split at hdone
  · cases hdone
  · rename_i hprepared
    obtain ⟨⟨source, index, dy⟩, hargs, -⟩ := bind_eq_ok.mp hprepared
    exact ⟨source, index, dy, hargs⟩

/-- A completed sparse update leaves an array in the derivative slot of the first recorded input,
which is in the store. -/
theorem scatterStep_writes {i : Instruction F} {args : List (Value F)} {r : RunState F} {k : Nat}
    (hvar : (i.inputVars.head?).map derSlot = some (k : Int))
    (hdone : (scatterStep i args r).error = none) :
    k < r.store.size ∧ ∃ t, (scatterStep i args r).state.store.content k = .array t := by
  obtain ⟨hlt, source, index, dy, target, v, -, -, hadd, hstore⟩ :=
    scatterStep_completed hvar hdone
  obtain ⟨t, rfl⟩ : ∃ t, v = .array t := by
    unfold addInto at hadd
    split at hadd
    · obtain ⟨t, -, ht⟩ := bind_eq_ok.mp hadd
      exact ⟨t, (pure_eq_ok.mp ht).symm⟩
    · cases hadd
  refine ⟨hlt, t, ?_⟩
  rw [hstore]
  exact Store.content_setAt_self (by rwa [Store.size_setAt]) _

/-! ### Compiled nets -/

section

variable {nodes : List (Node F)} {layers : List (Placed F)} {net : CompiledNet F}

/-- Every place that is not among the slots is another one. -/
theorem locate?_ne_of_ne {size j k : Nat} (h : j ≠ k) : locate? size (j : Int) ≠ some k := by
  intro hloc
  unfold locate? at hloc
  split at hloc
  · simp only [Option.some.injEq] at hloc
    omega
  · split at hloc
    · omega
    · cases hloc

omit [Arith F] in
/-- The slots that a backward instruction of a compiled net reads are in the store. -/
theorem Streams.backward_reads (h : Streams nodes layers net) {i : Instruction F}
    (hi : i ∈ net.backward) {slot : Int} (hslot : slot ∈ i.inputVars) :
    0 ≤ slot ∧ slot < net.numVars := by
  rw [h.backward] at hi
  obtain ⟨p, hp, rfl⟩ := List.mem_map.mp hi
  have hplace := h.place_lt (List.mem_reverse.mp hp)
  rw [h.numVars]
  unfold backwardOf at hslot
  rw [adjointOperands_fst] at hslot
  rcases List.mem_append.mp hslot with hslot | hslot
  · obtain ⟨b, hb, rfl⟩ := List.mem_map.mp hslot
    obtain ⟨q, n, k, -, hk, rfl⟩ := mem_operandSlots.mp hb
    have := slotIn_lt hk
    omega
  · rw [List.mem_singleton.mp hslot]
    unfold derSlot valueSlot
    omega

omit [Arith F] in
/-- No forward instruction of a compiled net writes the value slot of an input or a parameter. -/
theorem Streams.forward_frame (h : Streams nodes layers net) {k : Nat} {n : Node F}
    (hn : nodes[k]? = some n) (hrole : n.application? = none) {call : Calls F} {stage : Stage}
    {stream : List (Instruction F)} (hstream : stream = net.forward ∨ stream = net.test)
    (r : RunState F) :
    SameAt (valueSlot k) r.store (runForward call stage stream r).state.store := by
  have hne : ∀ p ∈ layers, valueSlot p.place ≠ valueSlot k := by
    intro p hp heq
    obtain ⟨m, hm, hlayer⟩ := SlotGrad.mem_layersOf.mp (h.mem_layersOf hp)
    rw [valueSlot_inj.mp heq, hn] at hm
    cases hm
    rw [application?_eq_some.mpr hlayer] at hrole
    cases hrole
  refine runForward_frame ?_
  intro i hi slot hslot
  have hout : ∃ p ∈ layers, i.outputVar = some ((valueSlot p.place : Nat) : Int) := by
    rcases hstream with rfl | rfl
    · rw [h.forward] at hi
      obtain ⟨p, hp, rfl⟩ := List.mem_map.mp hi
      exact ⟨p, hp, rfl⟩
    · exact h.test i hi
  obtain ⟨p, hp, hpi⟩ := hout
  rw [hpi] at hslot
  cases hslot
  exact locate?_ne_of_ne (hne p hp)

/-- If indexing layers read nodes, the backward pass changes no slot at an even place. -/
theorem Streams.backward_frame (h : Streams nodes layers net)
    (hreads : ∀ p ∈ layers, p.layer.op.scatter = true → ReadsNode p.layer) {k : Nat}
    (heven : k % 2 = 0) {call : Calls F} (r : RunState F) :
    SameAt k r.store (runBackward call net.backward r).state.store := by
  refine runBackward_frame ?_
  intro i hi slot hslot
  rw [h.backward] at hi
  obtain ⟨p, hp, rfl⟩ := List.mem_map.mp hi
  have hp := List.mem_reverse.mp hp
  obtain ⟨j, -, rfl⟩ := targets_backwardOf (hreads p hp) (h.located p hp) hslot
  exact locate?_ne_of_ne (ne_valueSlot_succ heven j).symm

end

/-- **The backward pass and values.**  If every indexing layer reads a node, then a backward
instruction addresses slots of the store only and writes derivative slots only; no slot at an even
place changes between the end of the forward pass and the end or the failure of the backward pass;
and an evaluation in any mode leaves the values of inputs and parameters alone.  If an indexing
layer reads no node, its instruction writes the value slot of the next node, which no store holds
if the layer is the last one. -/
theorem backward_keeps_values [Interchange F] {checks : Checks F} {known : Node F → Bool}
    {nodes : List (Node F)} {roots : Option (List Handle)} {options : Options F}
    {c : Compilation F} (hc : compileNodes checks known nodes roots options = .ok c) :
    ((∀ k a, (k, a) ∈ layersOf nodes → a.op.scatter = true → ReadsNode a) →
      (∀ i ∈ c.net.backward, ∀ slot ∈ i.inputVars ++ i.targets,
        0 ≤ slot ∧ slot < c.net.numVars) ∧
      (∀ i ∈ c.net.backward, ∀ slot ∈ i.targets, slot % 2 = 1) ∧
      (∀ (call : Calls F) (o : EvalOptions F) (r : RunState F) (k : Nat), k % 2 = 0 →
        ((seedDers c.net o r).andThen (runBackward call c.net.backward)).state.store.content k
          = r.store.content k) ∧
      ∀ (call : Calls F) (mode : Mode) (o : EvalOptions F) (profiled : Bool) (net : Net F),
        net.compiled = c.net → ∀ k n, nodes[k]? = some n → n.application? = none →
          (net.run call mode o profiled).state.store.content (valueSlot k)
            = net.store.content (valueSlot k)) ∧
    ∀ k a, (k, a) ∈ layersOf nodes → a.op.scatter = true → ¬ ReadsNode a →
      ∃ i ∈ c.net.backward, i.targets = [((valueSlot (k + 1) : Nat) : Int)] ∧
        ∀ (call : Calls F) (index : Nat) (r : RunState F), r.store.size = 2 * nodes.length →
          (backwardStep call (i, index) r).error = none →
            k + 1 < nodes.length ∧ ∃ t,
              (backwardStep call (i, index) r).state.store.content (valueSlot (k + 1))
                = .array t := by
  obtain ⟨-, layers, hs⟩ := compileNodes_streams hc
  refine ⟨?_, ?_⟩
  · intro hreads
    have hreads' : ∀ p ∈ layers, p.layer.op.scatter = true → ReadsNode p.layer :=
      fun p hp => hreads p.place p.layer (hs.mem_layersOf hp)
    -- What is written is the derivative slot of some node.
    have htargets : ∀ i ∈ c.net.backward, ∀ slot ∈ i.targets,
        ∃ j, j < nodes.length ∧ slot = ((valueSlot j + 1 : Nat) : Int) := by
      intro i hi slot hslot
      rw [hs.backward] at hi
      obtain ⟨p, hp, rfl⟩ := List.mem_map.mp hi
      have hp := List.mem_reverse.mp hp
      exact targets_backwardOf (hreads' p hp) (hs.located p hp) hslot
    -- Even slots stay, through the seed and the whole stream, wherever it stops.
    have hback : ∀ (call : Calls F) (o : EvalOptions F) (r : RunState F) (k : Nat),
        k % 2 = 0 → SameAt k r.store
          ((seedDers c.net o r).andThen (runBackward call c.net.backward)).state.store := by
      intro call o r k heven
      exact Outcome.andThen_keeps (P := fun r' : RunState F => SameAt k r.store r'.store)
        (seedDers_frame heven) fun r' hr' => hr'.trans (hs.backward_frame hreads' heven r')
    refine ⟨?_, ?_, fun call o r k heven => (hback call o r k heven).2, ?_⟩
    · intro i hi slot hslot
      rcases List.mem_append.mp hslot with hslot | hslot
      · exact hs.backward_reads hi hslot
      · obtain ⟨j, hj, rfl⟩ := htargets i hi slot hslot
        rw [hs.numVars]
        have := valueSlot_succ_lt.mpr hj
        omega
    · intro i hi slot hslot
      obtain ⟨j, -, rfl⟩ := htargets i hi slot hslot
      have := valueSlot_succ_mod_two j
      omega
    · intro call mode o profiled net hnet k n hn hrole
      have heven := valueSlot_mod_two k
      have heval : ∀ r : RunState F, SameAt (valueSlot k) r.store
          (evaluate call c.net mode o r).state.store := by
        intro r
        unfold evaluate
        split
        · exact SameAt.refl _ r.store
        · cases mode with
          | forward => exact hs.forward_frame hn hrole (.inl rfl) r
          | inference => exact hs.forward_frame hn hrole (.inr rfl) r
          | normal =>
            dsimp only
            rw [Outcome.andThen_assoc]
            exact Outcome.andThen_keeps
              (P := fun r' : RunState F => SameAt (valueSlot k) r.store r'.store)
              (hs.forward_frame hn hrole (.inl rfl) r)
              fun r' hr' => hr'.trans (hback call o r' (valueSlot k) heven)
      unfold Net.run
      rw [hnet]
      exact (heval _).2
  · intro k a hL hscatter hnone
    obtain ⟨p, hp, hpk⟩ := List.mem_map.mp (hs.places ▸ hL)
    cases hpk
    have hvars : (backwardOf (slotIn nodes) p).inputVars
        = [((valueSlot p.place + 1 : Nat) : Int)] :=
      inputVars_backwardOf hnone
    -- Without a node the first slot is the layer's own derivative, and the slot behind it is
    -- the next node's value.
    have hhead : ((backwardOf (slotIn nodes) p).inputVars.head?).map derSlot
        = some ((valueSlot (p.place + 1) : Nat) : Int) := by
      rw [hvars]
      unfold derSlot valueSlot
      simp only [List.head?_cons, Option.map_some, Option.some.injEq]
      omega
    refine ⟨backwardOf (slotIn nodes) p, ?_, ?_, ?_⟩
    · rw [hs.backward]
      exact List.mem_map.mpr ⟨p, List.mem_reverse.mpr hp, rfl⟩
    · have hsc : (backwardOf (slotIn nodes) p).op.scatter = true := hscatter
      unfold Instruction.targets
      rw [if_pos hsc, hhead]
      rfl
    · intro call index r hsize hdone
      unfold backwardStep at hdone ⊢
      dsimp only at hdone ⊢
      obtain ⟨hworked, -⟩ := Outcome.andThen_completed.mp hdone
      rw [Outcome.andThen_state _ hworked]
      split at hworked
      · cases hworked
      · have hsc : (backwardOf (slotIn nodes) p).op.scatter = true := hscatter
        rw [if_pos hsc] at hworked ⊢
        obtain ⟨hlt, t, ht⟩ := scatterStep_writes hhead hworked
        refine ⟨?_, t, ht⟩
        unfold valueSlot at hlt
        omega

/-- The label of a node that was given none of its fields. -/
def bareLabel : Label ℚ := ⟨none, none, .none, ""⟩

/-- How nets are compiled unless told otherwise. -/
def plainOptions : Options ℚ := ⟨.none, true, "normal"⟩

/-- A vector of two elements. -/
def pair (x y : ℚ) : Value ℚ := .array ⟨.float64, Grid.ofFn [2] fun i => if i = [0] then x else y⟩

/-- A vector as a parameter, and its first element. -/
def indexedParameter : List (Node ℚ) :=
  [⟨0, bareLabel, .param ⟨pair 1 2, .none, .none, .gradient⟩⟩,
    ⟨1, bareLabel, .layer ⟨Builtin.slice.op, [.node ⟨0, .param, ""⟩, .integer 0], [], .same, .same,
      [], none⟩⟩]

/-- The first element of a constant vector, a parameter, and their product. -/
def indexedConstant : List (Node ℚ) :=
  [⟨0, bareLabel, .layer ⟨Builtin.slice.op, [pair 1 2, .integer 0], [], .same, .same, [], none⟩⟩,
    ⟨1, bareLabel, .param ⟨.real 3, .none, .none, .gradient⟩⟩,
    ⟨2, bareLabel, .layer ⟨Builtin.times.op, [.node ⟨0, .layer, ""⟩, .node ⟨1, .param, ""⟩], [],
      .same, .same, [], none⟩⟩]

theorem backward_keeps_indexed_parameter :
    ∃ c, compileNodes [] (fun _ => true) indexedParameter none plainOptions = .ok c ∧
      ∀ (call : Calls ℚ) (mode : Mode) (o : EvalOptions ℚ) (net : Net ℚ), net.compiled = c.net →
        (net.run call mode o false).state.store.content 0 = net.store.content 0 := by
  obtain ⟨c, hc⟩ := exists_of_isOk
    (show (compileNodes [] (fun _ => true) indexedParameter none plainOptions).isOk = true from rfl)
  refine ⟨c, hc, ?_⟩
  have hreads : ∀ k a, (k, a) ∈ layersOf indexedParameter → a.op.scatter = true →
      ReadsNode a := by
    intro k a hL _
    have hmem : (k, a) ∈ [(1, (⟨Builtin.slice.op, [.node ⟨0, .param, ""⟩, .integer 0], [], .same,
        .same, [], none⟩ : Application ℚ))] := hL
    cases List.mem_singleton.mp hmem
    exact ⟨_, List.mem_cons_self ..⟩
  obtain ⟨-, -, -, hvalues⟩ := (backward_keeps_values hc).1 hreads
  intro call mode o net hnet
  exact hvalues call mode o false net hnet 0 _ rfl rfl

/-- Before the evaluation the parameter is the number three, after it an array. -/
theorem backward_overwrites_parameter :
    ∃ c, compileNodes [] (fun _ => true) indexedConstant none plainOptions = .ok c ∧
      c.store.content (valueSlot 1) = .real 3 ∧
      ∃ t, (evaluate builtinCalls c.net .normal ⟨.real 1, false⟩
        ⟨c.store, [], none⟩).state.store.content (valueSlot 1) = .array t := by
  obtain ⟨c, hc⟩ := exists_of_isOk
    (show (compileNodes [] (fun _ => true) indexedConstant none plainOptions).isOk = true from rfl)
  cases hc
  exact ⟨_, rfl, rfl, _, rfl⟩

end SlotGrad
