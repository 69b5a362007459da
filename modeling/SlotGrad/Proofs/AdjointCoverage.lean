import SlotGrad.Proofs.ValidationEnds

/-!
# The check on adjoints and the engine

The check on adjoints warns of a layer by its op alone: the op has no adjoint and is no sparse
update.  The engine looks for the adjoint only where derivatives are asked for.  So a layer that the
engine stops at is one that the check warns of, and strict validation lets no such net pass.  The
other direction fails: a layer that asks for no derivatives, say one of constants only, is warned of
and runs.

## Main definitions

* `Instruction.lacksAdjoint`, `Instruction.asksDers` — what the check looks at, and what the engine
  looks at besides.
* `Application.AsksDers` — a layer that asks for derivatives.
* `Error.IsNoAdjoint`, `RaisesOwn` — the error of a layer without an adjoint, and functions that do
  not fail with it themselves.

## Main results

* `backwardStep_no_adjoint` — only an instruction that lacks its adjoint and is asked for
  derivatives stops with that error.
* `asksDers_backwardOf` — which layers ask for derivatives.
* `no_adjoint_error_iff` — when an instruction of a compiled net stops with that error, and that an
  evaluation which stops with it was warned of.
* `warned_net_evaluates` — a net that is warned of and evaluated.
-/

namespace SlotGrad

/-! ### Errors -/

/-- The error of a layer whose op has no adjoint. -/
def Error.IsNoAdjoint (e : Error) : Prop := ∃ op layer source, e = .noAdjoint op layer source

theorem Fault.not_isNoAdjoint (f : Fault) : ¬(Error.fault f).IsNoAdjoint := by
  rintro ⟨op, layer, source, h⟩
  cases h

/-- A primitive operation fails with another error. -/
theorem Fallible.not_isNoAdjoint {α : Type} {x : Fallible α} {e : Error} (h : x.lift = .error e) :
    ¬e.IsNoAdjoint := by
  cases x with
  | ok a => cases h
  | error f =>
    cases h
    exact f.not_isNoAdjoint

/-! ### What the check and the engine look at -/

namespace Instruction

variable {F : Type}

/-- An instruction of an op that has no adjoint and is no sparse update. -/
def lacksAdjoint (i : Instruction F) : Bool := i.op.adjoint.isNone && !i.op.scatter

/-- The warning about such an instruction. -/
def adjointWarning (i : Instruction F) : Finding :=
  ⟨NetChecks.adjointCheck, .warning, "Layer '" ++ i.name ++ "' uses op '" ++ i.op.name
    ++ "' which has no adjoint; normal-mode evaluation will fail"⟩

/-- An instruction that is asked for derivatives. -/
def asksDers [Arith F] (i : Instruction F) : Bool := (i.derCount.map Count.isActive).getD false

/-- The error of an instruction that has no adjoint. -/
def noAdjointError (i : Instruction F) : Error := .noAdjoint i.op.name i.name i.source

theorem asksDers_iff [Arith F] {i : Instruction F} :
    i.asksDers = true ↔ ∃ n, i.derCount = some n ∧ n.isActive = true := by
  unfold asksDers
  cases i.derCount with
  | none => simp
  | some n => simp

theorem lacksAdjoint_iff {i : Instruction F} :
    i.lacksAdjoint = true ↔ i.op.adjoint = none ∧ i.op.scatter = false := by
  unfold lacksAdjoint
  rw [Bool.and_eq_true, Option.isNone_iff_eq_none, Bool.not_eq_true']

end Instruction

section

variable {F : Type} {c : CompiledNet F}

/-- The check warns of the backward instructions that lack an adjoint, in their order. -/
theorem adjointCoverage_eq_map : NetChecks.adjointCoverage c
    = (c.backward.filter Instruction.lacksAdjoint).map Instruction.adjointWarning := rfl

end

/-! ### Errors of steps -/

section

variable {F : Type}

/-- Functions that do not fail with the engine's own error. -/
def RaisesOwn (call : Calls F) : Prop := ∀ f a e, call f a = .error e → ¬e.IsNoAdjoint

variable {call : Calls F} {r : RunState F} {e : Error}

/-- An instruction of a forward stream does not fail with the error. -/
theorem forwardStep_error (hcall : RaisesOwn call) {stage : Stage} {p : Instruction F × Nat}
    (h : (forwardStep call stage p r).error = some e) : ¬e.IsNoAdjoint := by
  unfold forwardStep at h
  rcases bind_eq_error.mp (Outcome.attempt_eq_error.mp h) with h | ⟨v, -, h⟩
  · unfold callOn at h
    rcases bind_eq_error.mp h with h | ⟨args, -, h⟩
    · exact Fallible.not_isNoAdjoint h
    · split at h
      · exact hcall _ _ _ h
      · cases h
        exact Fault.not_isNoAdjoint _
  · rcases bind_eq_error.mp h with h | ⟨s, -, h⟩
    · exact Fallible.not_isNoAdjoint h
    · cases h

/-- A request that is refused is refused with another error. -/
theorem checkRequest_error {c : CompiledNet F} {mode : Mode} {o : EvalOptions F} {s : Store F}
    (h : checkRequest c mode o s = .error e) : ¬e.IsNoAdjoint := by
  rintro ⟨op, layer, source, rfl⟩
  unfold checkRequest at h
  by_cases hseed : mode = .normal ∧ isEmptySeed o.seed = true
  · rw [if_pos hseed] at h
    cases h
  · rw [if_neg hseed] at h
    by_cases hsize : (s.size : Int) ≠ c.numVars
    · rw [if_pos hsize] at h
      cases h
    · rw [if_neg hsize] at h
      cases h

variable [Arith F]

/-- The functions of the library fail with faults. -/
theorem raisesOwn_builtinCalls : RaisesOwn (builtinCalls : Calls F) := by
  intro f a e h
  unfold builtinCalls at h
  split at h
  · exact Fallible.not_isNoAdjoint h
  · cases h
    exact Fault.not_isNoAdjoint _

/-- Adding a result of an adjoint does not fail with the error. -/
theorem contribute_error {out : List (Value F)} {b : Int × Int}
    (h : (contribute out b r).error = some e) : ¬e.IsNoAdjoint := by
  unfold contribute at h
  rcases bind_eq_error.mp (Outcome.attempt_eq_error.mp h) with h | ⟨found, -, h⟩
  · exact Fallible.not_isNoAdjoint h
  · cases found with
    | none => cases h
    | some v =>
      dsimp only at h
      split at h
      · cases h
      · rcases bind_eq_error.mp h with h | ⟨s, -, h⟩
        · exact Fallible.not_isNoAdjoint h
        · cases h

/-- A sparse update does not fail with the error. -/
theorem scatterStep_error {i : Instruction F} {args : List (Value F)}
    (h : (scatterStep i args r).error = some e) : ¬e.IsNoAdjoint := by
  have hchange : ∀ (slot : Int) (v : Value F) (r : RunState F),
      (Outcome.attempt r (do return r.put slot (← r.store.set slot v))).error = some e →
        ¬e.IsNoAdjoint := by
    intro slot v r h
    rcases bind_eq_error.mp (Outcome.attempt_eq_error.mp h) with h | ⟨s, -, h⟩
    · exact Fallible.not_isNoAdjoint h
    · cases h
  unfold scatterStep at h
  dsimp only at h
  split at h
  · cases h
    exact Fault.not_isNoAdjoint _
  · rcases Outcome.andThen_eq_error.mp h with h | ⟨-, h⟩
    · exact hchange _ _ _ h
    · split at h
      · cases h
        exact Fault.not_isNoAdjoint _
      · exact hchange _ _ _ h

/-- Where an adjoint is called, only its lack ends in the error. -/
theorem adjointStep_error (hcall : RaisesOwn call) {i : Instruction F} {n : Count F}
    {args : List (Value F)} (h : (adjointStep call i n args r).error = some e)
    (he : e.IsNoAdjoint) : i.function? = none ∧ e = i.noAdjointError := by
  unfold adjointStep at h
  dsimp only at h
  cases hf : i.function? with
  | none =>
    rw [hf] at h
    cases h
    exact ⟨rfl, rfl⟩
  | some f =>
    -- The adjoint is there: what fails is the adjoint itself, the count or a sum.
    exfalso
    rw [hf] at h
    dsimp only at h
    split at h
    · rename_i e' hresults
      cases h
      rcases bind_eq_error.mp hresults with h | ⟨out, -, h⟩
      · exact hcall _ _ _ h he
      · rcases bind_eq_error.mp h with h | ⟨taken, -, h⟩
        · exact Fallible.not_isNoAdjoint h he
        · cases h
    · obtain ⟨b, -, t, hb⟩ := runAll_error h
      exact contribute_error hb he

/-- Only an instruction that lacks its adjoint and is asked for derivatives stops with the error,
which names it. -/
theorem backwardStep_no_adjoint (hcall : RaisesOwn call) {i : Instruction F}
    (hback : i.isBackward = true) {k : Nat} (h : (backwardStep call (i, k) r).error = some e)
    (he : e.IsNoAdjoint) :
    e = i.noAdjointError ∧ i.lacksAdjoint = true ∧ i.asksDers = true := by
  unfold backwardStep at h
  dsimp only at h
  rcases Outcome.andThen_eq_error.mp h with h | ⟨-, h⟩
  · -- The cases are those of the step: binding, a sparse update, and an adjoint that is called only
    -- where derivatives are asked for.
    split at h
    · cases h
      exact absurd he (Fault.not_isNoAdjoint _)
    · split at h
      · exact absurd he (scatterStep_error h)
      · rename_i hscatter
        cases hcount : i.derCount with
        | none =>
          rw [hcount] at h
          cases h
        | some n =>
          rw [hcount] at h
          dsimp only at h
          split at h
          · rename_i hactive
            obtain ⟨hfunction, rfl⟩ := adjointStep_error hcall h he
            unfold Instruction.function? at hfunction
            rw [if_pos hback] at hfunction
            exact ⟨rfl, Instruction.lacksAdjoint_iff.mpr
              ⟨hfunction, Bool.eq_false_iff.mpr hscatter⟩,
              Instruction.asksDers_iff.mpr ⟨n, hcount, hactive⟩⟩
          · cases h
  · cases h

/-- An instruction that can be filled, lacks its adjoint and is asked for derivatives stops with the
error. -/
theorem backwardStep_of_lacksAdjoint {i : Instruction F} (hback : i.isBackward = true)
    {args : List (Value F)} (hbind : i.bind r.store = .ok args) (hlacks : i.lacksAdjoint = true)
    (hasks : i.asksDers = true) (k : Nat) :
    (backwardStep call (i, k) r).error = some i.noAdjointError := by
  obtain ⟨hnone, hscatter⟩ := Instruction.lacksAdjoint_iff.mp hlacks
  obtain ⟨n, hcount, hactive⟩ := Instruction.asksDers_iff.mp hasks
  have hfunction : i.function? = none := by
    unfold Instruction.function?
    rw [if_pos hback, hnone]
  unfold backwardStep adjointStep
  dsimp only
  rw [hbind, hcount]
  dsimp only
  rw [if_neg (by rw [hscatter]; decide), if_pos hactive, hfunction]
  rfl

/-! ### Errors of evaluations -/

/-- Writing a seed does not fail with the error. -/
theorem seedDers_error {c : CompiledNet F} {o : EvalOptions F}
    (h : (seedDers c o r).error = some e) : ¬e.IsNoAdjoint := by
  rcases bind_eq_error.mp (Outcome.attempt_eq_error.mp h) with h | ⟨s, -, h⟩
  · exact Fallible.not_isNoAdjoint h
  · cases h

/-- An evaluation that stops with the error is one in normal mode, and stops at a backward
instruction that lacks its adjoint and is asked for derivatives. -/
theorem evaluate_no_adjoint (hcall : RaisesOwn call) {c : CompiledNet F}
    (hback : ∀ i ∈ c.backward, i.isBackward = true) {mode : Mode} {o : EvalOptions F}
    (h : (evaluate call c mode o r).error = some e) (he : e.IsNoAdjoint) :
    mode = .normal ∧ ∃ i ∈ c.backward, e = i.noAdjointError ∧ i.lacksAdjoint = true ∧
      i.asksDers = true := by
  have hforward : ∀ stage stream, (runForward call stage stream r).error ≠ some e := by
    intro stage stream h
    obtain ⟨p, -, t, hp⟩ := runAll_error h
    exact forwardStep_error hcall hp he
  unfold evaluate at h
  cases hrequest : checkRequest c mode o r.store with
  | error e' =>
    rw [hrequest] at h
    cases h
    exact absurd he (checkRequest_error hrequest)
  | ok =>
    rw [hrequest] at h
    cases mode with
    | forward => exact absurd h (hforward _ _)
    | inference => exact absurd h (hforward _ _)
    | normal =>
      refine ⟨rfl, ?_⟩
      rcases Outcome.andThen_eq_error.mp h with h | ⟨-, h⟩
      · rcases Outcome.andThen_eq_error.mp h with h | ⟨-, h⟩
        · exact absurd h (hforward _ _)
        · exact absurd he (seedDers_error h)
      · obtain ⟨⟨i, k⟩, hp, t, hstep⟩ := runAll_error h
        have hi : i ∈ c.backward := List.fst_mem_of_mem_zipIdx hp
        exact ⟨i, hi, backwardStep_no_adjoint hcall (hback i hi) hstep he⟩

end

/-! ### Compiled nets -/

section

variable {F : Type}

/-- A layer that asks for derivatives: their number is given and not zero, or it is left open and
some argument is a node. -/
def Application.AsksDers [Arith F] (a : Application F) : Prop :=
  match a.derCount with
  | some n => n.isActive = true
  | none => ReadsNode a

variable {nodes : List (Node F)} {layers : List (Placed F)} {net : CompiledNet F}

/-- The backward instruction of a layer whose operands have slots is asked for derivatives exactly
if the layer asks for them. -/
theorem asksDers_backwardOf [Arith F] {slotOf : Handle → Option Nat} {p : Placed F}
    (hlocated : ∀ h, Value.node h ∈ p.layer.args → (slotOf h).isSome) :
    (backwardOf slotOf p).asksDers = true ↔ p.layer.AsksDers := by
  have hcount : (backwardOf slotOf p).derCount = some (derCountOf slotOf p.layer) := rfl
  unfold Instruction.asksDers Application.AsksDers
  rw [hcount, Option.map_some, Option.getD_some]
  unfold derCountOf
  cases p.layer.derCount with
  | some n => rfl
  | none =>
    rw [Option.getD_none]
    constructor
    · -- Without a node among the arguments there is no place to count.
      intro hactive
      by_contra hnode
      rw [operandSlots_eq_nil hnode] at hactive
      cases hactive
    · rintro ⟨h, hmem⟩
      obtain ⟨q, hq⟩ := List.mem_iff_getElem?.mp hmem
      obtain ⟨slot, hslot⟩ := Option.isSome_iff_exists.mp (hlocated h hmem)
      have hplace := lt_inferredCount (List.mem_map_of_mem (f := Prod.snd)
        (mem_operandSlots.mpr ⟨q, h, slot, hq, hslot, rfl⟩ :
          ((slot : Int), ((0 + q : Nat) : Int)) ∈ operandSlots slotOf 0 p.layer.args))
      unfold Count.isActive
      simp only [bne_iff_ne, ne_eq]
      omega

/-- The backward instructions of a compiled net are those of its layers. -/
theorem Streams.exists_layer [Arith F] (hs : Streams nodes layers net) {i : Instruction F}
    (hi : i ∈ net.backward) :
    ∃ k a, (k, a) ∈ layersOf nodes ∧ i.op = a.op ∧ (i.asksDers = true ↔ a.AsksDers) := by
  rw [hs.backward] at hi
  obtain ⟨p, hp, rfl⟩ := List.mem_map.mp hi
  have hp := List.mem_reverse.mp hp
  exact ⟨_, _, hs.mem_layersOf hp, rfl, asksDers_backwardOf (hs.located p hp)⟩

theorem Streams.isBackward (hs : Streams nodes layers net) :
    ∀ i ∈ net.backward, i.isBackward = true := by
  intro i hi
  rw [hs.backward] at hi
  obtain ⟨p, -, rfl⟩ := List.mem_map.mp hi
  exact beq_self_eq_true _

/-- Every store of the net's size fills the backward instructions of a compiled net. -/
theorem Streams.backward_binds (hs : Streams nodes layers net) {s : Store F}
    (hsize : (s.size : Int) = net.numVars) {i : Instruction F} (hi : i ∈ net.backward) :
    ∃ args, i.bind s = .ok args := by
  have hstore : s.size = 2 * nodes.length := by
    have := hs.numVars
    omega
  rw [hs.backward] at hi
  obtain ⟨p, hp, rfl⟩ := List.mem_map.mp hi
  have hplace := hs.place_lt (List.mem_reverse.mp hp)
  exact ⟨_, backwardOf_bind (slotIn_lt_size hstore) p (hstore ▸ valueSlot_succ_lt.mpr hplace)⟩

/-- The check on adjoints, as it is registered. -/
def adjointCoverageCheck : Check F :=
  ⟨NetChecks.adjointCheck, .compiled fun c => .ok (NetChecks.adjointCoverage c)⟩

variable {checks : Checks F} {known : Node F → Bool} {roots : Option (List Handle)}
  {options : Options F} {c : Compilation F}

/-- Strict validation lets no net pass that the check warns of. -/
theorem adjointCoverage_of_strict
    (hc : compileNodes checks known nodes roots options = .ok c)
    (hstrict : options.validation = "strict") (hcheck : adjointCoverageCheck ∈ checks) :
    NetChecks.adjointCoverage c.net = [] := by
  obtain ⟨last, t, names, early, late, -, ht, -, -, -, hlate, -⟩ := compileNodes_eq_ok hc
  rw [hstrict] at ht
  cases ht
  obtain ⟨found, hfound, hjudge⟩ := bind_eq_ok.mp hlate
  obtain ⟨hpass, -⟩ := judge_eq_ok.mp hjudge
  obtain ⟨fs, hfs, hsub⟩ := subset_of_findOnNet (liftM_eq_ok.mp hfound) hcheck
  cases hfs
  rw [List.eq_nil_iff_forall_not_mem]
  intro f hf
  have hreach := hpass f (hsub hf)
  rw [severity_of_mem_adjointCoverage hf] at hreach
  cases hreach

/-- **When a compiled net stops for want of an adjoint.**  The check on adjoints warns of the
backward instructions that lack one.  On every store of the net's size, a backward instruction stops
with the error exactly if it is one of these and is asked for derivatives, as its layer is unless
the number is given as zero or is open and no argument is a node.  An evaluation that stops with the
error is one in normal mode, of a net with such an instruction, so it was warned of.  No net that
strict validation let pass stops with the error. -/
theorem no_adjoint_error_iff [Arith F] [Interchange F]
    (hc : compileNodes checks known nodes roots options = .ok c) {call : Calls F}
    (hcall : RaisesOwn call) :
    NetChecks.adjointCoverage c.net
        = (c.net.backward.filter Instruction.lacksAdjoint).map Instruction.adjointWarning ∧
      (∀ i ∈ c.net.backward, ∃ k a, (k, a) ∈ layersOf nodes ∧ i.op = a.op ∧
        (i.asksDers = true ↔ a.AsksDers)) ∧
      (∀ i ∈ c.net.backward, ∀ (k : Nat) (r : RunState F), (r.store.size : Int) = c.net.numVars →
        ∀ e, e.IsNoAdjoint → ((backwardStep call (i, k) r).error = some e ↔
          e = i.noAdjointError ∧ i.lacksAdjoint = true ∧ i.asksDers = true)) ∧
      (∀ mode o (r : RunState F) e, (evaluate call c.net mode o r).error = some e →
        e.IsNoAdjoint → mode = .normal ∧ ∃ i ∈ c.net.backward, e = i.noAdjointError ∧
          i.lacksAdjoint = true ∧ i.asksDers = true ∧
          i.adjointWarning ∈ NetChecks.adjointCoverage c.net) ∧
      (options.validation = "strict" → adjointCoverageCheck ∈ checks →
        ∀ mode o (r : RunState F) e, (evaluate call c.net mode o r).error = some e →
          ¬e.IsNoAdjoint) := by
  obtain ⟨-, layers, hs⟩ := compileNodes_streams hc
  have hwarned : ∀ i ∈ c.net.backward, i.lacksAdjoint = true →
      i.adjointWarning ∈ NetChecks.adjointCoverage c.net := by
    intro i hi hlacks
    rw [adjointCoverage_eq_map]
    exact List.mem_map_of_mem (List.mem_filter.mpr ⟨hi, hlacks⟩)
  -- Only backward instructions raise the error, and those that do were warned of.
  have hevaluate : ∀ mode o (r : RunState F) e, (evaluate call c.net mode o r).error = some e →
      e.IsNoAdjoint → mode = .normal ∧ ∃ i ∈ c.net.backward, e = i.noAdjointError ∧
        i.lacksAdjoint = true ∧ i.asksDers = true ∧
        i.adjointWarning ∈ NetChecks.adjointCoverage c.net := by
    intro mode o r e h he
    obtain ⟨hmode, i, hi, herror, hlacks, hasks⟩ := evaluate_no_adjoint hcall hs.isBackward h he
    exact ⟨hmode, i, hi, herror, hlacks, hasks, hwarned i hi hlacks⟩
  refine ⟨adjointCoverage_eq_map, fun i hi => hs.exists_layer hi,
    fun i hi k r hsize e he => ⟨fun h => ?_, ?_⟩, hevaluate,
    fun hstrict hcheck mode o r e h he => ?_⟩
  · exact backwardStep_no_adjoint hcall (hs.isBackward i hi) h he
  · rintro ⟨rfl, hlacks, hasks⟩
    obtain ⟨args, hbind⟩ := hs.backward_binds hsize hi
    exact backwardStep_of_lacksAdjoint (hs.isBackward i hi) hbind hlacks hasks k
  · obtain ⟨-, i, -, -, -, -, hmem⟩ := hevaluate mode o r e h he
    rw [adjointCoverage_of_strict hc hstrict hcheck] at hmem
    cases hmem

end

/-! ### Warned and evaluated -/

/-- Multiplication without an adjoint. -/
def timesForward : Op := { Builtin.times.op with name := "times_forward", adjoint := none }

/-- A parameter that is doubled. -/
def doubledForward : List (Node ℚ) :=
  [⟨0, bareLabel, .param ⟨.real 3, .none, .none, .gradient⟩⟩,
    ⟨1, bareLabel, .layer ⟨timesForward, [.node ⟨0, .param, ""⟩, .real 2], [], .same, .same, [],
      none⟩⟩]

theorem no_adjoint_error_iff_doubled :
    ∃ c, compileNodes Checks.builtin (fun _ => true) doubledForward none plainOptions = .ok c ∧
      RaisesOwn (builtinCalls : Calls ℚ) ∧
      (evaluate builtinCalls c.net .normal ⟨.real 1, false⟩ ⟨c.store, [], none⟩).error
        = some (.noAdjoint "times_forward" "times_forward1" "") ∧
      NetChecks.adjointCoverage c.net ≠ [] := by
  obtain ⟨c, hc⟩ := exists_of_isOk
    (x := compileNodes Checks.builtin (fun _ => true) doubledForward none plainOptions) rfl
  obtain ⟨-, -, -, hevaluate, -⟩ := no_adjoint_error_iff hc raisesOwn_builtinCalls
  have herror : (evaluate builtinCalls c.net .normal ⟨.real 1, false⟩
      ⟨c.store, [], none⟩).error = some (.noAdjoint "times_forward" "times_forward1" "") := by
    cases hc
    rfl
  obtain ⟨-, i, -, -, -, -, hmem⟩ := hevaluate _ _ _ _ herror ⟨_, _, _, rfl⟩
  exact ⟨c, hc, raisesOwn_builtinCalls, herror, List.ne_nil_of_mem hmem⟩

/-- A product of constants. -/
def constantProduct : List (Node ℚ) :=
  [⟨0, bareLabel, .layer ⟨timesForward, [.real 3, .real 2], [], .same, .same, [], none⟩⟩]

/-- A product of constants is warned of and refused by strict validation, although its evaluation
completes and no evaluation of it, on whatever store, stops for want of an adjoint. -/
theorem warned_net_evaluates :
    ∃ c, compileNodes Checks.builtin (fun _ => true) constantProduct none plainOptions = .ok c ∧
      NetChecks.adjointCoverage c.net = c.net.backward.map Instruction.adjointWarning ∧
      c.net.backward.length = 1 ∧
      (∃ found, compileNodes Checks.builtin (fun _ => true) constantProduct none
        { plainOptions with validation := "strict" }
          = .error (.validation .compiled found .warning)) ∧
      (evaluate builtinCalls c.net .normal ⟨.real 1, false⟩ ⟨c.store, [], none⟩).error = none ∧
      ∀ call, RaisesOwn call → ∀ mode o (r : RunState ℚ) e,
        (evaluate call c.net mode o r).error = some e → ¬e.IsNoAdjoint := by
  obtain ⟨c, hc⟩ := exists_of_isOk
    (x := compileNodes Checks.builtin (fun _ => true) constantProduct none plainOptions) rfl
  refine ⟨c, hc, ?_⟩
  have hback : ∀ i ∈ c.net.backward, i.isBackward = true ∧ i.asksDers = false := by
    cases hc
    exact List.forall_mem_singleton.mpr ⟨rfl, rfl⟩
  have hnever : ∀ call, RaisesOwn call → ∀ mode o (r : RunState ℚ) e,
      (evaluate call c.net mode o r).error = some e → ¬e.IsNoAdjoint := by
    intro call hcall mode o r e h he
    obtain ⟨-, i, hi, -, -, hasks⟩ :=
      evaluate_no_adjoint hcall (fun i hi => (hback i hi).1) h he
    rw [(hback i hi).2] at hasks
    cases hasks
  cases hc
  exact ⟨rfl, rfl, ⟨_, rfl⟩, rfl, hnever⟩

end SlotGrad
