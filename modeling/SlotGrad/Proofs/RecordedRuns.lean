import SlotGrad.Proofs.CompletedPrefixes

/-!
# What a profile records

A profile has an entry for each completed instruction.  Keeping one changes nothing else: a step
reads the store and the owned slots only, and with a profile it writes what it writes without.
So an evaluation with a profile ends where the one without does, and has recorded the
instructions that were completed, one after another, up to the first one that failed.

## Main definitions

* `RunState.recording` — a run with other entries in its profile.
* `Unrecorded`, `Records` — a change of a run that leaves its profile alone, and steps that record.
* `CompletesFirst` — how many instructions of a stream are completed.
* `forwardAndSeed` — the part of an evaluation in normal mode that the backward stream follows.
* `entriesOf` — the entries of completed instructions.
* `backwardStart` — where the backward stream of an evaluation starts.

## Main results

* `records_forwardStep`, `records_backwardStep` — what one instruction does with a profile.
* `Records.run` — what a stream does with a profile, also when it fails.
* `profile_records_completed` — **a profile changes nothing and records what was completed.**
-/

namespace SlotGrad

variable {F : Type}

/-! ### Runs with a profile -/

/-- The run with other entries in its profile. -/
def RunState.recording (r : RunState F) (entries : List Entry) : RunState F :=
  { r with profile := some entries }

@[simp] theorem RunState.store_recording (r : RunState F) (entries : List Entry) :
    (r.recording entries).store = r.store := rfl

@[simp] theorem RunState.owned_recording (r : RunState F) (entries : List Entry) :
    (r.recording entries).owned = r.owned := rfl

/-- A change of a run that goes the same way whatever is in the profile, and leaves it alone. -/
def Unrecorded (f : RunState F → Outcome (RunState F)) : Prop :=
  ∀ (r : RunState F) (entries : List Entry),
    f (r.recording entries) = (f r).map (·.recording entries)

/-- Steps that record: with a profile, a step does what it does without one, and adds an entry if it
completes. -/
structure Records {α : Type} (step : α → RunState F → Outcome (RunState F)) (entry : α → Entry) :
    Prop where
  /-- A completed step adds its entry. -/
  completed : ∀ a (r : RunState F) entries, (step a r).error = none →
    step a (r.recording entries) = .done ((step a r).state.recording (entries ++ [entry a]))
  /-- A step that fails adds none. -/
  stopped : ∀ a (r : RunState F) entries e, (step a r).error = some e →
    step a (r.recording entries) = .stopped ((step a r).state.recording entries) e

/-- A run of steps that record: its profile has the entries of the steps that were completed. -/
theorem Records.run {α : Type} {step : α → RunState F → Outcome (RunState F)} {entry : α → Entry}
    (h : Records step entry) (as : List α) (r : RunState F) (entries : List Entry) :
    ∃ n ≤ as.length, (∀ k ≤ as.length, (runAll step (as.take k) r).error = none ↔ k ≤ n) ∧
      runAll step as (r.recording entries) =
        (runAll step as r).map (·.recording (entries ++ (as.take n).map entry)) := by
  -- The rest of the steps starts where the first ends, with its entry already there.
  induction as generalizing r entries with
  | nil => exact ⟨0, le_refl 0, by simp, by simp [Outcome.map, Outcome.done]⟩
  | cons a as ih =>
    cases hstep : (step a r).error with
    | none =>
      obtain ⟨n, hn, hcompleted, hrun⟩ := ih (step a r).state (entries ++ [entry a])
      refine ⟨n + 1, by simpa using hn, ?_, ?_⟩
      · intro k hk
        cases k with
        | zero => simp
        | succ k =>
          rw [List.take_succ_cons, runAll_cons_completed, hcompleted k (by simpa using hk)]
          simp [hstep]
      · have hfirst : runAll step (a :: as) r = runAll step as (step a r).state := by
          simp [Outcome.andThen, hstep]
        rw [runAll_cons, h.completed a r entries hstep, Outcome.done_andThen, hrun, hfirst]
        simp
    | some e =>
      refine ⟨0, by simp, ?_, ?_⟩
      · intro k hk
        cases k with
        | zero => simp
        | succ k =>
          rw [List.take_succ_cons, runAll_cons_completed, hstep]
          simp
      · have hfirst : runAll step (a :: as) r = step a r := by
          simp [Outcome.andThen, hstep]
        rw [runAll_cons, h.stopped a r entries e hstep, Outcome.stopped_andThen, hfirst]
        simp [Outcome.stopped, Outcome.map, hstep]

/-! ### Steps -/

section

variable {f g : RunState F → Outcome (RunState F)}

theorem unrecorded_done : Unrecorded (F := F) .done := fun _ _ => rfl

/-- Two changes one after another leave the profile alone if both do. -/
theorem Unrecorded.andThen (hf : Unrecorded f) (hg : Unrecorded g) :
    Unrecorded fun r => (f r).andThen g := by
  intro r entries
  dsimp only
  rw [hf r entries]
  obtain ⟨t, e⟩ := f r
  cases e with
  | none => exact hg t entries
  | some e => rfl

/-- An attempt leaves the profile alone if the change does. -/
theorem unrecorded_attempt {change : RunState F → Attempt (RunState F)}
    (h : ∀ r entries, change (r.recording entries)
      = (change r).map (·.recording entries)) : Unrecorded fun r => .attempt r (change r) := by
  intro r entries
  dsimp only
  rw [h r entries]
  cases change r <;> rfl

/-- A run of steps leaves the profile alone if each step does. -/
theorem unrecorded_runAll {α : Type} {step : α → RunState F → Outcome (RunState F)}
    (h : ∀ a, Unrecorded (step a)) (as : List α) : Unrecorded (runAll step as) := by
  induction as with
  | nil => exact unrecorded_done
  | cons a as ih => exact (h a).andThen ih

end

section

variable [Arith F] {call : Calls F}

theorem unrecorded_contribute (out : List (Value F)) (b : Int × Int) :
    Unrecorded (contribute out b) := by
  refine unrecorded_attempt fun r entries => bind_eq_map_of_eq fun found _ => ?_
  cases found with
  | none => rfl
  | some v =>
    dsimp only
    split
    · rfl
    · exact bind_eq_map_of_eq fun s _ => rfl

theorem unrecorded_scatterStep (i : Instruction F) (args : List (Value F)) :
    Unrecorded (scatterStep i args) := by
  intro r entries
  unfold scatterStep
  -- What is prepared depends on the store and the owned slots, which are the same.
  rw [RunState.store_recording, RunState.owned_recording]
  dsimp only
  split
  · rfl
  · rename_i slot target index dy _
    have hchange : ∀ v : Value F, Unrecorded fun r : RunState F =>
        .attempt r (do return r.put slot (← r.store.set slot v)) := fun v =>
      unrecorded_attempt fun r entries => bind_eq_map_of_eq fun s _ => rfl
    refine (hchange target).andThen (fun r entries => ?_) r entries
    cases addInto target index dy with
    | error f => rfl
    | ok v => exact hchange v r entries

theorem unrecorded_adjointStep (i : Instruction F) (n : Count F) (args : List (Value F)) :
    Unrecorded (adjointStep call i n args) := by
  intro r entries
  unfold adjointStep
  dsimp only
  split
  · rfl
  · exact unrecorded_runAll (unrecorded_contribute _) _ r entries

end

/-! ### Instructions -/

/-- The entry of an instruction at its place in a stream. -/
def entryOf (stage : Stage) (p : Instruction F × Nat) : Entry := ⟨p.2, p.1.name, p.1.op.name, stage⟩

/-- Work that leaves the profile alone and is recorded at its end is a step that records. -/
theorem Unrecorded.records {work : Instruction F × Nat → RunState F → Outcome (RunState F)}
    (hwork : ∀ p, Unrecorded (work p)) (stage : Stage) :
    Records (fun p r => (work p r).andThen fun t => .done (t.record p.2 stage p.1))
      (entryOf stage) := by
  constructor
  · intro p r entries hdone
    rw [hwork p r entries]
    revert hdone
    obtain ⟨t, e⟩ := work p r
    cases e with
    | none => exact fun _ => rfl
    | some e => exact nofun
  · intro p r entries e herror
    rw [hwork p r entries]
    revert herror
    obtain ⟨t, e'⟩ := work p r
    cases e' with
    | none => exact nofun
    | some e' =>
      intro herror
      cases herror
      rfl

/-- With a profile, a forward or inference stream records. -/
theorem records_forwardStep (call : Calls F) (stage : Stage) :
    Records (forwardStep call stage) (entryOf stage) := by
  have hwork : ∀ p : Instruction F × Nat, Unrecorded fun r => .attempt r (do
      return { r with store := ← writeOutput p.1 r.store (← callOn call p.1 r.store) }) := fun p =>
    unrecorded_attempt fun r entries => bind_eq_map_of_eq fun v _ =>
      bind_eq_map_of_eq fun s _ => rfl
  have hstep : forwardStep call stage = fun p r =>
      (Outcome.attempt r (do
        return { r with store := ← writeOutput p.1 r.store (← callOn call p.1 r.store) })).andThen
        fun t => .done (t.record p.2 stage p.1) := by
    funext p r
    unfold forwardStep
    cases callOn call p.1 r.store with
    | error e => rfl
    | ok v =>
      rw [ok_bind, ok_bind]
      cases writeOutput p.1 r.store v <;> rfl
  rw [hstep]
  exact Unrecorded.records hwork stage

/-- With a profile, the backward stream records, also the instructions that are passed over. -/
theorem records_backwardStep [Arith F] (call : Calls F) :
    Records (backwardStep call) (entryOf .backward) := by
  refine Unrecorded.records (fun p => ?_) .backward
  intro r entries
  dsimp only
  rw [RunState.store_recording]
  -- No arguments, a sparse update, a call of the adjoint, or nothing to do.
  split
  · rfl
  · split
    · exact unrecorded_scatterStep _ _ r entries
    · split
      · split
        · exact unrecorded_adjointStep _ _ _ r entries
        · rfl
      · rfl

/-! ### Streams -/

/-- The entries of completed instructions of a stream, the first ones in it. -/
def entriesOf (stage : Stage) (completed : List (Instruction F)) : List Entry :=
  completed.zipIdx.map (entryOf stage)

@[simp] theorem entriesOf_nil (stage : Stage) : entriesOf stage ([] : List (Instruction F)) = [] :=
  rfl

/-- A run of a stream completes its first `n` instructions, and the next one, if there is one, stops
it: the beginnings of the stream that complete are those that go no further. -/
structure CompletesFirst (run : List (Instruction F) → Outcome (RunState F))
    (stream : List (Instruction F)) (n : Nat) : Prop where
  /-- These instructions are in the stream. -/
  le : n ≤ stream.length
  /-- A beginning completes if it goes no further. -/
  completes_iff : ∀ k ≤ stream.length, (run (stream.take k)).error = none ↔ k ≤ n

/-- The first members of a list have the places that they have in it. -/
theorem zipIdx_take {α : Type} (as : List α) (n k : Nat) :
    (as.take k).zipIdx n = (as.zipIdx n).take k := by
  induction as generalizing n k with
  | nil => simp
  | cons a as ih => cases k <;> simp [ih]

/-- With a profile, a stream of instructions that record ends as without one, and the instructions
that were completed are recorded. -/
theorem Records.stream {step : Instruction F × Nat → RunState F → Outcome (RunState F)}
    {stage : Stage} (h : Records step (entryOf stage)) (stream : List (Instruction F))
    (r : RunState F) (entries : List Entry) :
    ∃ n, CompletesFirst (fun is => runAll step is.zipIdx r) stream n ∧
      runAll step stream.zipIdx (r.recording entries) =
        (runAll step stream.zipIdx r).map
          (·.recording (entries ++ entriesOf stage (stream.take n))) := by
  obtain ⟨n, hn, hcompleted, hrun⟩ := h.run stream.zipIdx r entries
  rw [List.length_zipIdx] at hn hcompleted
  refine ⟨n, ⟨hn, fun k hk => ?_⟩, ?_⟩
  · rw [zipIdx_take]
    exact hcompleted k hk
  · rw [hrun, entriesOf, zipIdx_take]

/-! ### Evaluations -/

/-- The stage of the stream that an evaluation begins with. -/
def Mode.firstStage : Mode → Stage
  | .inference => .inference
  | .forward | .normal => .forward

/-- With a profile, a forward or inference stream records its completed instructions. -/
theorem runForward_recording (call : Calls F) (stage : Stage) (stream : List (Instruction F))
    (r : RunState F) (entries : List Entry) :
    ∃ n, CompletesFirst (fun is => runForward call stage is r) stream n ∧
      runForward call stage stream (r.recording entries) = (runForward call stage stream r).map
        (·.recording (entries ++ entriesOf stage (stream.take n))) :=
  (records_forwardStep call stage).stream stream r entries

section

variable [Arith F]

/-- With a profile, a backward stream records its completed instructions. -/
theorem runBackward_recording (call : Calls F) (stream : List (Instruction F)) (r : RunState F)
    (entries : List Entry) :
    ∃ n, CompletesFirst (fun is => runBackward call is r) stream n ∧
      runBackward call stream (r.recording entries) = (runBackward call stream r).map
        (·.recording (entries ++ entriesOf .backward (stream.take n))) :=
  (records_backwardStep call).stream stream { r with owned := [] } entries

/-- The derivatives are reset and seeded the same way with a profile, and nothing is recorded. -/
theorem unrecorded_seedDers (c : CompiledNet F) (o : EvalOptions F) :
    Unrecorded (seedDers c o) := by
  intro r entries
  unfold seedDers
  rw [RunState.store_recording]
  dsimp only
  cases (r.store.resetDers (keptSlots c o)).set _ o.seed <;> rfl

/-- The part of an evaluation in normal mode that the backward stream follows. -/
def forwardAndSeed (call : Calls F) (c : CompiledNet F) (o : EvalOptions F) (r : RunState F) :
    Outcome (RunState F) :=
  (runForward call .forward c.forward r).andThen (seedDers c o)

/-- Where the backward stream of an evaluation starts, if the mode has one and the evaluation gets
to it. -/
def backwardStart (call : Calls F) (c : CompiledNet F) (mode : Mode) (o : EvalOptions F)
    (r : RunState F) : Option (RunState F) :=
  if mode = .normal ∧ (forwardAndSeed call c o r).error = none then
    some (forwardAndSeed call c o r).state
  else none

theorem forwardAndSeed_recording (call : Calls F) (c : CompiledNet F) (o : EvalOptions F)
    (r : RunState F) (entries : List Entry) :
    ∃ n, CompletesFirst (fun is => runForward call .forward is r) c.forward n ∧
      forwardAndSeed call c o (r.recording entries) = (forwardAndSeed call c o r).map
        (·.recording (entries ++ entriesOf .forward (c.forward.take n))) := by
  obtain ⟨n, hn, hrun⟩ := runForward_recording call .forward c.forward r entries
  refine ⟨n, hn, ?_⟩
  simp only [forwardAndSeed, hrun]
  obtain ⟨t, e⟩ := runForward call .forward c.forward r
  cases e with
  | none => exact unrecorded_seedDers c o t _
  | some e => rfl

/-- What an evaluation that is not refused records: the completed instructions of its first stream,
then those of the backward stream if it gets to it. -/
theorem evaluate_recording {call : Calls F} {c : CompiledNet F} {mode : Mode} {o : EvalOptions F}
    {r : RunState F} (hstart : checkRequest c mode o r.store = .ok ()) (before : List Entry) :
    ∃ n m,
      CompletesFirst (fun is => runForward call mode.firstStage is r) (c.firstStream mode) n ∧
      (∀ t, backwardStart call c mode o r = some t →
        CompletesFirst (fun is => runBackward call is t) c.backward m) ∧
      (backwardStart call c mode o r = none → m = 0) ∧
      evaluate call c mode o (r.recording before) = (evaluate call c mode o r).map
        (·.recording (before ++ (entriesOf mode.firstStage ((c.firstStream mode).take n) ++
          entriesOf .backward (c.backward.take m)))) := by
  simp only [evaluate, RunState.store_recording, hstart]
  cases mode with
  | forward =>
    obtain ⟨n, hn, hrun⟩ := runForward_recording call .forward c.forward r before
    refine ⟨n, 0, hn, by simp [backwardStart], by simp, ?_⟩
    simpa [CompiledNet.firstStream, Mode.firstStage] using hrun
  | inference =>
    obtain ⟨n, hn, hrun⟩ := runForward_recording call .inference c.test r before
    refine ⟨n, 0, hn, by simp [backwardStart], by simp, ?_⟩
    simpa [CompiledNet.firstStream, Mode.firstStage] using hrun
  | normal =>
    obtain ⟨n, hn, hrun⟩ := forwardAndSeed_recording call c o r before
    change ∃ n m, _ ∧ _ ∧ _ ∧ (forwardAndSeed call c o (r.recording before)).andThen _
      = ((forwardAndSeed call c o r).andThen _).map _
    rw [hrun]
    cases herror : (forwardAndSeed call c o r).error with
    | some e =>
      -- The backward stream is not reached.
      refine ⟨n, 0, hn, by simp [backwardStart, herror], by simp, ?_⟩
      simp [Outcome.andThen, Outcome.map, herror, CompiledNet.firstStream, Mode.firstStage]
    | none =>
      obtain ⟨m, hm, hback⟩ := runBackward_recording call c.backward
        (forwardAndSeed call c o r).state (before ++ entriesOf .forward (c.forward.take n))
      refine ⟨n, m, hn, ?_, by simp [backwardStart, herror], ?_⟩
      · intro t ht
        have hstate : (forwardAndSeed call c o r).state = t := by
          simpa [backwardStart, herror] using ht
        rwa [← hstate]
      · simp only [Outcome.andThen, Outcome.map, herror, hback]
        simp [CompiledNet.firstStream, Mode.firstStage]

variable [Interchange F]

/-- **A profile changes nothing and records what was completed.**  An evaluation that keeps a
profile ends in the store and with the error that it ends with otherwise.  One that is refused
records nothing.  Any other appends an entry for each completed instruction, in order: of its first
stream the instructions up to the first that fails, and of the backward stream, if it is reached,
again those up to the first that fails. -/
theorem profile_records_completed (call : Calls F) (c : CompiledNet F) (named : Value F)
    (o : EvalOptions F) (r : RunState F) (before : List Entry) :
    ∃ ran, evaluateNamed call c named o (r.recording before)
        = (evaluateNamed call c named o r).map (·.recording (before ++ ran)) ∧
      ((∀ mode, Mode.parse named = .ok mode → checkRequest c mode o r.store ≠ .ok ()) →
        ran = []) ∧
      ∀ mode, Mode.parse named = .ok mode → checkRequest c mode o r.store = .ok () →
        ∃ n m, ran = entriesOf mode.firstStage ((c.firstStream mode).take n) ++
            entriesOf .backward (c.backward.take m) ∧
          CompletesFirst (fun is => runForward call mode.firstStage is r)
            (c.firstStream mode) n ∧
          (∀ t, backwardStart call c mode o r = some t →
            CompletesFirst (fun is => runBackward call is t) c.backward m) ∧
          (backwardStart call c mode o r = none → m = 0) := by
  cases hparse : Mode.parse named with
  | error e =>
    refine ⟨[], ?_, fun _ => rfl, nofun⟩
    simp [evaluateNamed, hparse, Outcome.map, Outcome.stopped]
  | ok mode =>
    rw [evaluateNamed_of_parse hparse, evaluateNamed_of_parse hparse]
    cases hcheck : checkRequest c mode o r.store with
    | error e =>
      refine ⟨[], ?_, fun _ => rfl, ?_⟩
      · simp [evaluate, hcheck, Outcome.map, Outcome.stopped]
      · rintro _ ⟨⟩ hstart
        rw [hcheck] at hstart
        cases hstart
    | ok u =>
      obtain ⟨n, m, hn, hm, hnone, hrun⟩ := evaluate_recording hcheck before
      refine ⟨_, hrun, fun hrefused => absurd hcheck (hrefused mode rfl), ?_⟩
      rintro _ ⟨⟩ _
      exact ⟨n, m, rfl, hn, hm, hnone⟩

end

/-- The square without an adjoint. -/
def squareForward : Op := { Builtin.square.op with name := "square_forward", adjoint := none }

/-- A parameter that is squared without an adjoint, and then doubled. -/
def doubledSquare : List (Node ℚ) :=
  [⟨0, bareLabel, .param ⟨.real 3, .none, .none, .gradient⟩⟩,
    ⟨1, bareLabel, .layer ⟨squareForward, [.node ⟨0, .param, ""⟩], [], .same, .same, [], none⟩⟩,
    ⟨2, bareLabel, .layer ⟨Builtin.times.op, [.node ⟨1, .layer, ""⟩, .real 2], [], .same, .same, [],
      none⟩⟩]

theorem profile_records_completed_doubled_square :
    ∃ c, compileNodes [] (fun _ => true) doubledSquare none plainOptions = .ok c ∧
      (evaluateNamed builtinCalls c.net (.text "normal") ⟨.real 1, false⟩ ⟨c.store, [], none⟩).error
        = some (.noAdjoint "square_forward" "square_forward1" "") ∧
      evaluateNamed builtinCalls c.net (.text "normal") ⟨.real 1, false⟩ ⟨c.store, [], some []⟩
        = (evaluateNamed builtinCalls c.net (.text "normal") ⟨.real 1, false⟩
            ⟨c.store, [], none⟩).map
          (·.recording [⟨0, "square_forward1", "square_forward", .forward⟩,
            ⟨1, "times1", "times", .forward⟩, ⟨0, "times1", "times", .backward⟩]) := by
  obtain ⟨c, hc⟩ := exists_of_isOk
    (x := compileNodes [] (fun _ => true) doubledSquare none plainOptions) rfl
  refine ⟨c, hc, ?_⟩
  obtain ⟨ran, hrun, -, hrecorded⟩ := profile_records_completed builtinCalls c.net
    (.text "normal") ⟨.real 1, false⟩ ⟨c.store, [], none⟩ []
  cases hc
  obtain ⟨n, m, rfl, hn, hm, -⟩ := hrecorded .normal rfl rfl
  -- The forward stream completes; the backward stream stops at its second instruction.
  have hforward : n = 2 := Nat.le_antisymm hn.le ((hn.completes_iff 2 (le_refl 2)).mp rfl)
  have hback := hm _ rfl
  have hfirst : 1 ≤ m := (hback.completes_iff 1 (by decide)).mp rfl
  have hsecond : ¬2 ≤ m := fun h => nomatch (hback.completes_iff 2 (le_refl 2)).mpr h
  obtain rfl : m = 1 := by omega
  subst hforward
  exact ⟨rfl, hrun⟩

end SlotGrad
