import SlotGrad.Proofs.Assembly
import SlotGrad.Proofs.CheckedNets
import SlotGrad.Workspace.Actions

/-!
# What a failed evaluation leaves behind

A forward or an inference stream runs from its first instruction to the first one that fails, if
there is one.  The store is then what the completed instructions made of it: their output slots hold
their results, and no other slot has changed.  An evaluation that is refused has not begun, and its
store is as before.

## Main definitions

* `evaluateNamed` — an evaluation in the mode that a value names.
* `CompiledNet.firstStream` — the stream that an evaluation begins with.
* `Advances` — instructions that run one after another, each with its result.
* `WritesLayers` — a stream whose outputs are value slots of layers, no two the same.
* `LeftBy` — what completed instructions leave of a store.

## Main results

* `Advances.stopped` — an instruction that fails stops the run at the store that it found.
* `advances_or_stops` — a stream gets through, or some instruction of it is the first to fail.
* `WritesLayers.leftBy` — completed instructions change their outputs and nothing else.
* `failed_evaluation_leaves_prefix` — refused, failed and completed evaluations of a compiled net.
-/

namespace SlotGrad

variable {F : Type}

/-! ### Evaluation in a named mode -/

/-- The stream that an evaluation begins with. -/
def CompiledNet.firstStream (c : CompiledNet F) : Mode → List (Instruction F)
  | .inference => c.test
  | .forward | .normal => c.forward

section

variable [Arith F] [Interchange F]

/-- Evaluate a net in the mode that a value names. -/
def evaluateNamed (call : Calls F) (c : CompiledNet F) (named : Value F) (o : EvalOptions F)
    (r : RunState F) : Outcome (RunState F) :=
  match Mode.parse named with
  | .ok mode => evaluate call c mode o r
  | .error e => .stopped r e

/-- The evaluation on one of a program's stores is this one. -/
theorem Work.evaluateAt_parse (name : String) (k : Nat) (named : Value F) (o : EvalOptions F)
    (profiled : Bool) :
    Work.evaluateAt name k (Mode.parse named) o profiled = (do
      let start : RunState F := ⟨← storeAt k, [], if profiled then some [] else none⟩
      let c ← compiledOf name
      let done := evaluateNamed (← calls none) c named o start
      setStore k done.state.store
      return done) := rfl

theorem evaluateNamed_of_parse {named : Value F} {mode : Mode} (h : Mode.parse named = .ok mode)
    (call : Calls F) (c : CompiledNet F) (o : EvalOptions F) (r : RunState F) :
    evaluateNamed call c named o r = evaluate call c mode o r := by
  unfold evaluateNamed
  rw [h]

end

/-! ### Instructions one after another -/

/-- Instructions that run one after another from a store: each answers on the store that those
before it left, and the answer is written to its output slot. -/
inductive Advances (call : Calls F) :
    List (Instruction F) → Store F → List (Value F) → Store F → Prop
  /-- Nothing has run. -/
  | nil (s : Store F) : Advances call [] s [] s
  /-- An instruction has run, and others after it. -/
  | cons {i : Instruction F} {is : List (Instruction F)} {s t : Store F} {v : Value F}
      {vs : List (Value F)} {slot : Nat} (answers : callOn call i s = .ok v)
      (output : i.outputVar = some (slot : Int)) (inStore : slot < s.size)
      (rest : Advances call is (s.setAt slot v) vs t) : Advances call (i :: is) s (v :: vs) t

namespace Advances

variable {call : Calls F} {is : List (Instruction F)} {s t : Store F} {vs : List (Value F)}

theorem length_eq (h : Advances call is s vs t) : vs.length = is.length := by
  induction h with
  | nil s => rfl
  | cons _ _ _ _ ih => rw [List.length_cons, List.length_cons, ih]

theorem size_eq (h : Advances call is s vs t) : t.size = s.size := by
  induction h with
  | nil s => rfl
  | cons _ _ _ _ ih => rw [ih, Store.size_setAt]

/-- A slot that is no output keeps its content. -/
theorem content_of_ne (h : Advances call is s vs t) {k : Nat}
    (hk : ∀ i ∈ is, i.outputVar ≠ some (k : Int)) : t.content k = s.content k := by
  induction h with
  | nil s => rfl
  | @cons i is s t v vs slot _ output _ _ ih =>
    have hne : k ≠ slot := by
      rintro rfl
      exact hk i (List.mem_cons_self ..) output
    rw [ih fun j hj => hk j (List.mem_cons_of_mem _ hj), Store.content_setAt_of_ne s hne]

/-- If no two outputs are the same, every output holds the answer of its instruction. -/
theorem content_output (h : Advances call is s vs t)
    (hdistinct : is.Pairwise fun i j => i.outputVar ≠ j.outputVar) {n : Nat} {i : Instruction F}
    {v : Value F} (hi : is[n]? = some i) (hv : vs[n]? = some v) :
    ∃ slot : Nat, i.outputVar = some (slot : Int) ∧ t.content slot = v := by
  induction h generalizing n with
  | nil s => cases hi
  | @cons i' is s t v' vs slot _ output inStore rest ih =>
    obtain ⟨hfirst, hdistinct⟩ := List.pairwise_cons.mp hdistinct
    cases n with
    | succ n => exact ih hdistinct hi hv
    | zero =>
      cases hi
      cases hv
      -- No later instruction writes the slot again.
      have hlater : ∀ j ∈ is, j.outputVar ≠ some (slot : Int) := fun j hj => by
        rw [← output]
        exact (hfirst j hj).symm
      refine ⟨slot, output, ?_⟩
      rw [rest.content_of_ne hlater, Store.content_setAt_self inStore]

end Advances

/-- One instruction of a forward or inference stream writes its answer to its output slot, or stops
where it found the store. -/
theorem forwardStep_eq {i : Instruction F} {slot : Nat} (houtput : i.outputVar = some (slot : Int))
    {r : RunState F} (hslot : slot < r.store.size) (call : Calls F) (stage : Stage) (index : Nat) :
    forwardStep call stage (i, index) r = .attempt r ((callOn call i r.store).map fun v =>
      RunState.record index stage i { r with store := r.store.setAt slot v }) := by
  have hwrite : ∀ v, writeOutput i r.store v = .ok (r.store.setAt slot v) := by
    intro v
    unfold writeOutput
    rw [houtput]
    exact Store.set_natCast hslot v
  unfold forwardStep
  dsimp only
  cases callOn call i r.store with
  | error e => rfl
  | ok v => simp [hwrite, bind, Except.bind, Except.map, liftM_eq_lift, pure, Except.pure]

/-- A run of instructions that all answer completes with the store that they leave. -/
theorem Advances.completed {call : Calls F} {is : List (Instruction F)} {s t : Store F}
    {vs : List (Value F)} (h : Advances call is s vs t) (stage : Stage) (n : Nat)
    {r : RunState F} (hr : r.store = s) :
    (runAll (forwardStep call stage) (is.zipIdx n) r).error = none ∧
      (runAll (forwardStep call stage) (is.zipIdx n) r).state.store = t := by
  induction h generalizing n r with
  | nil s => exact ⟨rfl, hr⟩
  | @cons i is s t v vs slot answers output inStore _ ih =>
    subst hr
    rw [List.zipIdx_cons, runAll_cons, forwardStep_eq output inStore, answers]
    exact ih (n + 1) rfl

/-- An instruction that fails stops the run; the store is the one that it found. -/
theorem Advances.stopped {call : Calls F} {is : List (Instruction F)} {vs : List (Value F)}
    {t : Store F} {r : RunState F} (h : Advances call is r.store vs t) {i : Instruction F}
    {slot : Nat} (houtput : i.outputVar = some (slot : Int)) (hslot : slot < t.size) {e : Error}
    (he : callOn call i t = .error e) (stage : Stage) (rest : List (Instruction F)) :
    (runForward call stage (is ++ i :: rest) r).error = some e ∧
      (runForward call stage (is ++ i :: rest) r).state.store = t := by
  obtain ⟨hdone, hstore⟩ := h.completed stage 0 rfl
  unfold runForward
  rw [List.zipIdx_append, runAll_append]
  generalize hrun : runAll (forwardStep call stage) (is.zipIdx 0) r = run at hdone hstore
  obtain ⟨r', o⟩ := run
  cases hdone
  cases hstore
  unfold Outcome.andThen
  dsimp only
  rw [List.zipIdx_cons, runAll_cons, forwardStep_eq houtput hslot, he]
  exact ⟨rfl, rfl⟩

/-- A stream whose outputs are in the store gets through, or one of its instructions is the first to
fail. -/
theorem advances_or_stops (call : Calls F) {is : List (Instruction F)} {s : Store F}
    (hout : ∀ i ∈ is, ∃ slot : Nat, i.outputVar = some (slot : Int) ∧ slot < s.size) :
    (∃ vs t, Advances call is s vs t) ∨
      ∃ k i vs t e, is[k]? = some i ∧ Advances call (is.take k) s vs t ∧
        callOn call i t = .error e := by
  induction is generalizing s with
  | nil => exact .inl ⟨[], s, .nil s⟩
  | cons i is ih =>
    cases hcall : callOn call i s with
    | error e => exact .inr ⟨0, i, [], s, e, rfl, .nil s, hcall⟩
    | ok v =>
      obtain ⟨slot, houtput, hslot⟩ := hout i (List.mem_cons_self ..)
      have hrest : ∀ j ∈ is, ∃ slot' : Nat, j.outputVar = some (slot' : Int) ∧
          slot' < (s.setAt slot v).size := by
        intro j hj
        rw [Store.size_setAt]
        exact hout j (List.mem_cons_of_mem _ hj)
      rcases ih hrest with ⟨vs, t, h⟩ | ⟨k, j, vs, t, e, hj, h, he⟩
      · exact .inl ⟨v :: vs, t, .cons hcall houtput hslot h⟩
      · exact .inr ⟨k + 1, j, v :: vs, t, e, hj, .cons hcall houtput hslot h, he⟩

/-! ### The streams of compiled nets -/

/-- A stream whose outputs are the value slots of layers of a list, no two the same. -/
structure WritesLayers (nodes : List (Node F)) (stream : List (Instruction F)) : Prop where
  /-- Outputs are value slots of layers. -/
  output : ∀ i ∈ stream, ∃ j a, (j, a) ∈ layersOf nodes ∧
    i.outputVar = some ((valueSlot j : Nat) : Int)
  /-- No two outputs are the same. -/
  distinct : stream.Pairwise fun i j => i.outputVar ≠ j.outputVar

theorem WritesLayers.take {nodes : List (Node F)} {stream : List (Instruction F)}
    (h : WritesLayers nodes stream) (k : Nat) : WritesLayers nodes (stream.take k) :=
  ⟨fun i hi => h.output i (List.mem_of_mem_take hi),
    h.distinct.sublist (List.take_sublist k stream)⟩

theorem WritesLayers.inStore {nodes : List (Node F)} {stream : List (Instruction F)}
    (h : WritesLayers nodes stream) {s : Store F} (hs : s.size = 2 * nodes.length) :
    ∀ i ∈ stream, ∃ slot : Nat, i.outputVar = some (slot : Int) ∧ slot < s.size := by
  intro i hi
  obtain ⟨j, a, hj, houtput⟩ := h.output i hi
  exact ⟨valueSlot j, houtput, hs ▸ valueSlot_lt.mpr (layersOf_place_lt hj)⟩

/-- The instructions of layers at increasing places write slots of their own. -/
theorem writesLayers_map {nodes : List (Node F)} {layers : List (Placed F)}
    (hplaces : layers.map (fun p => (p.place, p.layer)) = layersOf nodes)
    {f : Placed F → Instruction F}
    (hf : ∀ p, (f p).outputVar = some ((valueSlot p.place : Nat) : Int)) :
    WritesLayers nodes (layers.map f) := by
  constructor
  · intro i hi
    obtain ⟨p, hp, rfl⟩ := List.mem_map.mp hi
    refine ⟨p.place, p.layer, ?_, hf p⟩
    rw [← hplaces]
    exact List.mem_map.mpr ⟨p, hp, rfl⟩
  · have hincreasing := layersOf_increasing nodes
    rw [← hplaces, List.pairwise_map] at hincreasing
    refine List.pairwise_map.mpr (hincreasing.imp fun {p q} hlt heq => ?_)
    rw [hf, hf] at heq
    exact absurd (natCast_valueSlot_inj.mp (Option.some.inj heq)) (Nat.ne_of_lt hlt)

/-- Whatever stream an evaluation of a compiled net begins with, it writes layers. -/
theorem compileNodes_writesLayers [Arith F] [Interchange F] {checks : Checks F}
    {known : Node F → Bool} {nodes : List (Node F)} {roots : Option (List Handle)}
    {options : Options F} {c : Compilation F}
    (hc : compileNodes checks known nodes roots options = .ok c) :
    c.net.numVars = 2 * nodes.length ∧ ∀ mode, WritesLayers nodes (c.net.firstStream mode) := by
  obtain ⟨-, names, heads, hlen, hnet⟩ := compileNodes_assembled hc
  have hstreams := assemble_streams hlen hnet
  have hforward : WritesLayers nodes c.net.forward := by
    rw [hstreams.forward]
    exact writesLayers_map hstreams.places fun _ => rfl
  have htest : WritesLayers nodes c.net.test := by
    rw [assemble_test hnet, List.map_map]
    exact writesLayers_map hstreams.places fun _ => rfl
  refine ⟨hstreams.numVars, fun mode => ?_⟩
  cases mode with
  | forward => exact hforward
  | normal => exact hforward
  | inference => exact htest

/-- What completed instructions leave of a store: their outputs hold their answers, and no other
slot has changed. -/
structure LeftBy (nodes : List (Node F)) (completed : List (Instruction F)) (s : Store F)
    (vs : List (Value F)) (t : Store F) : Prop where
  /-- The number of slots is the same. -/
  size : t.size = s.size
  /-- Every completed instruction has an answer. -/
  answered : vs.length = completed.length
  /-- The output of an instruction holds its answer. -/
  outputs : ∀ (n : Nat) (i : Instruction F) (v : Value F), completed[n]? = some i →
    vs[n]? = some v → ∃ slot : Nat, i.outputVar = some (slot : Int) ∧ t.content slot = v
  /-- A slot that is no output has not changed. -/
  others : ∀ k : Nat, (∀ i ∈ completed, i.outputVar ≠ some (k : Int)) → t.content k = s.content k
  /-- A slot that has changed is the value slot of a layer. -/
  layers : ∀ k, t.content k ≠ s.content k →
    ∃ j n, nodes[j]? = some n ∧ n.kind = .layer ∧ k = valueSlot j
  /-- No derivative has changed. -/
  ders : ∀ j, t.content (valueSlot j + 1) = s.content (valueSlot j + 1)
  /-- No input and no parameter has changed. -/
  leaves : ∀ (j : Nat) (n : Node F), nodes[j]? = some n → n.kind ≠ .layer →
    t.content (valueSlot j) = s.content (valueSlot j)

/-- Completed instructions of a stream that writes layers change their outputs and nothing else. -/
theorem WritesLayers.leftBy {nodes : List (Node F)} {completed : List (Instruction F)}
    (h : WritesLayers nodes completed) {call : Calls F} {s t : Store F} {vs : List (Value F)}
    (hrun : Advances call completed s vs t) : LeftBy nodes completed s vs t := by
  have hlayers : ∀ k, t.content k ≠ s.content k →
      ∃ j n, nodes[j]? = some n ∧ n.kind = .layer ∧ k = valueSlot j := by
    intro k hk
    by_contra hno
    refine hk (hrun.content_of_ne fun i hi houtput => hno ?_)
    obtain ⟨j, a, hj, hslot⟩ := h.output i hi
    obtain ⟨n, hn, hrole⟩ := mem_layersOf.mp hj
    rw [houtput] at hslot
    refine ⟨j, n, hn, ?_, Int.ofNat.inj (Option.some.inj hslot)⟩
    unfold Node.kind
    rw [hrole]
  refine ⟨hrun.size_eq, hrun.length_eq, fun n i v hi hv => hrun.content_output h.distinct hi hv,
    fun k hk => hrun.content_of_ne hk, hlayers, ?_, ?_⟩
  · intro j
    by_contra hne
    obtain ⟨j', n, -, -, heq⟩ := hlayers _ hne
    exact valueSlot_ne_succ j' j heq.symm
  · intro j n hn hkind
    by_contra hne
    obtain ⟨j', n', hn', hkind', heq⟩ := hlayers _ hne
    obtain rfl := valueSlot_inj.mp heq
    rw [hn] at hn'
    cases hn'
    exact hkind hkind'

/-! ### Evaluations -/

section

variable {c : CompiledNet F} {mode : Mode} {o : EvalOptions F}

/-- A request is accepted if it has a seed where one is needed and a store of the net's size. -/
theorem checkRequest_eq_ok {s : Store F} (hseed : mode = .normal → isEmptySeed o.seed = false)
    (hsize : (s.size : Int) = c.numVars) : checkRequest c mode o s = .ok () := by
  unfold checkRequest
  rw [if_neg fun h => by simp [hseed h.1] at h, if_neg fun h => h hsize]
  rfl

variable [Arith F] {call : Calls F} {r : RunState F}

/-- If the first stream of an accepted evaluation stops, the evaluation stops with it. -/
theorem evaluate_stopped (haccepted : checkRequest c mode o r.store = .ok ()) {e : Error}
    {t : Store F}
    (h : ∀ stage, (runForward call stage (c.firstStream mode) r).error = some e ∧
      (runForward call stage (c.firstStream mode) r).state.store = t) :
    (evaluate call c mode o r).error = some e ∧ (evaluate call c mode o r).state.store = t := by
  unfold evaluate
  rw [haccepted]
  cases mode with
  | forward => exact h .forward
  | inference => exact h .inference
  | normal =>
    obtain ⟨herror, hstore⟩ := h .forward
    unfold CompiledNet.firstStream at herror hstore
    dsimp only at herror hstore ⊢
    generalize runForward call .forward c.forward r = run at herror hstore ⊢
    obtain ⟨r', o'⟩ := run
    cases herror
    exact ⟨rfl, hstore⟩

/-- Without a backward pass an accepted evaluation is the run of its stream. -/
theorem evaluate_eq_runForward (haccepted : checkRequest c mode o r.store = .ok ())
    (hmode : mode ≠ .normal) :
    ∃ stage, evaluate call c mode o r = runForward call stage (c.firstStream mode) r := by
  unfold evaluate
  rw [haccepted]
  cases mode with
  | forward => exact ⟨.forward, rfl⟩
  | inference => exact ⟨.inference, rfl⟩
  | normal => exact absurd rfl hmode

end

/-- **What an evaluation leaves of its store.**  An evaluation of a compiled net that names no mode,
has no seed where it needs one, or has a store of another size is refused and changes nothing.  Any
other goes through its first stream or stops at an instruction of it.  If it stops, then with that
instruction's error, and the store is as before except that the outputs of the instructions before
it hold their results: derivatives, inputs and parameters are untouched.  The same holds of a whole
stream that is not followed by a backward pass. -/
theorem failed_evaluation_leaves_prefix [Arith F] [Interchange F] {checks : Checks F}
    {known : Node F → Bool} {nodes : List (Node F)} {roots : Option (List Handle)}
    {options : Options F} {c : Compilation F}
    (hc : compileNodes checks known nodes roots options = .ok c) (call : Calls F)
    (named : Value F) (o : EvalOptions F) (r : RunState F) :
    (∀ e, Mode.parse named = .error e → evaluateNamed call c.net named o r = .stopped r e) ∧
    ∀ mode, Mode.parse named = .ok mode →
      (mode = .normal → isEmptySeed o.seed = true →
        evaluateNamed call c.net named o r = .stopped r .emptySeed) ∧
      ((mode = .normal → isEmptySeed o.seed = false) →
        ((r.store.size : Int) ≠ c.net.numVars →
          evaluateNamed call c.net named o r = .stopped r (.storeSize r.store.size c.net.numVars)) ∧
        ((r.store.size : Int) = c.net.numVars →
          ((∃ vs t, Advances call (c.net.firstStream mode) r.store vs t) ∨
            ∃ k i vs t e, (c.net.firstStream mode)[k]? = some i ∧
              Advances call ((c.net.firstStream mode).take k) r.store vs t ∧
              callOn call i t = .error e) ∧
          (∀ k i vs t e, (c.net.firstStream mode)[k]? = some i →
            Advances call ((c.net.firstStream mode).take k) r.store vs t →
            callOn call i t = .error e →
              (evaluateNamed call c.net named o r).error = some e ∧
              (evaluateNamed call c.net named o r).state.store = t ∧
              LeftBy nodes ((c.net.firstStream mode).take k) r.store vs t) ∧
          (mode ≠ .normal → (evaluateNamed call c.net named o r).error = none →
            ∃ vs, Advances call (c.net.firstStream mode) r.store vs
                (evaluateNamed call c.net named o r).state.store ∧
              LeftBy nodes (c.net.firstStream mode) r.store vs
                (evaluateNamed call c.net named o r).state.store))) := by
  obtain ⟨hnumVars, hwrites⟩ := compileNodes_writesLayers hc
  refine ⟨fun e he => by unfold evaluateNamed; rw [he], fun mode hmode => ?_⟩
  rw [evaluateNamed_of_parse hmode]
  have hwrites := hwrites mode
  -- The request is refused for its seed, refused for its store, or accepted.
  refine ⟨fun hnormal hempty => ?_, fun hseed => ⟨fun hsize => ?_, fun hsize => ?_⟩⟩
  · unfold evaluate checkRequest
    rw [if_pos ⟨hnormal, hempty⟩]
    rfl
  · unfold evaluate checkRequest
    rw [if_neg fun h => by simp [hseed h.1] at h, if_pos hsize]
    rfl
  have haccepted := checkRequest_eq_ok hseed hsize
  have hstore : r.store.size = 2 * nodes.length := by omega
  -- The first stream runs to its end or stops at one of its instructions.
  have hways := advances_or_stops call (hwrites.inStore hstore)
  -- Where an instruction fails the evaluation stops too, with what was left before it.
  have hstops : ∀ k i vs t e, (c.net.firstStream mode)[k]? = some i →
      Advances call ((c.net.firstStream mode).take k) r.store vs t → callOn call i t = .error e →
        (evaluate call c.net mode o r).error = some e ∧
          (evaluate call c.net mode o r).state.store = t := by
    intro k i vs t e hi hrun he
    obtain ⟨hlt, rfl⟩ := List.getElem?_eq_some_iff.mp hi
    obtain ⟨slot, houtput, hslot⟩ :=
      hwrites.inStore (hrun.size_eq.trans hstore) _ (List.getElem_mem hlt)
    refine evaluate_stopped haccepted fun stage => ?_
    have hstopped := hrun.stopped houtput hslot he stage ((c.net.firstStream mode).drop (k + 1))
    rwa [← List.drop_eq_getElem_cons hlt, List.take_append_drop] at hstopped
  refine ⟨hways, ?_, fun hforward hdone => ?_⟩
  · intro k i vs t e hi hrun he
    obtain ⟨herror, hleft⟩ := hstops k i vs t e hi hrun he
    exact ⟨herror, hleft, (hwrites.take k).leftBy hrun⟩
  · -- A completed evaluation has not stopped at any instruction.
    rcases hways with ⟨vs, t, hrun⟩ | ⟨k, i, vs, t, e, hi, hrun, he⟩
    · obtain ⟨stage, heq⟩ : ∃ stage, evaluate call c.net mode o r
          = runForward call stage (c.net.firstStream mode) r :=
        evaluate_eq_runForward haccepted hforward
      have hleft : (evaluate call c.net mode o r).state.store = t := by
        rw [heq]
        exact (hrun.completed stage 0 rfl).2
      rw [hleft]
      exact ⟨vs, hrun, hwrites.leftBy hrun⟩
    · rw [(hstops k i vs t e hi hrun he).1] at hdone
      cases hdone

/-- Two inputs, the square of the first, and the square times the second. -/
def scaledSquare : List (Node ℚ) :=
  [⟨0, bareLabel, .input⟩, ⟨1, bareLabel, .input⟩,
    ⟨2, bareLabel, .layer ⟨Builtin.square.op, [.node ⟨0, .input, ""⟩], [], .same, .same, [], none⟩⟩,
    ⟨3, bareLabel, .layer ⟨Builtin.times.op, [.node ⟨2, .layer, ""⟩, .node ⟨1, .input, ""⟩], [],
      .same, .same, [], none⟩⟩]

theorem failed_evaluation_leaves_prefix_scaled_square :
    ∃ c, compileNodes [] (fun _ => true) scaledSquare none plainOptions = .ok c ∧
      (evaluateNamed builtinCalls c.net (.text "normal") ⟨.real 1, false⟩
        ⟨c.store.setAt 0 (.integer 3), [], none⟩).error = some (.fault .wrongKind) ∧
      (evaluateNamed builtinCalls c.net (.text "normal") ⟨.real 1, false⟩
        ⟨c.store.setAt 0 (.integer 3), [], none⟩).state.store
          = (c.store.setAt 0 (.integer 3)).setAt 4 (.integer 9) ∧
      LeftBy scaledSquare (c.net.forward.take 1) (c.store.setAt 0 (.integer 3)) [.integer 9]
        ((c.store.setAt 0 (.integer 3)).setAt 4 (.integer 9)) := by
  obtain ⟨c, hc⟩ := exists_of_isOk
    (x := compileNodes [] (fun _ => true) scaledSquare none plainOptions) rfl
  refine ⟨c, hc, ?_⟩
  have hleft := failed_evaluation_leaves_prefix hc builtinCalls (.text "normal") ⟨.real 1, false⟩
    ⟨c.store.setAt 0 (.integer 3), [], none⟩
  cases hc
  -- The second input is not set, so the square is written and the product fails.
  obtain ⟨-, hstopped, -⟩ := ((hleft.2 .normal rfl).2 fun _ => rfl).2 rfl
  obtain ⟨herror, hstore, hleft⟩ := hstopped 1 _ [.integer 9] _ (.fault .wrongKind) rfl
    (.cons rfl rfl (by decide) (.nil _)) rfl
  exact ⟨herror, hstore, hleft⟩

end SlotGrad
