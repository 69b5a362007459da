import SlotGrad.Proofs.AssembledNets
import SlotGrad.Proofs.ListingChecks

/-!
# Inference mode is a graph of its own

A layer may run another op in inference mode, with other arguments, or pass its first argument
on.  All of this can be settled before compilation: the list in which every layer is replaced by
one that says outright what the layer does in inference mode compiles to a forward stream that
does the same as the stream of inference mode, instruction by instruction.  So the two runs also
fail alike, at the same instruction and with the same store.

The two streams are the same up to the names of instructions.  A layer's name gives names to the
parameters it reads, and the replaced layers may read others; names are recorded in profiles only.

## Main definitions

* `Application.overridden`, `Node.overridden` — a layer that does at any time what it does in
  inference mode.
* `SameResult` — two runs leave one store and both complete or stop with one error.

## Main results

* `ordered_overridden`, `exists_compileNodes_overridden` — the replaced list is in dependency order
  and compiles.
* `runForward_renamed` — streams that differ in names take the same course.
* `inference_is_overridden_forward` — inference mode is forward mode of the replaced list.
-/

namespace SlotGrad

variable {F : Type}

/-! ### The graph of inference mode -/

/-- An application that says outright what a layer does in inference mode. -/
def Application.overridden (a : Application F) : Application F :=
  ⟨a.inference.op, a.inference.args, a.inference.kwargs, .same, .same, [], a.derCount⟩

/-- A node with a layer's settings for inference mode carried out. -/
def Node.overridden (n : Node F) : Node F :=
  match n.role with
  | .layer a => { n with role := .layer a.overridden }
  | _ => n

/-- Whether a layer does in inference mode what it always does. -/
def Application.Uniform (a : Application F) : Prop := a.testOp = .same ∧ a.testArgs = .same

@[simp] theorem Node.id_overridden (n : Node F) : n.overridden.id = n.id := by
  unfold Node.overridden
  split <;> rfl

@[simp] theorem Node.label_overridden (n : Node F) : n.overridden.label = n.label := by
  unfold Node.overridden
  split <;> rfl

@[simp] theorem Node.application?_overridden (n : Node F) :
    n.overridden.application? = n.application?.map Application.overridden := by
  unfold Node.application?
  cases hrole : n.role <;> simp [Node.overridden, hrole]

/-- The replaced layer reads nodes that the layer depends on. -/
theorem Node.mem_deps_of_overridden {n : Node F} {h : Handle} (hh : h ∈ n.overridden.deps) :
    h ∈ n.deps := by
  cases hrole : n.role with
  | input => simpa [Node.overridden, hrole] using hh
  | param p => simpa [Node.overridden, hrole] using hh
  | layer a =>
    have hargs : h ∈ Node.handles a.inference.args := by
      simpa [Node.overridden, hrole, Node.deps, Application.overridden] using hh
    obtain ⟨v, hv, hnode⟩ := List.mem_filterMap.mp hargs
    exact mem_deps_of_inference hrole (Value.node?_eq_some.mp hnode ▸ hv)

theorem Application.Uniform.inference_eq {a : Application F} (h : a.Uniform) : a.inference = a := by
  obtain ⟨op, args, kwargs, testOp, testArgs, testKwargs, derCount⟩ := a
  obtain ⟨rfl, rfl⟩ := h
  rfl

theorem map_id_overridden (nodes : List (Node F)) :
    (nodes.map Node.overridden).map Node.id = nodes.map Node.id := by
  rw [List.map_map]
  exact List.map_congr_left fun n _ => n.id_overridden

/-- Replacing layers keeps the dependency order. -/
theorem ordered_overridden {nodes : List (Node F)} (ho : Ordered nodes) :
    Ordered (nodes.map Node.overridden) := by
  refine ⟨map_id_overridden nodes ▸ ho.distinct, fun k n hn h hh => ?_⟩
  rw [List.getElem?_map] at hn
  obtain ⟨n', hn', rfl⟩ := Option.map_eq_some_iff.mp hn
  obtain ⟨j, hj, m, hm, hid⟩ := ho.earlier k n' hn' h (Node.mem_deps_of_overridden hh)
  refine ⟨j, hj, m.overridden, ?_, by rw [m.id_overridden, hid]⟩
  rw [List.getElem?_map, hm, Option.map_some]

/-- Places are found by identity, so references resolve to the same slots. -/
theorem slotIn_overridden (nodes : List (Node F)) :
    slotIn (nodes.map Node.overridden) = slotIn nodes := by
  funext h
  unfold slotIn position?
  rw [List.zipIdx_map, List.filter_map, List.getLast?_map, Option.map_map]
  simp [Function.comp_def, Prod.map]

theorem layersOf_overridden (nodes : List (Node F)) :
    layersOf (nodes.map Node.overridden)
      = (layersOf nodes).map fun q => (q.1, q.2.overridden) := by
  unfold layersOf
  rw [List.zipIdx_map, List.filterMap_map, List.map_filterMap]
  refine List.filterMap_congr fun p _ => ?_
  simp [Prod.map, Option.map_map, Function.comp_def]

/-! ### Streams under other names -/

/-- Two runs that leave one store and both complete or stop with one error. -/
structure SameResult (o o' : Outcome (RunState F)) : Prop where
  /-- The stores are the same. -/
  store : o'.state.store = o.state.store
  /-- The errors are the same, or there is none. -/
  error : o'.error = o.error

/-- An instruction that does the same as another one under a name of its own. -/
def Instruction.Renamed (i i' : Instruction F) : Prop :=
  ∃ name source, i' = { i with name := name, source := source }

/-- The replaced layer's forward instruction is the layer's instruction in inference mode. -/
theorem renamed_forwardOf {slotOf : Handle → Option Nat} {p q : Placed F}
    (hplace : q.place = p.place) (hlayer : q.layer = p.layer.overridden) :
    Instruction.Renamed (forwardOf slotOf p.inference) (forwardOf slotOf q) := by
  refine ⟨q.name, q.source, ?_⟩
  unfold forwardOf
  rw [hplace, hlayer]
  rfl

/-- Instructions that differ in their names do the same on one store. -/
theorem forwardStep_renamed (call : Calls F) (stage stage' : Stage) {i i' : Instruction F}
    (h : i.Renamed i') (k k' : Nat) {r r' : RunState F} (hr : r'.store = r.store) :
    SameResult (forwardStep call stage (i, k) r) (forwardStep call stage' (i', k') r') := by
  obtain ⟨name, source, rfl⟩ := h
  unfold forwardStep
  dsimp only
  have hcall : callOn call { i with name := name, source := source } r'.store
      = callOn call i r.store := by
    rw [hr]
    rfl
  rw [hcall]
  cases callOn call i r.store with
  | error e => exact ⟨hr, rfl⟩
  | ok v =>
    have hwrite : writeOutput { i with name := name, source := source } r'.store v
        = writeOutput i r.store v := by
      rw [hr]
      rfl
    simp only [ok_bind, hwrite]
    cases writeOutput i r.store v with
    | error f => exact ⟨hr, rfl⟩
    | ok s => exact ⟨rfl, rfl⟩

/-- Streams whose instructions differ in their names take the same course, to the end or to the
instruction at which both stop. -/
theorem runForward_renamed (call : Calls F) (stage stage' : Stage)
    {stream stream' : List (Instruction F)} (h : List.Forall₂ Instruction.Renamed stream stream')
    (r : RunState F) :
    SameResult (runForward call stage stream r) (runForward call stage' stream' r) := by
  have hrun : ∀ (k k' : Nat) (r r' : RunState F), r'.store = r.store →
      SameResult (runAll (forwardStep call stage) (stream.zipIdx k) r)
        (runAll (forwardStep call stage') (stream'.zipIdx k') r') := by
    induction h with
    | nil => exact fun _ _ _ _ hr => ⟨hr, rfl⟩
    | @cons i i' stream stream' hi _ ih =>
      intro k k' r r' hr
      rw [List.zipIdx_cons, List.zipIdx_cons, runAll_cons, runAll_cons]
      obtain ⟨hstore, herror⟩ := forwardStep_renamed call stage stage' hi k k' hr
      unfold Outcome.andThen
      rw [herror]
      cases hstop : (forwardStep call stage (i, k) r).error with
      | none => exact ih _ _ _ _ hstore
      | some e => exact ⟨hstore, herror⟩
  exact hrun 0 0 r r rfl

/-- Evaluations that do not go backward start under one condition: the store has the size of the
net. -/
theorem checkRequest_eq {c c' : CompiledNet F} (hvars : c'.numVars = c.numVars) {mode mode' : Mode}
    (hmode : mode ≠ .normal) (hmode' : mode' ≠ .normal) (o o' : EvalOptions F) (s : Store F) :
    checkRequest c' mode' o' s = checkRequest c mode o s := by
  unfold checkRequest
  simp [hvars, hmode, hmode']

/-! ### Compilation -/

section

variable {nodes : List (Node F)} {layers layers' : List (Placed F)} {net net' : CompiledNet F}

/-- The layers of the replaced list are those of the list, replaced one by one. -/
theorem Streams.forall₂_overridden (h : Streams nodes layers net)
    (h' : Streams (nodes.map Node.overridden) layers' net') :
    List.Forall₂ (fun p q => q.place = p.place ∧ q.layer = p.layer.overridden) layers layers' := by
  have hplaces : layers'.map (fun q => (q.place, q.layer))
      = layers.map fun p => (p.place, p.layer.overridden) := by
    rw [h'.places, layersOf_overridden, ← h.places, List.map_map]
    rfl
  have hrel := List.forall₂_eq_eq_eq.symm ▸ hplaces.symm
  rw [List.forall₂_map_left_iff, List.forall₂_map_right_iff] at hrel
  exact hrel.imp fun p q hpq => ⟨(Prod.mk.inj hpq).1.symm, (Prod.mk.inj hpq).2.symm⟩

variable [Arith F] [Interchange F]

omit [Arith F] [Interchange F] in
/-- The replaced list compiles, with any options under which the list does. -/
theorem exists_compileNodes_overridden {checks : Checks F} {known : Node F → Bool}
    {roots : Option (List Handle)} {options : Options F} {c : Compilation F}
    (hc : compileNodes checks known nodes roots options = .ok c) (ho : Ordered nodes) :
    ∃ c', compileNodes [] known (nodes.map Node.overridden) roots options = .ok c' := by
  have ho' := ordered_overridden ho
  have hne := ne_nil_of_compileNodes hc
  obtain ⟨names, hnames⟩ := exists_assignNames ho'
  obtain ⟨-, t, -, -, -, -, ht, -⟩ := compileNodes_eq_ok hc
  have hne' : nodes.map Node.overridden ≠ [] := by simpa using hne
  unfold compileNodes
  rw [List.getLast?_eq_some_getLast hne']
  obtain ⟨net, hnet⟩ : ∃ net, assemble known (nodes.map Node.overridden) names
      (roots.getD [((nodes.map Node.overridden).getLast hne').handle]) options = .ok net :=
    exists_assemble ho' (length_assignNames hnames)
  simp only [ht, hnames, hnet, ok_bind, liftM_eq_lift, Fallible.lift, Except.mapError,
    Checks.runOnListing, Checks.runOnNet, Checks.findOnListing, Checks.findOnNet, judge,
    List.mapM_nil, pure_bind, List.flatten_nil]
  exact ⟨_, rfl⟩

omit [Arith F] [Interchange F] in
/-- A list whose layers do the same in inference mode compiles to one stream for both modes. -/
theorem map_inference_of_uniform (h : Streams nodes layers net)
    (huniform : ∀ k a, (k, a) ∈ layersOf nodes → a.Uniform) :
    layers.map Placed.inference = layers := by
  refine (List.map_congr_left fun p hp => ?_).trans (List.map_id _)
  have heq := (huniform _ _ (h.mem_layersOf hp)).inference_eq
  unfold Placed.inference
  rw [heq]
  rfl

/-- Every layer's value slot holds what the layer's op answers on the contents of the store,
once the layers are taken as told. -/
def Computed (call : Calls F) (nodes : List (Node F)) (taken : Application F → Application F)
    (t : Store F) : Prop :=
  ∀ k a, (k, a) ∈ layersOf nodes →
    layerCall call (slotIn nodes) t (taken a) = .ok (t.content (valueSlot k))

omit [Arith F] [Interchange F] in
/-- A completed run of a forward or inference stream has computed every layer. -/
theorem Streams.computed (h : Streams nodes layers net) (call : Calls F) (stage : Stage)
    {taken : Application F → Application F} {ps : List (Placed F)} {r : RunState F}
    (hw : WellPlaced (slotIn nodes) (2 * nodes.length) ps)
    (hps : ∀ p ∈ layers, ∃ q ∈ ps, q.place = p.place ∧
      ∀ t, layerCall call (slotIn nodes) t q.layer
        = layerCall call (slotIn nodes) t (taken p.layer))
    (hsize : (r.store.size : Int) = net.numVars)
    (hdone : (runForward call stage (ps.map (forwardOf (slotIn nodes))) r).error = none) :
    Computed call nodes taken
      (runForward call stage (ps.map (forwardOf (slotIn nodes))) r).state.store := by
  have hsize' : r.store.size = 2 * nodes.length := by
    have := h.numVars
    omega
  obtain ⟨-, hcalls, -⟩ := runForward_computes (hsize' ▸ hw) hdone rfl
  intro k a hL
  rw [← h.places] at hL
  obtain ⟨p, hp, heq⟩ := List.mem_map.mp hL
  cases heq
  obtain ⟨q, hq, hplace, hcall⟩ := hps p hp
  rw [← hcall, ← hplace]
  exact hcalls q hq

/-- **Inference mode is forward mode of the replaced list.**  Replace every layer of a compiled list
in dependency order by one without settings for inference mode that says outright what the layer
does there.  The new list is in dependency order and compiles.  However it is compiled, references
stand for the same slots; and from every store, of whatever size, inference mode of the old net and
forward mode of the new one leave the same store, both complete or stopped by the same error.

In particular the two modes of one net do the same if no layer has such settings.  A completed
run in either mode has written every layer's value slot: it holds what the layer's op, or in
inference mode the op that takes its place, answers on the final contents. -/
theorem inference_is_overridden_forward {checks : Checks F} {known : Node F → Bool}
    {roots : Option (List Handle)} {options : Options F} {c : Compilation F}
    (hc : compileNodes checks known nodes roots options = .ok c) (ho : Ordered nodes) :
    (Ordered (nodes.map Node.overridden) ∧
      ∃ c', compileNodes [] known (nodes.map Node.overridden) roots options = .ok c') ∧
    (∀ (checks' : Checks F) (known' : Node F → Bool) (roots' : Option (List Handle))
      (options' : Options F) (c' : Compilation F),
      compileNodes checks' known' (nodes.map Node.overridden) roots' options' = .ok c' →
        (slotIn (nodes.map Node.overridden) = slotIn nodes ∧ c'.net.numVars = c.net.numVars) ∧
        ∀ (call : Calls F) (o o' : EvalOptions F) (r : RunState F),
          SameResult (evaluate call c.net .inference o r) (evaluate call c'.net .forward o' r)) ∧
    ((∀ k a, (k, a) ∈ layersOf nodes → a.Uniform) →
      ∀ (call : Calls F) (o o' : EvalOptions F) (r : RunState F),
        SameResult (evaluate call c.net .inference o r) (evaluate call c.net .forward o' r)) ∧
    ∀ (call : Calls F) (o : EvalOptions F) (r : RunState F),
      ((evaluate call c.net .forward o r).error = none →
        Computed call nodes id (evaluate call c.net .forward o r).state.store) ∧
      ((evaluate call c.net .inference o r).error = none →
        Computed call nodes Application.overridden
          (evaluate call c.net .inference o r).state.store) := by
  obtain ⟨-, names, heads, hlen, hnet⟩ := compileNodes_assembled hc
  have hs := assemble_streams hlen hnet
  have htest := assemble_test hnet
  refine ⟨⟨ordered_overridden ho, exists_compileNodes_overridden hc ho⟩, ?_, ?_, ?_⟩
  · intro checks' known' roots' options' c' hc'
    obtain ⟨-, layers', hs'⟩ := compileNodes_streams hc'
    have hvars : c'.net.numVars = c.net.numVars := by
      rw [hs'.numVars, hs.numVars, List.length_map]
    refine ⟨⟨slotIn_overridden nodes, hvars⟩, fun call o o' r => ?_⟩
    unfold evaluate
    rw [checkRequest_eq hvars (show Mode.inference ≠ .normal by simp) (by simp) o o']
    cases checkRequest c.net .inference o r.store with
    | error e => exact ⟨rfl, rfl⟩
    | ok _ =>
      -- The stream for inference mode and the forward stream of the new list make the same
      -- calls.
      refine runForward_renamed call _ _ ?_ r
      rw [htest, hs'.forward, slotIn_overridden, List.map_map, List.forall₂_map_left_iff,
        List.forall₂_map_right_iff]
      exact (hs.forall₂_overridden hs').imp fun p q hpq => renamed_forwardOf hpq.1 hpq.2
  · intro huniform call o o' r
    -- Without settings both streams of the net are the same.
    have hstream : c.net.test = c.net.forward := by
      rw [htest, hs.forward, map_inference_of_uniform hs huniform]
    unfold evaluate
    rw [checkRequest_eq rfl (show Mode.inference ≠ .normal by simp) (by simp) o o', hstream]
    cases checkRequest c.net .inference o r.store with
    | error e => exact ⟨rfl, rfl⟩
    | ok _ => exact runForward_renamed call _ _ (List.forall₂_same.mpr fun i _ => ⟨_, _, rfl⟩) r
  · intro call o r
    constructor
    · intro hdone
      unfold evaluate at hdone ⊢
      cases hcheck : checkRequest c.net .forward o r.store with
      | error e => simp [hcheck] at hdone
      | ok _ =>
        simp only [hcheck] at hdone ⊢
        rw [hs.forward] at hdone ⊢
        exact hs.computed call _ (hs.wellPlaced ho) (fun p hp => ⟨p, hp, rfl, fun _ => rfl⟩)
          (checkRequest_accepts hcheck).2 hdone
    · intro hdone
      unfold evaluate at hdone ⊢
      cases hcheck : checkRequest c.net .inference o r.store with
      | error e => simp [hcheck] at hdone
      | ok _ =>
        simp only [hcheck] at hdone ⊢
        rw [htest] at hdone ⊢
        exact hs.computed call _ (hs.inference ho)
          (fun p hp => ⟨_, List.mem_map_of_mem hp, rfl, fun _ => rfl⟩)
          (checkRequest_accepts hcheck).2 hdone

end

/-- Two parameters, the square of the first and the square plus one.  In inference mode the second
parameter takes the place of the square, and one is subtracted. -/
def squareUnlessInferred : List (Node ℚ) :=
  [⟨0, bareLabel, .param ⟨.real 3, .none, .none, .gradient⟩⟩,
    ⟨1, bareLabel, .param ⟨.real 5, .none, .none, .gradient⟩⟩,
    ⟨2, bareLabel, .layer ⟨Builtin.times.op, [.node ⟨0, .param, ""⟩, .node ⟨0, .param, ""⟩], [],
      .passThrough, .other [.node ⟨1, .param, ""⟩, .node ⟨0, .param, ""⟩], [], none⟩⟩,
    ⟨3, bareLabel, .layer ⟨Builtin.plus.op, [.node ⟨2, .layer, ""⟩, .real 1], [],
      .other Builtin.minus.op, .same, [], none⟩⟩]

theorem inference_is_overridden_forward_square_unless_inferred :
    ∃ c c', compileNodes [] (fun _ => true) squareUnlessInferred none plainOptions = .ok c ∧
      compileNodes [] (fun _ => true) (squareUnlessInferred.map Node.overridden) none plainOptions
        = .ok c' ∧
      (evaluate builtinCalls c.net .inference ⟨.none, false⟩ ⟨c.store, [], none⟩).error = none ∧
      (evaluate builtinCalls c.net .inference ⟨.none, false⟩
        ⟨c.store, [], none⟩).state.store.content (valueSlot 2) = .real 5 ∧
      SameResult (evaluate builtinCalls c.net .inference ⟨.none, false⟩ ⟨c.store, [], none⟩)
        (evaluate builtinCalls c'.net .forward ⟨.none, false⟩ ⟨c.store, [], none⟩) := by
  obtain ⟨c, hc⟩ := exists_of_isOk
    (show (compileNodes [] (fun _ => true) squareUnlessInferred none plainOptions).isOk = true
      from rfl)
  have ho : Ordered squareUnlessInferred := ⟨by decide, violations_eq_nil_iff.mp rfl⟩
  obtain ⟨⟨-, c', hc'⟩, hsame, -⟩ := inference_is_overridden_forward hc ho
  refine ⟨c, c', hc, hc', ?_, ?_, (hsame _ _ _ _ c' hc').2 builtinCalls _ _ _⟩
  · cases hc
    rfl
  · cases hc
    rfl

end SlotGrad
