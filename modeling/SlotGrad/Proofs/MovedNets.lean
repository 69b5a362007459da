import Mathlib.Data.List.InsertIdx
import SlotGrad.Proofs.MovedNodes

/-!
# Nets of moved nodes

A list of moved nodes compiles to the net of the nodes.  Slots are places in the list and not
identities, so the bindings of all instructions are the same; constants are changed as those of
the nodes were, and the net refers to the moved nodes.  Where compilation fails, it fails for a
reason that has nothing to do with identities, as long as the checks do not look at them; the
built-in ones do not.

## Main definitions

* `CompiledNet.moved`, `Compilation.moved` — what the moved nodes compile to.
* `Check.Structural` — checks that find the same in moved nodes.
* `Apart` — what listed nodes read is told apart from them.

## Main results

* `assemble_moved` — moved nodes are assembled to the net, moved.
* `structural_builtin` — the built-in checks look at the structure only.
* `compileNodes_moved` — moved nodes compile to the compilation, moved, or fail with its error.
-/

namespace SlotGrad

variable {F : Type}

/-! ### Instructions -/

section

variable (f : Nat → Nat) (φ : Value F → Value F)

/-- A template with its constants changed. -/
def Template.moved (t : Template F) : Template F := { t with args := t.args.map φ }

/-- An instruction with its constants changed. -/
def Instruction.moved (i : Instruction F) : Instruction F :=
  { i with args := i.args.map φ, kwargs := sentNamed φ i.kwargs }

/-- A layer at its place, moved. -/
def Placed.moved (p : Placed F) : Placed F := { p with layer := p.layer.moved f φ }

variable {f φ} {slotOf slotOf' : Handle → Option Nat}

/-- Moved arguments have the same bindings, and changed constants. -/
theorem ofArgs_moved (hφ : Value.Keeps φ) {args : List (Value F)}
    (hargs : ∀ h ∈ Node.handles args, slotOf' (h.moved f) = slotOf h) :
    Template.ofArgs slotOf' (args.map (Value.sent f φ))
      = (Template.ofArgs slotOf args).map (Template.moved φ) := by
  unfold Template.ofArgs
  refine foldlM_eq_map (k := Template.moved φ) (fun v hv t => ?_) ⟨[], [], []⟩
  cases hnode : v.node? with
  | none =>
    have hother : ∀ {w : Value F} {slots : Handle → Option Nat} (t : Template F), w.node? = none →
        Template.push slots t w = .ok { t with args := t.args ++ [w] } := by
      intro w slots t hw
      unfold Template.push
      cases w with
      | node h => cases hw
      | _ => rfl
    rw [Value.sent_of_node? hnode, hother _ (hφ.node? hnode), hother _ hnode]
    simp [Template.moved, Except.map]
  | some h =>
    cases v with
    | node h' =>
      cases hnode
      have hslot := hargs h (List.mem_filterMap.mpr ⟨_, hv, rfl⟩)
      unfold Template.push Value.sent
      dsimp only
      rw [hslot]
      cases slotOf h with
      | none => rfl
      | some slot => simp [Template.moved, Except.map, hφ.none]
    | _ => cases hnode

theorem callInstruction_moved (hφ : Value.Keeps φ) (p : Placed F) (op : Op) {args : List (Value F)}
    (hargs : ∀ h ∈ Node.handles args, slotOf' (h.moved f) = slotOf h)
    (kwargs : List (String × Value F)) :
    callInstruction slotOf' (p.moved f φ) op (args.map (Value.sent f φ)) (sentNamed φ kwargs)
      = (callInstruction slotOf p op args kwargs).map (Instruction.moved φ) :=
  bind_eq_map (ofArgs_moved hφ hargs) fun _ _ => rfl

theorem forwardInstruction_moved (hφ : Value.Keeps φ) {p : Placed F}
    (hargs : ∀ h ∈ Node.handles p.layer.args, slotOf' (h.moved f) = slotOf h) :
    forwardInstruction slotOf' (p.moved f φ)
      = (forwardInstruction slotOf p).map (Instruction.moved φ) :=
  callInstruction_moved hφ p _ hargs _

theorem backwardInstruction_moved (hφ : Value.Keeps φ) {p : Placed F}
    (hargs : ∀ h ∈ Node.handles p.layer.args, slotOf' (h.moved f) = slotOf h) :
    backwardInstruction slotOf' (p.moved f φ)
      = (backwardInstruction slotOf p).map (Instruction.moved φ) := by
  refine bind_eq_map (ofArgs_moved hφ hargs) fun t _ => ?_
  have hseed : seedPlace (t.args.map φ) = seedPlace t.args := by
    unfold seedPlace
    rw [List.findIdx_map]
    exact congrArg (fun q => t.args.findIdx q) (funext hφ.isText)
  have hinsert : (t.args.map φ).insertIdx (seedPlace t.args) .none
      = (t.args.insertIdx (seedPlace t.args) .none).map φ := by
    rw [List.map_insertIdx, hφ.none]
  simp only [Template.moved, hseed, hinsert]
  rfl

theorem testInstruction_moved (hφ : Value.Keeps φ) {p : Placed F}
    (hargs : ∀ h ∈ Node.handles (testArguments p.layer).1, slotOf' (h.moved f) = slotOf h) :
    testInstruction slotOf' (p.moved f φ) = (testInstruction slotOf p).map
        (Instruction.moved φ) := by
  have harguments : testArguments (p.moved f φ).layer
      = ((testArguments p.layer).1.map (Value.sent f φ),
          sentNamed φ (testArguments p.layer).2) := by
    unfold testArguments Placed.moved Application.moved TestArgs.moved
    dsimp only
    cases p.layer.testArgs <;> rfl
  have hop : (p.moved f φ).layer.testOp = p.layer.testOp := rfl
  unfold testInstruction
  rw [harguments, hop]
  cases p.layer.testOp with
  | same => exact callInstruction_moved hφ p _ hargs _
  | passThrough =>
    have htake : ((testArguments p.layer).1.map (Value.sent f φ)).take 1
        = ((testArguments p.layer).1.take 1).map (Value.sent f φ) := List.map_take.symm
    have hfirst : ∀ h ∈ Node.handles ((testArguments p.layer).1.take 1),
        slotOf' (h.moved f) = slotOf h := by
      intro h hh
      obtain ⟨v, hv, hnode⟩ := List.mem_filterMap.mp hh
      exact hargs h (List.mem_filterMap.mpr ⟨v, List.mem_of_mem_take hv, hnode⟩)
    dsimp only
    rw [htake]
    exact callInstruction_moved hφ p _ hfirst []
  | other op => exact callInstruction_moved hφ p _ hargs _

end

/-! ### Nets -/

section

variable (f : Nat → Nat) (φ : Value F → Value F)

/-- A parameter with its settings changed. -/
def ParamEntry.moved (p : ParamEntry F) : ParamEntry F :=
  { p with weightDecay := φ p.weightDecay, learningRate := φ p.learningRate }

/-- A net of moved nodes: its constants are changed, and it refers to the moved nodes. -/
def CompiledNet.moved (c : CompiledNet F) : CompiledNet F :=
  { c with
    forward := c.forward.map (Instruction.moved φ)
    backward := c.backward.map (Instruction.moved φ)
    test := c.test.map (Instruction.moved φ)
    params := c.params.map (ParamEntry.moved φ)
    «meta» := φ c.meta
    nodes := c.nodes.map (Option.map (Handle.moved f)) }

/-- The compilation of moved nodes. -/
def Compilation.moved (c : Compilation F) : Compilation F :=
  ⟨c.net.moved f φ, c.store.map φ, c.findings⟩

/-- The options with the metadata changed. -/
def Options.moved (o : Options F) : Options F := { o with «meta» := φ o.meta }

/-- The listing of moved nodes. -/
def Listing.moved (l : Listing F) : Listing F := ⟨l.nodes.map (Node.moved f φ), l.names, φ l.meta⟩

variable {f φ} {nodes : List (Node F)} {names : List String}

theorem zip_moved : ((nodes.map (Node.moved f φ)).zip names).zipIdx
    = ((nodes.zip names).zipIdx).map (Prod.map (Prod.map (Node.moved f φ) id) id) := by
  rw [List.zip_map_left, List.zipIdx_map]

theorem placedLayers_moved : placedLayers (nodes.map (Node.moved f φ)) names
    = (placedLayers nodes names).map (Placed.moved f φ) := by
  unfold placedLayers
  rw [zip_moved, List.filterMap_map, List.map_filterMap]
  refine List.filterMap_congr fun p _ => ?_
  simp only [Function.comp_apply, Prod.map_fst, Prod.map_snd, id_eq, Node.application?_moved,
    Option.map_map]
  rfl

theorem inputSlots_moved : inputSlots (nodes.map (Node.moved f φ)) names
    = inputSlots nodes names := by
  unfold inputSlots
  rw [zip_moved, List.filterMap_map]
  refine List.filterMap_congr fun p _ => ?_
  simp

theorem paramSlots_moved : paramSlots (nodes.map (Node.moved f φ)) names
    = (paramSlots nodes names).map (Prod.map (ParamEntry.moved φ) φ) := by
  unfold paramSlots
  rw [zip_moved, List.filterMap_map, List.map_filterMap]
  refine List.filterMap_congr fun p _ => ?_
  obtain ⟨⟨⟨i, label, role⟩, name⟩, k⟩ := p
  cases role <;> rfl

theorem monitorEntries_moved {roots : List Handle} (hroots : ∀ h ∈ roots, Tells f nodes h.id)
    (diagnoseRoots : Bool) :
    monitorEntries diagnoseRoots (roots.map (Handle.moved f)) (nodes.map (Node.moved f φ)) names
      = monitorEntries diagnoseRoots roots nodes names := by
  unfold monitorEntries
  rw [zip_moved, List.filterMap_map]
  refine List.filterMap_congr fun p hp => ?_
  have hmem : p.1.1 ∈ nodes := (List.of_mem_zip (List.fst_mem_of_mem_zipIdx hp)).1
  have hany : (roots.map (Handle.moved f)).any (fun h => h.id == f p.1.1.id)
      = roots.any fun h => h.id == p.1.1.id := by
    rw [List.any_map, Bool.eq_iff_iff, List.any_eq_true, List.any_eq_true]
    refine exists_congr fun h => and_congr_right fun hh => ?_
    rw [Function.comp_apply, BEq.comm, BEq.comm (a := h.id)]
    exact iff_of_eq (congrArg (· = true) ((hroots h hh).beq hmem))
  have hmonitored : isMonitored diagnoseRoots (roots.map (Handle.moved f)) (p.1.1.moved f φ)
      = isMonitored diagnoseRoots roots p.1.1 := by
    unfold isMonitored
    rw [Node.id_moved, hany]
    rfl
  simp only [Function.comp_apply, Prod.map_fst, Prod.map_snd, id_eq, hmonitored]

theorem sharedMeta_moved (hφ : Value.Keeps φ) (given : Value F) :
    sharedMeta (φ given) (nodes.map (Node.moved f φ)) = φ (sharedMeta given nodes) := by
  unfold sharedMeta
  rw [hφ.isNone]
  split
  · have hmetas : (nodes.map (Node.moved f φ)).map (fun n => n.label.meta)
        = (nodes.map fun n => n.label.meta).map φ := by
      rw [List.map_map, List.map_map]
      rfl
    rw [hmetas, List.find?_map]
    have hsame : ((fun v : Value F => !v.isNone) ∘ φ) = fun v => !v.isNone := by
      funext v
      simp [hφ.isNone]
    rw [hsame]
    cases (nodes.map fun n => n.label.meta).find? fun v => !v.isNone with
    | none => exact hφ.none.symm
    | some v => rfl
  · rfl

theorem initialStore_moved (hφ : Value.Keeps φ) (pairs : Nat)
    (params : List (ParamEntry F × Value F)) :
    initialStore pairs (params.map (Prod.map (ParamEntry.moved φ) φ))
      = (initialStore pairs params).map φ := by
  have hset : ∀ (s : Store F) (k : Nat) (v : Value F),
      (s.map φ).setAt k (φ v) = (s.setAt k v).map φ := by
    intro s k v
    simp [Store.map, Store.setAt, Array.map_setIfInBounds]
  have hrun : ∀ s : Store F, (params.map (Prod.map (ParamEntry.moved φ) φ)).foldl
      (fun s p => s.setAt p.1.var.toNat p.2) (s.map φ)
        = (params.foldl (fun s p => s.setAt p.1.var.toNat p.2) s).map φ := by
    induction params with
    | nil => exact fun s => rfl
    | cons p params ih =>
      intro s
      rw [List.map_cons, List.foldl_cons, List.foldl_cons, ← ih, ← hset]
      rfl
  unfold initialStore
  rw [← hrun]
  congr 1
  simp [Store.map, Store.unset, hφ.none]

/-- What listed nodes read, and the nodes that are the roots, are told apart from the listed
nodes. -/
structure Apart (f : Nat → Nat) (nodes : List (Node F)) (roots : List Handle) : Prop where
  /-- What is read. -/
  deps : ∀ n ∈ nodes, TellsDeps f nodes n
  /-- The roots. -/
  roots : ∀ h ∈ roots, Tells f nodes h.id

theorem slotIn_moved {h : Handle} (htells : Tells f nodes h.id) :
    slotIn (nodes.map (Node.moved f φ)) (h.moved f) = slotIn nodes h :=
  congrArg (Option.map valueSlot) (position?_moved htells)

/-- What a placed layer reads, in either mode, is read by a listed node. -/
theorem mem_deps_of_placed {p : Placed F} (hp : p ∈ placedLayers nodes names) {h : Handle}
    (hh : h ∈ Node.handles p.layer.args ∨ h ∈ Node.handles (testArguments p.layer).1) :
    ∃ n ∈ nodes, h ∈ n.deps := by
  obtain ⟨⟨⟨n, name⟩, k⟩, hmem, hp⟩ := List.mem_filterMap.mp hp
  obtain ⟨a, ha, rfl⟩ := Option.map_eq_some_iff.mp hp
  refine ⟨n, (List.of_mem_zip (List.fst_mem_of_mem_zipIdx hmem)).1, ?_⟩
  unfold Node.deps
  rw [application?_eq_some.mp ha]
  rcases hh with hh | hh
  · exact List.mem_append_left _ hh
  · unfold testArguments at hh
    cases htest : a.testArgs with
    | same =>
      simp only [htest] at hh
      exact List.mem_append_left _ hh
    | other args =>
      simp only [htest] at hh
      dsimp only
      rw [htest]
      exact List.mem_append_right _ hh

/-- **Moved nodes are assembled to the net of the nodes, moved.** -/
theorem assemble_moved (hφ : Value.Keeps φ) (names : List String) {roots : List Handle}
    (hapart : Apart f nodes roots) {known known' : Node F → Bool}
    (hknown : ∀ n ∈ nodes, known' (n.moved f φ) = known n) (options : Options F) :
    assemble known' (nodes.map (Node.moved f φ)) names (roots.map (Handle.moved f))
      (options.moved φ)
      = (assemble known nodes names roots options).map (CompiledNet.moved f φ) := by
  -- References keep their slots, since places in the list stay.
  have hslot : ∀ p ∈ placedLayers nodes names, ∀ h,
      h ∈ Node.handles p.layer.args ∨ h ∈ Node.handles (testArguments p.layer).1 →
        slotIn (nodes.map (Node.moved f φ)) (h.moved f) = slotIn nodes h := by
    intro p hp h hh
    obtain ⟨n, hn, hread⟩ := mem_deps_of_placed hp hh
    exact slotIn_moved (hapart.deps n hn h hread)
  have hforward : ((placedLayers nodes names).map (Placed.moved f φ)).mapM
      (forwardInstruction (slotIn (nodes.map (Node.moved f φ))))
        = ((placedLayers nodes names).mapM (forwardInstruction (slotIn nodes))).map
          (List.map (Instruction.moved φ)) :=
    mapM_eq_map fun p hp => forwardInstruction_moved hφ fun h hh => hslot p hp h (.inl hh)
  have hbackward : ((placedLayers nodes names).map (Placed.moved f φ)).reverse.mapM
      (backwardInstruction (slotIn (nodes.map (Node.moved f φ))))
        = ((placedLayers nodes names).reverse.mapM (backwardInstruction (slotIn nodes))).map
          (List.map (Instruction.moved φ)) := by
    rw [← List.map_reverse]
    exact mapM_eq_map fun p hp => backwardInstruction_moved hφ fun h hh =>
      hslot p (List.mem_reverse.mp hp) h (.inl hh)
  have htest : ((placedLayers nodes names).map (Placed.moved f φ)).mapM
      (testInstruction (slotIn (nodes.map (Node.moved f φ))))
        = ((placedLayers nodes names).mapM (testInstruction (slotIn nodes))).map
          (List.map (Instruction.moved φ)) :=
    mapM_eq_map fun p hp => testInstruction_moved hφ fun h hh => hslot p hp h (.inr hh)
  have hhandles : (nodes.map (Node.moved f φ)).map
    (fun n => if known' n then some n.handle else none)
      = (nodes.map fun n => if known n then some n.handle else none).map
        (Option.map (Handle.moved f)) := by
    rw [List.map_map, List.map_map]
    refine List.map_congr_left fun n hn => ?_
    simp only [Function.comp_apply, hknown n hn, Node.handle_moved]
    split <;> rfl
  unfold assemble
  simp only [placedLayers_moved]
  -- The three streams fail alike or are moved, and the registries after them.
  refine bind_eq_map hforward fun forward _ => bind_eq_map hbackward fun backward _ =>
    bind_eq_map htest fun test _ => ?_
  simp only [inputSlots_moved, paramSlots_moved, hhandles, Options.moved, sharedMeta_moved hφ,
    monitorEntries_moved hapart.roots, List.length_map]
  simp [CompiledNet.moved, Except.map, pure, Except.pure]

end

/-! ### Checks -/

/-- A check that finds the same in moved nodes and their net as in the nodes and theirs. -/
def Check.Structural (c : Check F) : Prop :=
  ∀ (f : Nat → Nat) (φ : Value F → Value F), Value.Keeps φ →
    (∀ l : Listing F, Check.onListing (l.moved f φ) c = Check.onListing l c) ∧
      ∀ n : CompiledNet F, Check.onNet (n.moved f φ) c = Check.onNet n c

section

variable {f : Nat → Nat} {φ : Value F → Value F}

theorem Listing.named_moved (l : Listing F) :
    (l.moved f φ).named = l.named.map (Prod.map (Node.moved f φ) id) :=
  List.zip_map_left

theorem GraphChecks.uniqueInputNames_moved (l : Listing F) :
    uniqueInputNames (l.moved f φ) = uniqueInputNames l := by
  have hinputs : ((l.moved f φ).named.filter fun p => p.1.kind = .input).map Prod.snd
      = (l.named.filter fun p => p.1.kind = .input).map Prod.snd := by
    rw [Listing.named_moved, List.filter_map, List.map_map]
    simp only [Function.comp_def, Prod.map_fst, Prod.map_snd, id_eq, Node.kind_moved]
  unfold uniqueInputNames
  simp only [hinputs]

theorem GraphChecks.singleMetaSource_moved (hφ : Value.Keeps φ) (l : Listing F) :
    singleMetaSource (l.moved f φ) = singleMetaSource l := by
  have howners : metaOwners (l.moved f φ) = metaOwners l := by
    have hgiven : (l.moved f φ).meta.isNone = l.meta.isNone := hφ.isNone _
    have hlabel : ∀ n : Node F, (n.moved f φ).label.meta.isNone = n.label.meta.isNone :=
      fun n => hφ.isNone _
    unfold metaOwners
    rw [Listing.named_moved, List.filter_map, List.map_map, hgiven]
    simp only [Function.comp_def, Prod.map_fst, Prod.map_snd, id_eq, hlabel]
    rfl
  unfold singleMetaSource
  rw [howners]

namespace NetChecks

theorem located_moved (name : String) (is : List (Instruction F)) :
    located (name, is.map (Instruction.moved φ))
      = (located (name, is)).map (Prod.map id (Instruction.moved φ)) := by
  unfold located
  rw [List.zipIdx_map, List.map_map, List.map_map]
  rfl

theorem allLocated_moved (c : CompiledNet F) :
    allLocated (c.moved f φ) = (allLocated c).map (Prod.map id (Instruction.moved φ)) := by
  unfold allLocated CompiledNet.streams CompiledNet.moved
  simp only [List.flatMap_cons, List.flatMap_nil, List.append_nil, located_moved, List.map_append]

theorem slotPairing_moved (c : CompiledNet F) : slotPairing (c.moved f φ) = slotPairing c := by
  have hregistry : registryFindings (c.moved f φ) = registryFindings c := by
    unfold registryFindings CompiledNet.moved
    simp only [List.filter_map, List.map_map]
    rfl
  unfold slotPairing
  rw [hregistry, allLocated_moved, List.flatMap_map]
  rfl

theorem bindingPositions_moved (hφ : Value.Keeps φ) (c : CompiledNet F) :
    bindingPositions (c.moved f φ) = bindingPositions c := by
  have hposition : ∀ (place : String) (i : Instruction F),
      positionFindings place (i.moved φ) = positionFindings place i := by
    intro place i
    funext pos
    unfold positionFindings Instruction.moved
    simp only [List.length_map, List.getElem?_map, Option.map_map]
    have hnone : Value.isNone ∘ φ = Value.isNone := funext hφ.isNone
    rw [hnone]
  unfold bindingPositions
  rw [allLocated_moved, List.flatMap_map]
  refine List.flatMap_congr fun p _ => ?_
  unfold bindingFindings
  dsimp only [Function.comp_apply, Prod.map]
  rw [hposition]
  rfl

theorem adjointCoverage_moved (c : CompiledNet F) :
    adjointCoverage (c.moved f φ) = adjointCoverage c := by
  unfold adjointCoverage CompiledNet.moved
  simp only [List.filter_map, List.map_map]
  rfl

variable [Arith F] [Interchange F]

theorem inferredDerCount_moved (c : CompiledNet F) :
    inferredDerCount (c.moved f φ) = inferredDerCount c := by
  have hfindings : ∀ i : Instruction F, derCountFindings (i.moved φ) = derCountFindings i := by
    intro i
    have hconstants : coveredConstants (i.moved φ) = coveredConstants i := by
      unfold coveredConstants Instruction.moved
      simp only [List.length_map]
      rfl
    unfold derCountFindings
    rw [hconstants]
    rfl
  unfold inferredDerCount CompiledNet.moved
  rw [List.mapM_map]
  simp only [Function.comp_def, hfindings]

end NetChecks

/-- The checks that are registered at the outset look at the structure only. -/
theorem structural_builtin [Arith F] [Interchange F] :
    ∀ c ∈ (Checks.builtin : Checks F), c.Structural := by
  intro c hc f φ hφ
  simp only [Checks.builtin, GraphChecks.all, NetChecks.all, List.cons_append, List.nil_append,
    List.mem_cons, List.not_mem_nil, or_false] at hc
  rcases hc with rfl | rfl | rfl | rfl | rfl | rfl
  · exact ⟨fun l => congrArg Except.ok (GraphChecks.uniqueInputNames_moved l), fun _ => rfl⟩
  · exact ⟨fun l => congrArg Except.ok (GraphChecks.singleMetaSource_moved hφ l), fun _ => rfl⟩
  · exact ⟨fun _ => rfl, fun n => congrArg Except.ok (NetChecks.slotPairing_moved n)⟩
  · exact ⟨fun _ => rfl, fun n => congrArg Except.ok (NetChecks.bindingPositions_moved hφ n)⟩
  · exact ⟨fun _ => rfl, fun n => congrArg Except.ok (NetChecks.adjointCoverage_moved n)⟩
  · exact ⟨fun _ => rfl, fun n => NetChecks.inferredDerCount_moved n⟩

/-! ### Compilations -/

theorem Fallible.lift_map {α β : Type} (x : Fallible α) (k : α → β) :
    Fallible.lift (x.map k) = (Fallible.lift x).map k := by
  cases x <;> rfl

/-- **Moved nodes are compiled to the compilation of the nodes, moved**, and where that fails,
it fails with the same error. -/
theorem compileNodes_moved {checks : Checks F} (hchecks : ∀ c ∈ checks, c.Structural)
    (hφ : Value.Keeps φ) {nodes : List (Node F)} {roots : List Handle}
    (hapart : Apart f nodes roots) {known known' : Node F → Bool}
    (hknown : ∀ n ∈ nodes, known' (n.moved f φ) = known n) (options : Options F) :
    compileNodes checks known' (nodes.map (Node.moved f φ)) (some (roots.map (Handle.moved f)))
        (options.moved φ)
      = (compileNodes checks known nodes (some roots) options).map (Compilation.moved f φ) := by
  have hlisting : ∀ l : Listing F, checks.findOnListing (l.moved f φ) = checks.findOnListing l := by
    intro l
    unfold Checks.findOnListing
    rw [mapM_congr fun c hc => (hchecks c hc f φ hφ).1 l]
  have hnet : ∀ n : CompiledNet F, checks.findOnNet (n.moved f φ) = checks.findOnNet n := by
    intro n
    unfold Checks.findOnNet
    rw [mapM_congr fun c hc => (hchecks c hc f φ hφ).2 n]
  unfold compileNodes
  rw [List.getLast?_map]
  cases nodes.getLast? with
  | none => rfl
  | some last =>
    refine bind_eq_map_of_eq fun threshold _ => ?_
    rw [assignNames_moved hφ hapart.deps]
    refine bind_eq_map_of_eq fun names _ => ?_
    -- The checks are structural, so they find the same before and after.
    have hearly : checks.runOnListing (some threshold)
        ⟨nodes.map (Node.moved f φ), names, (options.moved φ).meta⟩
          = checks.runOnListing (some threshold) ⟨nodes, names, options.meta⟩ := by
      unfold Checks.runOnListing
      exact congrArg (fun x => x.lift >>= judge _ _) (hlisting ⟨nodes, names, options.meta⟩)
    rw [hearly]
    refine bind_eq_map_of_eq fun early _ => ?_
    have hassembled := congrArg Fallible.lift (assemble_moved hφ names hapart hknown options)
    rw [Fallible.lift_map] at hassembled
    refine bind_eq_map hassembled fun net _ => ?_
    have hlate : checks.runOnNet (some threshold) (net.moved f φ)
        = checks.runOnNet (some threshold) net := by
      unfold Checks.runOnNet
      rw [hnet]
    rw [hlate]
    refine bind_eq_map_of_eq fun late _ => ?_
    rw [paramSlots_moved, initialStore_moved hφ, List.length_map]
    rfl

end

end SlotGrad
