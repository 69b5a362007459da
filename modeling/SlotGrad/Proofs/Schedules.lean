import Mathlib.Data.List.Count
import SlotGrad.Proofs.CompileFailures

/-!
# The schedule of compiled streams

In a net that compilation accepts, every value slot belongs to one input, to one parameter or to
one layer, and only instructions at the layer's place in the forward stream and in that of
inference mode write it.  Both streams read what belongs to inputs and parameters, or what they
have already written.  The backward stream runs through the layers from the last to the first,
so that when a layer's derivative is read all layers that read its value have added to it.

## Main definitions

* `CompiledNet.Scheduled` — the streams of a net write every slot once, and before it is read.

## Main results

* `scheduled_of_assemble` — nets that are assembled from nodes in dependency order are scheduled.
* `accepted_net_scheduled` — so are all nets that compilation accepts.
-/

namespace SlotGrad

variable {F : Type}

/-- The streams of a net write every value slot once, and before they read it. -/
structure CompiledNet.Scheduled (c : CompiledNet F) : Prop where
  /-- Inputs are found by name. -/
  names : (c.inputs.map Prod.fst).Nodup
  /-- Instructions at one place of the forward stream and of that of inference mode write one
  slot. -/
  outputs : c.test.map Instruction.outputVar = c.forward.map Instruction.outputVar
  /-- Every layer has one backward instruction. -/
  lengths : c.backward.length = c.forward.length
  /-- Every value slot is that of one input, or of one parameter, or written by one forward
  instruction, and only one of these. -/
  owned : ∀ k : Nat, 2 * (k : Int) < c.numVars →
    (c.inputs.map Prod.snd).count (2 * (k : Int)) + c.paramVars.count (2 * (k : Int))
      + (c.forward.map Instruction.outputVar).count (some (2 * (k : Int))) = 1
  /-- An instruction reads inputs, parameters and what an earlier instruction of its stream
  wrote. -/
  reads : ∀ stream ∈ [c.forward, c.test], ∀ (j : Nat) i, stream[j]? = some i → ∀ v ∈ i.inputVars,
    v ∈ c.inputs.map Prod.snd ∨ v ∈ c.paramVars ∨
      ∃ (l : Nat) (w : Instruction F), l < j ∧ stream[l]? = some w ∧ w.outputVar = some v
  /-- A backward instruction reads, last, the derivative of the layer at its place from the end. -/
  seeds : ∀ (j : Nat) i, c.backward[j]? = some i → ∃ f v,
    c.forward[c.forward.length - 1 - j]? = some f ∧ f.outputVar = some v ∧
      i.inputVars.getLast? = some (derSlot v)
  /-- A backward instruction with a layer among its operands comes before that layer's own. -/
  precedes : ∀ (j : Nat) i, c.backward[j]? = some i → ∀ v ∈ i.inputVars.dropLast,
    ∀ (l : Nat) f, c.forward[l]? = some f → f.outputVar = some v → j < c.forward.length - 1 - l

/-! ### Whose slots -/

/-- What is taken from some places of a list has increasing slots, if its slots are those of the
places. -/
theorem slots_increasing {α β : Type} {f : α × Nat → Option β} {slot : β → Int}
    (h : ∀ a k b, f (a, k) = some b → slot b = ((valueSlot k : Nat) : Int)) (as : List α) :
    ((as.zipIdx.filterMap f).map slot).Pairwise (· < ·) := by
  have hplaces : as.zipIdx.Pairwise fun p q => p.2 < q.2 := by
    rw [← List.pairwise_map (f := Prod.snd) (R := (· < ·)), List.zipIdx_map_snd]
    exact List.pairwise_lt_range'
  rw [List.pairwise_map, List.pairwise_filterMap]
  refine hplaces.imp fun {p q} hpq b hb c hc => ?_
  rw [h p.1 p.2 b hb, h q.1 q.2 c hc]
  exact Int.ofNat_lt.mpr (valueSlot_lt_valueSlot.mpr hpq)

/-- A member of a list of increasing slots occurs once. -/
theorem count_of_increasing {slots : List Int} (h : slots.Pairwise (· < ·)) (v : Int) :
    slots.count v = if v ∈ slots then 1 else 0 := by
  have hnodup : slots.Nodup := h.imp fun hlt => Int.ne_of_lt hlt
  exact hnodup.count

section

variable {nodes : List (Node F)} {known : Node F → Bool} {names : List String}
  {roots : List Handle} {options : Options F} {net : CompiledNet F}

theorem inputSlots_increasing (nodes : List (Node F)) (names : List String) :
    ((inputSlots nodes names).map Prod.snd).Pairwise (· < ·) := by
  refine slots_increasing (fun p k b hb => ?_) _
  dsimp only at hb
  split at hb
  · cases hb
    rfl
  · cases hb

theorem paramSlots_increasing (nodes : List (Node F)) (names : List String) :
    ((paramSlots nodes names).map fun p => p.1.var).Pairwise (· < ·) := by
  refine slots_increasing (fun p k b hb => ?_) _
  dsimp only at hb
  split at hb
  · cases hb
    rfl
  · cases hb

theorem layerSlots_increasing (nodes : List (Node F)) (names : List String) :
    ((placedLayers nodes names).map fun p => ((valueSlot p.place : Nat) : Int)).Pairwise
      (· < ·) := by
  refine slots_increasing (fun p k b hb => ?_) _
  obtain ⟨a, -, rfl⟩ := Option.map_eq_some_iff.mp hb
  rfl

/-- The slots of inputs are those of the places with inputs. -/
theorem mem_inputVars (hlen : names.length = nodes.length)
    (h : assemble known nodes names roots options = .ok net) {v : Int} :
    v ∈ net.inputs.map Prod.snd ↔
      ∃ k, (nodes[k]?).map Node.kind = some .input ∧ v = ((valueSlot k : Nat) : Int) := by
  rw [(assemble_registries h).1, List.mem_map]
  constructor
  · rintro ⟨e, he, rfl⟩
    obtain ⟨k, n, hn, hkind, -, hslot⟩ := mem_inputSlots.mp he
    exact ⟨k, by rw [hn, Option.map_some, hkind], hslot⟩
  · rintro ⟨k, hkind, rfl⟩
    obtain ⟨n, hn, hkind⟩ := Option.map_eq_some_iff.mp hkind
    have hlt : k < names.length := by
      rw [hlen]
      exact (List.getElem?_eq_some_iff.mp hn).1
    exact ⟨(names[k], _), mem_inputSlots.mpr
      ⟨k, n, hn, hkind, List.getElem?_eq_getElem hlt, rfl⟩, rfl⟩

/-- The slots that layers write are those of the places with layers. -/
theorem mem_layerVars {layers : List (Placed F)} (hs : Streams nodes layers net) {v : Int} :
    v ∈ layers.map (fun p => ((valueSlot p.place : Nat) : Int)) ↔
      ∃ k, (nodes[k]?).map Node.kind = some .layer ∧ v = ((valueSlot k : Nat) : Int) := by
  rw [List.mem_map]
  constructor
  · rintro ⟨p, hp, rfl⟩
    obtain ⟨n, hn, hrole⟩ := mem_layersOf.mp (hs.mem_layersOf hp)
    exact ⟨p.place, Option.map_eq_some_iff.mpr ⟨n, hn, Node.kind_eq_layer_iff.mpr ⟨_, hrole⟩⟩, rfl⟩
  · rintro ⟨k, hkind, rfl⟩
    obtain ⟨n, hn, hkind⟩ := Option.map_eq_some_iff.mp hkind
    obtain ⟨a, hrole⟩ := Node.kind_eq_layer_iff.mp hkind
    have hlayer : (k, a) ∈ layersOf nodes := mem_layersOf.mpr ⟨n, hn, hrole⟩
    rw [← hs.places] at hlayer
    obtain ⟨p, hp, heq⟩ := List.mem_map.mp hlayer
    cases heq
    exact ⟨p, hp, rfl⟩

/-- The slot of a place belongs to what is at the place, and to nothing else. -/
theorem owned_of_assemble (hlen : names.length = nodes.length)
    (h : assemble known nodes names roots options = .ok net) {k : Nat} (hk : k < nodes.length) :
    (net.inputs.map Prod.snd).count ((valueSlot k : Nat) : Int)
      + net.paramVars.count ((valueSlot k : Nat) : Int)
      + ((placedLayers nodes names).map fun p => ((valueSlot p.place : Nat) : Int)).count
          ((valueSlot k : Nat) : Int) = 1 := by
  have hs := assemble_streams hlen h
  have hat : ∀ (kind : NodeKind), (∃ j, (nodes[j]?).map Node.kind = some kind ∧
      ((valueSlot k : Nat) : Int) = ((valueSlot j : Nat) : Int)) ↔ nodes[k].kind = kind := by
    intro kind
    constructor
    · rintro ⟨j, hj, hslot⟩
      obtain rfl := natCast_valueSlot_inj.mp hslot
      rw [List.getElem?_eq_getElem hk, Option.map_some] at hj
      exact Option.some.inj hj
    · intro hkind
      exact ⟨k, by rw [List.getElem?_eq_getElem hk, Option.map_some, hkind], rfl⟩
  have hparams : net.paramVars = (paramSlots nodes names).map fun p => p.1.var := by
    unfold CompiledNet.paramVars
    rw [assemble_params h, List.map_map]
    rfl
  have hinput : ((valueSlot k : Nat) : Int) ∈ net.inputs.map Prod.snd ↔ nodes[k].kind = .input := by
    rw [mem_inputVars hlen h, hat]
  have hparam : ((valueSlot k : Nat) : Int) ∈ net.paramVars ↔ nodes[k].kind = .param := by
    rw [mem_paramVars hlen h, hat]
  have hlayer : ((valueSlot k : Nat) : Int) ∈ (placedLayers nodes names).map
      (fun p => ((valueSlot p.place : Nat) : Int)) ↔ nodes[k].kind = .layer := by
    rw [mem_layerVars hs, hat]
  rw [count_of_increasing ((assemble_registries h).1 ▸ inputSlots_increasing nodes names),
    count_of_increasing (hparams ▸ paramSlots_increasing nodes names),
    count_of_increasing (layerSlots_increasing nodes names)]
  simp only [hinput, hparam, hlayer]
  cases nodes[k].kind <;> rfl

/-! ### Order of reads and writes -/

/-- Among layers at increasing places, one at a smaller place comes first. -/
theorem lt_of_place_lt {layers : List (Placed F)}
    (hincreasing : layers.Pairwise fun p q => p.place < q.place) {j l : Nat} {p q : Placed F}
    (hj : layers[j]? = some p) (hl : layers[l]? = some q) (hlt : q.place < p.place) : l < j := by
  obtain ⟨hjlt, rfl⟩ := List.getElem?_eq_some_iff.mp hj
  obtain ⟨hllt, rfl⟩ := List.getElem?_eq_some_iff.mp hl
  by_contra hge
  rcases Nat.eq_or_lt_of_le (Nat.le_of_not_lt hge) with rfl | hgt
  · exact Nat.lt_irrefl _ hlt
  · have := List.pairwise_iff_getElem.mp hincreasing j l hjlt hllt hgt
    omega

/-- What an instruction of a layer reads as a value is the slot of a smaller place. -/
theorem earlier_of_mem_operands {layers : List (Placed F)} {size : Nat}
    (hw : WellPlaced (slotIn nodes) size layers) {p : Placed F} (hp : p ∈ layers) {v : Int}
    (hv : v ∈ (operandSlots (slotIn nodes) 0 p.layer.args).map Prod.fst) :
    ∃ m, m < p.place ∧ m < nodes.length ∧ v = ((valueSlot m : Nat) : Int) := by
  obtain ⟨b, hb, rfl⟩ := List.mem_map.mp hv
  obtain ⟨q, h, slot, hq, hslot, rfl⟩ := mem_operandSlots.mp hb
  obtain ⟨m, hm, hslot'⟩ := hw.earlier p hp h (List.mem_of_getElem? hq)
  have hlt := slotIn_lt hslot'
  rw [hslot] at hslot'
  cases hslot'
  exact ⟨m, hm, valueSlot_succ_lt.mp hlt, rfl⟩

/-- A forward stream of layers, as they are or as they run in inference mode, reads inputs,
parameters and what it wrote before. -/
theorem reads_of_wellPlaced (hlen : names.length = nodes.length)
    (h : assemble known nodes names roots options = .ok net) {layers : List (Placed F)} {size : Nat}
    (hw : WellPlaced (slotIn nodes) size layers)
    (hplaces : layers.map Placed.place = (placedLayers nodes names).map Placed.place) {j : Nat}
    {i : Instruction F} (hi : (layers.map (forwardOf (slotIn nodes)))[j]? = some i) {v : Int}
    (hv : v ∈ i.inputVars) :
    v ∈ net.inputs.map Prod.snd ∨ v ∈ net.paramVars ∨
      ∃ (l : Nat) (w : Instruction F), l < j ∧
        (layers.map (forwardOf (slotIn nodes)))[l]? = some w ∧ w.outputVar = some v := by
  rw [List.getElem?_map] at hi
  obtain ⟨p, hp, rfl⟩ := Option.map_eq_some_iff.mp hi
  obtain ⟨m, hm, hmlt, rfl⟩ := earlier_of_mem_operands hw (List.mem_of_getElem? hp) hv
  have hnode : (nodes[m]?).map Node.kind = some nodes[m].kind := by
    rw [List.getElem?_eq_getElem hmlt, Option.map_some]
  cases hkind : nodes[m].kind with
  | input => exact .inl ((mem_inputVars hlen h).mpr ⟨m, hkind ▸ hnode, rfl⟩)
  | param => exact .inr (.inl ((mem_paramVars hlen h).mpr ⟨m, hkind ▸ hnode, rfl⟩))
  | layer =>
    obtain ⟨q, hq, hslot⟩ := List.mem_map.mp
      ((mem_layerVars (assemble_streams hlen h)).mpr ⟨m, hkind ▸ hnode, rfl⟩)
    have hqm : q.place = m := natCast_valueSlot_inj.mp hslot
    have hmem : m ∈ layers.map Placed.place := by
      rw [hplaces]
      exact List.mem_map.mpr ⟨q, hq, hqm⟩
    obtain ⟨q', hq', rfl⟩ := List.mem_map.mp hmem
    obtain ⟨l, hl⟩ := List.mem_iff_getElem?.mp hq'
    refine .inr
      (.inr ⟨l, forwardOf (slotIn nodes) q', lt_of_place_lt hw.increasing hp hl hm, ?_, rfl⟩)
    rw [List.getElem?_map, hl]
    rfl

/-- **Nets that are assembled from nodes in dependency order are scheduled.** -/
theorem scheduled_of_assemble (ho : Ordered nodes) (hlen : names.length = nodes.length)
    (h : assemble known nodes names roots options = .ok net)
    (hnames : ¬ShareInputName nodes names) :
    net.Scheduled := by
  have hs := assemble_streams hlen h
  have hw := hs.wellPlaced ho
  have houtputs : net.forward.map Instruction.outputVar
      = ((placedLayers nodes names).map fun p => ((valueSlot p.place : Nat) : Int)).map some := by
    rw [hs.forward, List.map_map, List.map_map]
    rfl
  have hlength : net.forward.length = (placedLayers nodes names).length := by
    rw [hs.forward, List.length_map]
  have hforward : ∀ l : Nat, net.forward[l]?
      = ((placedLayers nodes names)[l]?).map (forwardOf (slotIn nodes)) := by
    intro l
    rw [hs.forward, List.getElem?_map]
  -- The backward stream has the layers' instructions in reverse.
  have hback : ∀ {j i}, net.backward[j]? = some i → ∃ p,
      (placedLayers nodes names)[net.forward.length - 1 - j]? = some p ∧
        i = backwardOf (slotIn nodes) p := by
    intro j i hi
    rw [hs.backward, List.getElem?_map] at hi
    obtain ⟨p, hp, rfl⟩ := Option.map_eq_some_iff.mp hi
    have hj := (List.getElem?_eq_some_iff.mp hp).1
    rw [List.length_reverse] at hj
    rw [List.getElem?_reverse hj] at hp
    exact ⟨p, by rw [hlength, hp], rfl⟩
  refine ⟨?_, ?_, ?_, ?_, ?_, ?_, ?_⟩
  · rw [(assemble_registries h).1]
    exact nodup_inputSlots hnames
  · rw [houtputs, assemble_test h, List.map_map, List.map_map, List.map_map]
    rfl
  · rw [hs.backward, hlength, List.length_map, List.length_reverse]
  · intro k hk
    have hklt : k < nodes.length := by
      have hnum := hs.numVars
      omega
    -- Every node owns its value slot once, as a leaf or as an output.
    have hone := owned_of_assemble hlen h hklt
    have hcast : (2 * (k : Int)) = ((valueSlot k : Nat) : Int) := by
      unfold valueSlot
      omega
    rw [hcast, houtputs, List.count_map_of_injective _ _ (Option.some_injective Int)]
    exact hone
  · intro stream hstream j i hi v hv
    rw [List.mem_pair] at hstream
    rcases hstream with rfl | rfl
    · rw [hs.forward] at hi ⊢
      exact reads_of_wellPlaced hlen h hw rfl hi hv
    · rw [assemble_test h] at hi ⊢
      refine reads_of_wellPlaced hlen h (hs.inference ho) ?_ hi hv
      rw [List.map_map]
      rfl
  · intro j i hi
    obtain ⟨p, hp, rfl⟩ := hback hi
    refine ⟨forwardOf (slotIn nodes) p, _, ?_, rfl, List.getLast?_concat⟩
    rw [hforward, hp]
    rfl
  · intro j i hi v hv l f hf hfv
    obtain ⟨p, hp, rfl⟩ := hback hi
    rw [hforward] at hf
    obtain ⟨q, hq, rfl⟩ := Option.map_eq_some_iff.mp hf
    -- The last slot read is the layer's own derivative, those before are operands.
    have hoperand : v ∈ (operandSlots (slotIn nodes) 0 p.layer.args).map Prod.fst := by
      rw [← adjointOperands_fst]
      have hdrop : (backwardOf (slotIn nodes) p).inputVars.dropLast
          = (adjointOperands (slotIn nodes) p.layer.args).map Prod.fst := List.dropLast_concat
      rwa [hdrop] at hv
    obtain ⟨m, hm, -, rfl⟩ := earlier_of_mem_operands hw (List.mem_of_getElem? hp) hoperand
    have hqm : q.place = m := natCast_valueSlot_inj.mp (Option.some.inj hfv)
    have hlt := lt_of_place_lt hw.increasing hp hq (hqm ▸ hm)
    omega

end

/-! ### Accepted nets -/

/-- Compilation accepts only if no check of the listing finds an error. -/
theorem compileNodes_accepted {checks : Checks F} {known : Node F → Bool} {nodes : List (Node F)}
    {roots : Option (List Handle)} {options : Options F} {c : Compilation F}
    (h : compileNodes checks known nodes roots options = .ok c) :
    ∃ last names, assignNames nodes = .ok names ∧
      assemble known nodes names (roots.getD [last]) options = .ok c.net ∧
      ∀ check ∈ checks, ∃ found, check.onListing ⟨nodes, names, options.meta⟩ = .ok found ∧
        ∀ f ∈ found, f.severity ≠ .error := by
  obtain ⟨last, t, names, early, late, -, -, hnames, hearly, hnet, -⟩ := compileNodes_eq_ok h
  refine ⟨last.handle, names, hnames, hnet, ?_⟩
  obtain ⟨found, hfound, hjudge⟩ := bind_eq_ok.mp hearly
  obtain ⟨hpass, -⟩ := judge_eq_ok.mp hjudge
  obtain ⟨lists, hlists, hflat⟩ := bind_eq_ok.mp (liftM_eq_ok.mp hfound)
  rw [← pure_eq_ok.mp hflat] at hpass
  intro check hcheck
  obtain ⟨fs, hfs, hmem⟩ := exists_mem_of_mapM hlists hcheck
  refine ⟨fs, hfs, fun f hf herror => ?_⟩
  have hreach := hpass f (List.mem_flatten.mpr ⟨fs, hmem, hf⟩)
  rw [herror, Severity.error_reaches] at hreach
  cases hreach

/-- Compilation accepts inputs only if no two of them share a name. -/
theorem compileNodes_unshared {checks : Checks F}
    (hchecks : ∀ check ∈ GraphChecks.all, check ∈ checks) {known : Node F → Bool}
    {nodes : List (Node F)} {roots : Option (List Handle)} {options : Options F}
    {c : Compilation F} (h : compileNodes checks known nodes roots options = .ok c) :
    ∃ last names, assignNames nodes = .ok names ∧
      assemble known nodes names (roots.getD [last]) options = .ok c.net ∧
      ¬ShareInputName nodes names := by
  obtain ⟨last, names, hnames, hnet, hclean⟩ := compileNodes_accepted h
  obtain ⟨found, hfound, hno⟩ := hclean _ (hchecks _ (List.mem_cons_self ..))
  cases hfound
  have hnil : GraphChecks.uniqueInputNames ⟨nodes, names, options.meta⟩ = [] :=
    List.eq_nil_iff_forall_not_mem.mpr fun f hf =>
      hno f hf (GraphChecks.severity_of_mem (List.mem_append_left _ hf))
  exact ⟨last, names, hnames, hnet, GraphChecks.uniqueInputNames_eq_nil_iff.mp hnil⟩

/-- **The streams of an accepted net are scheduled.**  For every list of roots of an acyclic
graph that compilation accepts, with the checks of ordered nodes among those that are
registered, every value slot has one owner, reads come after writes, and backward instructions
run before those of the layers that they read. -/
theorem accepted_net_scheduled [Arith F] {checks : Checks F}
    (hchecks : ∀ check ∈ GraphChecks.all, check ∈ checks) {g : Graph F} (hg : g.Acyclic)
    {source : String} {roots : List Handle} (hroots : ∀ h ∈ roots, h.id < g.size)
    {options : Options F} {c : Compilation F}
    (hc : compileRoots checks g source (roots.map .node) options = .ok c) : c.net.Scheduled := by
  have hne : roots ≠ [] := by
    rintro rfl
    cases hc
  rw [compileRoots_eq hne] at hc
  obtain ⟨_, names, hnames, hnet, hunshared⟩ := compileNodes_unshared hchecks hc
  exact scheduled_of_assemble (ordered_buildOrder hg source hroots) (length_assignNames hnames) hnet
    hunshared

/-- The nodes under the product and the input, with the layer that joins them. -/
theorem buildOrder_scaledGraph :
    buildOrder scaledGraph "" [⟨2, .layer, ""⟩, ⟨0, .input, ""⟩] = scaledInput
      ++ [joiningLayer scaledGraph "" [.node ⟨2, .layer, ""⟩, .node ⟨0, .input, ""⟩]] := by
  simp [buildOrder, Graph.widened, joiningLayer, Graph.orderFrom, Graph.orderIds, Graph.walkFrom,
    Graph.walk, Graph.depsOf, scaledGraph, scaledInput, Node.handle, Node.deps, Node.handles,
    List.range_succ, Value.node?]

theorem accepted_net_scheduled_scaled_graph :
    ∃ c, compileRoots Checks.builtin scaledGraph "" ([⟨2, .layer, ""⟩, ⟨0, .input, ""⟩].map .node)
        plainOptions = .ok c ∧ scaledGraph.Acyclic ∧ c.net.Scheduled := by
  obtain ⟨c, hc⟩ := exists_of_isOk
    (show (compileRoots Checks.builtin scaledGraph ""
      ([⟨2, .layer, ""⟩, ⟨0, .input, ""⟩].map .node) plainOptions).isOk = true by
        rw [compileRoots_eq (by decide), buildOrder_scaledGraph]
        rfl)
  exact ⟨c, hc, acyclic_scaledGraph, accepted_net_scheduled
    (fun check hcheck => List.mem_append_left _ hcheck) acyclic_scaledGraph (by decide) hc⟩

end SlotGrad
