import SlotGrad.Net
import SlotGrad.Proofs.Assembly
import SlotGrad.Proofs.BuildOrder
import SlotGrad.Proofs.Builtins
import SlotGrad.Proofs.Gradient
import SlotGrad.Proofs.JoinedVectors
import SlotGrad.Proofs.SummedReadings

/-!
# Nets of several roots

A net of several roots computes what the nets of its roots compute: its value is the vector of the
values of the roots, and its derivatives are the sums of theirs, if each of them is seeded with its
part of the seed.

## Main definitions

* `RootNets` — the net of several roots of a graph, and the net of each of them.
* `RootRuns` — evaluations of these nets in normal mode.

## Main results

* `RootNets.forward_iff` — what the net of all roots computes, and when.
* `RootRuns.isTotal` — what its derivatives are.
-/

namespace SlotGrad

/-! ### The joining layer -/

section

variable {F : Type}

/-- The layer that joins some roots. -/
def joiningApplication (roots : List Handle) : Application F :=
  ⟨Builtin.roots.op, roots.map .node, [], .same, .same, [], none⟩

theorem role_joiningLayer (g : Graph F) (source : String) (roots : List Handle) :
    (joiningLayer g source (roots.map .node)).role = .layer (joiningApplication roots) :=
  rfl

theorem seedPlace_map_node (hs : List Handle) :
    seedPlace (hs.map (.node : Handle → Value F)) = hs.length := by
  unfold seedPlace
  rw [List.findIdx_eq_length.mpr, List.length_map]
  intro v hv
  obtain ⟨h, -, rfl⟩ := List.mem_map.mp hv
  rfl

theorem Reading.map_argument_node (v : Reading F) (hs : List Handle) :
    (hs.map (.node : Handle → Value F)).map v.argument = hs.map fun h => v.value h.id := by
  rw [List.map_map]
  rfl

/-- The joining layer's adjoint is called with the values of the roots and the derivative. -/
theorem Reading.adjointArguments_joining (v : Reading F) (id : Nat) (roots : List Handle) :
    v.adjointArguments id (joiningApplication roots : Application F).args
      = (roots.map fun h => v.value h.id) ++ [v.der id] := by
  unfold Reading.adjointArguments joiningApplication
  dsimp only
  rw [seedPlace_map_node, List.take_of_length_le (by simp), List.drop_of_length_le (by simp),
    v.map_argument_node]
  rfl

/-- The results of the joining layer's adjoint are for its roots, one after another. -/
theorem contributions_joining (g : Graph F) (source : String) (roots : List Handle) (id : Nat)
    (out : List (Value F)) : contributions id (joiningLayer g source (roots.map .node)) out
      = (List.finRange roots.length).filterMap fun i =>
          if roots[i].id = id then (out[i.val]?).filter fun v => !v.isNone else none := by
  have hplaces : (roots.map (.node : Handle → Value F)).zipIdx
      = (List.finRange roots.length).map fun i => (.node roots[i], i.val) := by
    refine List.ext_getElem (by simp) fun i hi hi' => ?_
    simp
  unfold contributions
  dsimp only [joiningLayer, Node.application?]
  rw [seedPlace_map_node, List.take_of_length_le (by simp), List.drop_of_length_le (by simp)]
  unfold resultsFor
  rw [hplaces, List.filterMap_map, List.zipIdx_nil, List.filterMap_nil, List.append_nil]
  refine List.filterMap_congr fun i _ => ?_
  simp [Value.node?]

variable [Arith F]

/-- The joining layer computes the vector of the values of its roots. -/
theorem RunsBuiltins.joining_eq_ok {call : Calls F} (hcall : RunsBuiltins call)
    {roots : List Handle} (hne : roots ≠ []) {v : Reading F} {w : Value F} :
    call (joiningApplication roots : Application F).op.forward
        ⟨(joiningApplication roots : Application F).args.map v.argument,
          (joiningApplication roots : Application F).kwargs⟩ = .ok w ↔
      Value.Concatenates (roots.map fun h => v.value h.id) w := by
  unfold joiningApplication
  dsimp only
  rw [hcall.forward, v.map_argument_node, ← Kernel.roots_eq_ok (by simpa using hne)]
  change (Kernel.roots _).lift = .ok w ↔ _
  exact lift_eq_ok

/-- The joining layer's adjoint answers the parts of a vector, under the shapes of the roots. -/
theorem RunsBuiltins.exists_joiningAdjoint {call : Calls F} (hcall : RunsBuiltins call)
    {roots : List Handle} (hne : roots ≠ []) {v : Reading F} {id : Nat} {u : Grid F}
    (hu : (v.der id).figures? = some u) {gs : Fin roots.length → Grid F}
    (hshape : ∀ i, (v.value roots[i].id).shape = .ok (gs i).shape)
    (hparts : Grid.Concatenates (List.ofFn gs) u) :
    ∃ out : List (Value F), adjointAnswer call (countOf (joiningApplication roots))
        (joiningApplication roots)
        (v.adjointArguments id (joiningApplication roots : Application F).args)
          = .ok out ∧ ∀ i : Fin roots.length, ∃ o, out[i.val]? = some o ∧
              o.figures? = some (gs i) := by
  -- The parts are cut by the sizes of the roots' values.
  have hvalues : List.Forall₂ (fun w g => Value.shape w = .ok g.shape)
      (roots.map fun h => v.value h.id) (List.ofFn gs) := by
    rw [List.forall₂_iff_get]
    refine ⟨by simp, fun i hi hi' => ?_⟩
    have hlt : i < roots.length := by simpa using hi
    simpa using hshape ⟨i, hlt⟩
  obtain ⟨outs, houts, hall⟩ := Kernel.exists_rootsAdjoint (by simpa using hne) hvalues hu hparts
  obtain ⟨hlen, hget⟩ := List.forall₂_iff_get.mp hall
  rw [List.length_ofFn] at hlen
  -- The inferred count covers all roots.
  obtain ⟨n, hcount, hn⟩ : ∃ n : Int, countOf (joiningApplication roots : Application F)
    = .whole n ∧
      (roots.length : Int) ≤ n := by
    refine ⟨_, rfl, ?_⟩
    have hpos := List.length_pos_iff.mpr hne
    have hmem : ((roots.length - 1 : Nat) : Int)
        ∈ nodePlaces 0 (joiningApplication roots : Application F).args := by
      refine List.mem_filterMap.mpr ⟨(.node roots[roots.length - 1], roots.length - 1), ?_, rfl⟩
      rw [List.mem_zipIdx_iff_getElem?]
      simp [joiningApplication]
    have := lt_inferredCount hmem
    omega
  have hactive : (Count.whole n : Count F).isActive = true := by
    have hpos := List.length_pos_iff.mpr hne
    exact bne_iff_ne.mpr (by omega)
  have htake : takeResults n outs = outs := by
    unfold takeResults
    rw [if_pos (by omega), List.take_of_length_le (by omega)]
  refine ⟨outs, ?_, fun i => ⟨outs[i.val], List.getElem?_eq_getElem (by omega), ?_⟩⟩
  · have hanswer : call Builtin.roots.adjoint
        ⟨(roots.map fun h => v.value h.id) ++ [v.der id], []⟩ = .ok (.tuple outs) := by
      rw [hcall.adjoint]
      exact lift_eq_ok.mpr houts
    unfold adjointAnswer
    rw [hcount, if_pos hactive, v.adjointArguments_joining]
    refine bind_eq_ok.mpr ⟨_, hanswer, bind_eq_ok.mpr ⟨n, rfl, ?_⟩⟩
    exact congrArg Except.ok htake
  · have := hget i.val (by omega) (by simp)
    simpa using this

end

/-! ### Nets of roots -/

section

variable {F : Type} [Arith F]

/-- The state in which an evaluation of a net starts. -/
def Net.startState (n : Net F) (profiled : Bool) : RunState F :=
  ⟨n.store, [], if profiled then some [] else none⟩

/-- What an evaluation of a net in normal mode leaves, told about nodes: the values of its
forward pass, and the derivatives of its backward pass. -/
def Net.reading (call : Calls F) (nodes : List (Node F)) (o : EvalOptions F) (profiled : Bool)
    (n : Net F) : Reading F :=
  evaluationReading call n.compiled nodes o (n.startState profiled)

/-- A forward evaluation of a net whose store has the right size is a forward pass. -/
theorem Net.run_forward {n : Net F} (hsize : (n.store.size : Int) = n.compiled.numVars)
    (call : Calls F) (o : EvalOptions F) (profiled : Bool) :
    evaluate call n.compiled .forward o (n.startState profiled)
      = runForward call .forward n.compiled.forward (n.startState profiled) := by
  have hcheck : checkRequest n.compiled .forward o (n.startState profiled).store = .ok () := by
    unfold checkRequest
    rw [if_neg (fun h => nomatch h.1)]
    exact if_neg (not_not.mpr hsize)
  unfold evaluate
  rw [hcheck]

section

variable {nodes : List (Node F)} {layers : List (Placed F)} {n : Net F} {call : Calls F}

omit [Arith F] in
/-- The root's value is the content of the last value slot. -/
theorem Net.rootValue_eq {size : Nat} (hnum : n.compiled.numVars = ((2 * size : Nat) : Int))
    (hsize : n.store.size = 2 * size) (hpos : 0 < size) :
    n.rootValue = .ok (n.store.content (valueSlot (size - 1))) := by
  unfold Net.rootValue
  rw [show n.compiled.numVars - 2 = ((valueSlot (size - 1) : Nat) : Int) by
    unfold valueSlot
    omega]
  exact Store.get_natCast (hsize ▸ valueSlot_lt.mpr (by omega))

/-- **A forward evaluation answers a value exactly if there is a reading that the forward pass
can make, with that value for the last node.** -/
theorem Streams.run_forward_iff (h : Streams nodes layers n.compiled) (ho : Ordered nodes)
    (hsize : n.store.size = 2 * nodes.length) {last : Node F} (hlast : nodes.getLast? = some last)
    {o : EvalOptions F} {profiled : Bool} {w : Value F} :
    ((n.run call .forward o profiled).error = none ∧
        (n.run call .forward o profiled).state.rootValue = .ok w) ↔
      ∃ v : Reading F, Evaluates call nodes n.store v ∧ v.value last.id = w := by
  have hnum : n.compiled.numVars = ((2 * nodes.length : Nat) : Int) := h.numVars
  have hrun := Net.run_forward (n := n) (by omega) call o profiled
  rw [List.getLast?_eq_getElem?] at hlast
  have hpos : 0 < nodes.length := by
    have := (List.getElem?_eq_some_iff.mp hlast).1
    omega
  have hstart : (n.startState profiled).store.size = 2 * nodes.length := hsize
  have herror : (n.run call .forward o profiled).error
      = (runForward call .forward n.compiled.forward (n.startState profiled)).error :=
    congrArg Outcome.error hrun
  have hstate : (n.run call .forward o profiled).state.store
      = (runForward call .forward n.compiled.forward (n.startState profiled)).state.store :=
    congrArg (fun q => q.state.store) hrun
  have hcompiled : (n.run call .forward o profiled).state.compiled.numVars
      = ((2 * nodes.length : Nat) : Int) := hnum
  constructor
  · rintro ⟨hdone, hvalue⟩
    obtain ⟨htsize, hv⟩ := h.evaluates_of_forward ho hstart ⟨herror.symm.trans hdone, rfl⟩
    refine ⟨_, hv, ?_⟩
    rw [← hstate] at htsize ⊢
    rw [Store.value_reading ho.distinct hlast]
    exact Except.ok.inj ((Net.rootValue_eq hcompiled htsize hpos).symm.trans hvalue)
  · rintro ⟨v, hv, rfl⟩
    obtain ⟨hdone, hstore⟩ := h.forward_leaves_of_evaluates ho hstart hv
    have hstore := hstate.trans hstore
    refine ⟨herror.trans hdone, ?_⟩
    rw [Net.rootValue_eq hcompiled (by rw [hstore, Store.size_withValues, hstart]) hpos, hstore,
      Store.content_withValues ((Reading.size_store ..).trans hstart.symm),
      if_pos (valueSlot_mod_two _), Reading.value_store hlast]

end

/-! ### Several roots and each of them -/

/-- A net of some roots of a graph, with any store of the right size. -/
def Net.IsOf [Interchange F] (n : Net F) (checks : Checks F) (g : Graph F) (source : String)
    (roots : List Handle) (options : Options F) : Prop :=
  ∃ c, compileRoots checks g source (roots.map .node) options = .ok c ∧ n.compiled = c.net ∧
    (n.store.size : Int) = c.net.numVars

/-- The net of several roots of a graph and the net of each of them alone, with the same inputs and
parameters. -/
structure RootNets [Interchange F] (checks : Checks F) (g : Graph F) (source : String)
    (roots : List Handle) (options : Options F) (n : Net F) (ns : Fin roots.length → Net F) :
    Prop where
  /-- The graph has no cycles. -/
  acyclic : g.Acyclic
  /-- There are at least two roots. -/
  two : 2 ≤ roots.length
  /-- Roots are in the graph. -/
  inGraph : ∀ h ∈ roots, h.id < g.size
  /-- One net has all roots. -/
  whole : n.IsOf checks g source roots options
  /-- The others have one root each. -/
  parts : ∀ i, (ns i).IsOf checks g source [roots[i]] options
  /-- The stores hold the same inputs and parameters. -/
  leaves : ∀ i, SameLeafValues (buildOrder g source roots) (buildOrder g source [roots[i]]) n.store
    (ns i).store

/-- A net of some roots has the streams of its nodes, and a place for each in its store. -/
theorem Net.IsOf.streams [Interchange F] {n : Net F} {checks : Checks F} {g : Graph F}
    {source : String} {roots : List Handle} {options : Options F}
    (h : n.IsOf checks g source roots options) (hne : roots ≠ []) :
    ∃ layers, Streams (buildOrder g source roots) layers n.compiled ∧
      n.store.size = 2 * (buildOrder g source roots).length ∧
        ∀ (o : EvalOptions F) (slot : Int), slot ∈ keptSlots n.compiled o ↔ o.accumulate = true ∧
          ∃ k, ((buildOrder g source roots)[k]?).map Node.kind = some .param ∧
            slot = ((valueSlot k + 1 : Nat) : Int) := by
  obtain ⟨c, hc, hnet, hsize⟩ := h
  rw [compileRoots_eq hne] at hc
  obtain ⟨-, names, heads, hlen, hassembled⟩ := compileNodes_assembled hc
  have hstreams := assemble_streams hlen hassembled
  rw [hnet]
  have hnum : c.net.numVars = ((2 * (buildOrder g source roots).length : Nat) : Int) :=
    hstreams.numVars
  exact ⟨_, hstreams, by omega, fun o slot => mem_keptSlots hlen hassembled⟩

/-- The reading of some nets that have an additional node. -/
def Reading.glued {k : Nat} (I : Fin k → List (Node F)) (v : Fin k → Reading F) (last : Nat)
    (w : Value F) : Reading F where
  value id := if id = last then w else (((sharers I id).head?).map fun i => (v i).value id).getD
    .none
  der _ := .none

namespace RootNets

variable [Interchange F] {checks : Checks F} {g : Graph F} {source : String} {roots : List Handle}
  {options : Options F} {n : Net F} {ns : Fin roots.length → Net F} {call : Calls F}

theorem ne_nil (h : RootNets checks g source roots options n ns) : roots ≠ [] := by
  have := h.two
  rintro rfl
  exact absurd this (by decide)

/-- The nodes of all roots come after what they read. -/
theorem ordered (h : RootNets checks g source roots options n ns) :
    Ordered (buildOrder g source roots) :=
  ordered_buildOrder h.acyclic source h.inGraph

theorem inGraph_part (h : RootNets checks g source roots options n ns) (i : Fin roots.length) :
    ∀ r ∈ [roots[i]], r.id < g.size := by
  intro r hr
  rw [List.mem_singleton.mp hr]
  exact h.inGraph _ (List.getElem_mem _)

/-- So do those of one root. -/
theorem ordered_part (h : RootNets checks g source roots options n ns) (i : Fin roots.length) :
    Ordered (buildOrder g source [roots[i]]) :=
  ordered_buildOrder h.acyclic source (h.inGraph_part i)

/-- The nets of single roots together have the nodes of the other one, but for the joining layer. -/
theorem covers (h : RootNets checks g source roots options n ns) :
    Covers (buildOrder g source roots) (joiningLayer g source (roots.map .node))
      fun i : Fin roots.length => buildOrder g source [roots[i]] where
  last := getLast?_buildOrder h.acyclic h.two h.inGraph
  mem m := by
    rw [mem_buildOrder_of_two_le h.acyclic h.two h.inGraph]
    refine or_congr Iff.rfl ⟨?_, ?_⟩
    · rintro ⟨r, hr, hm⟩
      obtain ⟨i, rfl⟩ := List.get_of_mem hr
      exact ⟨i, hm⟩
    · rintro ⟨i, hm⟩
      exact ⟨roots[i], List.getElem_mem _, hm⟩
  apart i hjoin := by
    have hid := (Array.getElem?_eq_some_iff.mp (Graph.getElem?_of_mem_orderFrom h.acyclic hjoin)).1
    exact Nat.lt_irrefl _ hid

theorem mem_of_part (h : RootNets checks g source roots options n ns) {i : Fin roots.length}
    {m : Node F} (hm : m ∈ buildOrder g source [roots[i]]) : m ∈ buildOrder g source roots ∧
    m.id < g.size :=
  ⟨(h.covers.mem m).mpr (.inr ⟨i, hm⟩),
    (Array.getElem?_eq_some_iff.mp (Graph.getElem?_of_mem_orderFrom h.acyclic hm)).1⟩

/-- Nets of single roots have the same inputs and parameters. -/
theorem leaves_parts (h : RootNets checks g source roots options n ns) (i i' : Fin roots.length) :
    SameLeafValues (buildOrder g source [roots[i]]) (buildOrder g source [roots[i']]) (ns i).store
      (ns i').store := by
  intro j k m hj hk hleaf
  obtain ⟨l, hl⟩ := List.mem_iff_getElem?.mp (h.mem_of_part (List.mem_of_getElem? hj)).1
  rw [h.leaves i l j m hl hj hleaf, h.leaves i' l k m hl hk hleaf]

/-- The root of a net of one root is its last node. -/
theorem exists_last (h : RootNets checks g source roots options n ns) (i : Fin roots.length) :
    ∃ m, (buildOrder g source [roots[i]]).getLast? = some m ∧ m.id = roots[i].id :=
  Option.map_eq_some_iff.mp
    (getLast?_buildOrder_singleton h.acyclic (h.inGraph _ (List.getElem_mem _)))

/-- The net of all roots computes the nodes as the nets of single roots do. -/
theorem value_glued (h : RootNets checks g source roots options n ns)
    {v : Fin roots.length → Reading F}
    (hv : ∀ i, Evaluates call (buildOrder g source [roots[i]]) (ns i).store (v i)) (w : Value F)
    {i : Fin roots.length} {m : Node F} (hm : m ∈ buildOrder g source [roots[i]]) :
    (Reading.glued (fun i : Fin roots.length => buildOrder g source [roots[i]]) v g.size w).value
      m.id
      = (v i).value m.id := by
  obtain ⟨hmem, hid⟩ := h.mem_of_part hm
  have hshares := (h.covers.mem_sharers h.ordered hmem).mpr hm
  unfold Reading.glued
  dsimp only
  rw [if_neg (Nat.ne_of_lt hid)]
  cases hsharers : sharers (fun i : Fin roots.length => buildOrder g source [roots[i]]) m.id with
  | nil =>
    rw [hsharers] at hshares
    cases hshares
  | cons i' _ =>
    have hm' := (h.covers.mem_sharers h.ordered hmem).mp (hsharers ▸ List.mem_cons_self ..)
    exact (hv i).agree (hv i') (h.ordered_part i) (h.ordered_part i')
      (fun x hx y hy => h.ordered.eq_of_id (h.mem_of_part hx).1 (h.mem_of_part hy).1)
      (h.leaves_parts i i') m hm hm'

/-- The nets of single roots give a reading that the net of all roots can make, if the values of the
roots can be joined. -/
theorem evaluates_glued (h : RootNets checks g source roots options n ns)
    (hcall : RunsBuiltins call) {v : Fin roots.length → Reading F}
    (hv : ∀ i, Evaluates call (buildOrder g source [roots[i]]) (ns i).store (v i)) {w : Value F}
    (hw : Value.Concatenates (List.ofFn fun i => (v i).value roots[i].id) w) :
    Evaluates call (buildOrder g source roots) n.store
      (Reading.glued (fun i : Fin roots.length => buildOrder g source [roots[i]]) v g.size w) := by
  have hvalue := fun {i : Fin roots.length} {m : Node F} hm =>
    h.value_glued hv w (i := i) (m := m) hm
  refine ⟨fun m hm a hrole => ?_, fun j m hj hleaf => ?_⟩
  · rcases (h.covers.mem m).mp hm with rfl | ⟨i, hi⟩
    · obtain rfl : joiningApplication roots = a := Role.layer.inj hrole
      have hroots : (roots.map fun r => (Reading.glued
          (fun i : Fin roots.length => buildOrder g source [roots[i]]) v g.size w).value r.id)
            = List.ofFn fun i => (v i).value roots[i].id := by
        refine List.ext_getElem (by simp) fun k hk _ => ?_
        have hk : k < roots.length := by simpa using hk
        obtain ⟨last, hlast, hid⟩ := h.exists_last ⟨k, hk⟩
        have hroot := hvalue (List.mem_of_getLast? hlast)
        rw [hid] at hroot
        simpa using hroot
      refine ((hcall.joining_eq_ok h.ne_nil).mpr (hroots ▸ hw)).trans ?_
      exact congrArg Except.ok (if_pos rfl).symm
    · exact (hv i).computes.congr (h.ordered_part i) (fun _ hx => hvalue hx) m hi a hrole
  · rcases (h.covers.mem m).mp (List.mem_of_getElem? hj) with rfl | ⟨i, hi⟩
    · cases hleaf
    · obtain ⟨k, hk⟩ := List.mem_iff_getElem?.mp hi
      rw [hvalue hi, (hv i).leaves k m hk hleaf, h.leaves i j k m hj hk hleaf]

/-- **What the net of all roots computes, and when**: it completes exactly if the nets of all
roots do and their values can be joined, and then its value is the vector of theirs. -/
theorem forward_iff (h : RootNets checks g source roots options n ns) (hcall : RunsBuiltins call)
    (o : EvalOptions F) (profiled : Bool) (w : Value F) :
    ((n.run call .forward o profiled).error = none ∧
        (n.run call .forward o profiled).state.rootValue = .ok w) ↔
      ∃ ws : Fin roots.length → Value F,
        (∀ i, ((ns i).run call .forward o profiled).error = none ∧
          ((ns i).run call .forward o profiled).state.rootValue = .ok (ws i)) ∧
        Value.Concatenates (List.ofFn ws) w := by
  obtain ⟨layers, hstreams, hsize, -⟩ := h.whole.streams h.ne_nil
  have hparts := fun i => (h.parts i).streams (List.cons_ne_nil _ _)
  choose layers' hstreams' hsize' _ using hparts
  choose last hlast hid using h.exists_last
  have hiff : ∀ i (w' : Value F), ((ns i).run call .forward o profiled).error = none ∧
      ((ns i).run call .forward o profiled).state.rootValue = .ok w' ↔ ∃ v : Reading F,
        Evaluates call (buildOrder g source [roots[i]]) (ns i).store v ∧ v.value (last i).id = w' :=
    fun i w' => (hstreams' i).run_forward_iff (h.ordered_part i) (hsize' i) (hlast i)
  rw [hstreams.run_forward_iff h.ordered hsize h.covers.last]
  simp only [hiff, hid]
  have hvector : ∀ v : Reading F, (List.ofFn fun i : Fin roots.length => v.value roots[i].id)
      = roots.map fun r => v.value r.id := by
    intro v
    exact List.ext_getElem (by simp) fun i _ _ => by simp
  constructor
  · rintro ⟨v, hv, rfl⟩
    refine ⟨fun i => v.value roots[i].id,
      fun i => ⟨v, hv.mono (fun m hm => ?_) (h.leaves i), rfl⟩, ?_⟩
    · exact (h.covers.mem m).mpr (.inr ⟨i, hm⟩)
    · rw [hvector, ← hcall.joining_eq_ok h.ne_nil]
      exact hv.computes _ (List.mem_of_getLast? h.covers.last) _ rfl
  · rintro ⟨ws, hws, hw⟩
    choose v hv hroot using hws
    obtain rfl : (fun i : Fin roots.length => (v i).value roots[i].id) = ws := funext hroot
    exact ⟨_, h.evaluates_glued hcall hv hw, if_pos rfl⟩

end RootNets

end

/-! ### Derivatives -/

section

variable {K : Type} [Field K] [Arith K] [ExactArith K]

omit [ExactArith K] in
/-- What the joining layer adds are the parts of the derivative, which are numbers. -/
theorem joining_addend {g : Graph K} {source : String} {roots : List Handle}
    {gs : Fin roots.length → Grid K} {out : List (Value K)}
    (hout : ∀ i : Fin roots.length, ∃ o, out[i.val]? = some o ∧ o.figures? = some (gs i))
    (id : Nat) :
    (∀ w ∈ contributions id (joiningLayer g source (roots.map .node)) out, w.figures?.isSome) ∧
      ((contributions id (joiningLayer g source (roots.map .node)) out).map Value.amount).sum
        = ((List.finRange roots.length).map fun i =>
            if roots[i].id = id then (gs i).amount else 0).sum := by
  rw [contributions_joining]
  constructor
  · intro w hw
    obtain ⟨i, -, hi⟩ := List.mem_filterMap.mp hw
    obtain ⟨o, ho, hfigures⟩ := hout i
    rw [ho] at hi
    split at hi
    · obtain ⟨hw', -⟩ := Option.filter_eq_some_iff.mp hi
      cases hw'
      rw [hfigures]
      rfl
    · cases hi
  · rw [sum_map_filterMap]
    refine congrArg List.sum (List.map_congr_left fun i _ => ?_)
    obtain ⟨o, ho, hfigures⟩ := hout i
    rw [ho, ← Value.amount_of_figures? hfigures]
    split
    · rw [Option.filter_some, Value.isNone_of_figures? hfigures]
      rfl
    · rfl

/-- Completed evaluations in normal mode of the net of several roots, and of the net of each of
them on its part of the seed, and what they leave.  Adjoints are additive. -/
structure RootRuns (call : Calls K) (g : Graph K) (source : String)
    (roots : List Handle) (n : Net K) (ns : Fin roots.length → Net K) (profiled : Bool)
    (seed : Value K)
    (seeds : Fin roots.length → Value K) (V : Reading K) (v : Fin roots.length → Reading K) :
    Prop where
  /-- The evaluation of the net of all roots completes. -/
  whole : (n.run call .normal ⟨seed, false⟩ profiled).error = none
  /-- The evaluations of the nets of single roots complete. -/
  parts : ∀ i, ((ns i).run call .normal ⟨seeds i, false⟩ profiled).error = none
  /-- What the net of all roots leaves. -/
  reading : n.reading call (buildOrder g source roots) ⟨seed, false⟩ profiled = V
  /-- What the nets of single roots leave. -/
  readings : ∀ i, (ns i).reading call (buildOrder g source [roots[i]])
    ⟨seeds i, false⟩ profiled = v i
  /-- The seed is the vector of the seeds of the single roots, which have the shapes of these. -/
  split : ∃ u gs, seed.figures? = some u ∧ Grid.Concatenates (List.ofFn gs) u ∧
    ∀ i, (seeds i).figures? = some (gs i) ∧ ((v i).value roots[i].id).shape = .ok (gs i).shape
  /-- Sparse updates of the net of all roots make real arrays, whose addition is exact. -/
  reals : AddsReals (buildOrder g source roots) V
  /-- So do those of the nets of single roots. -/
  realParts : ∀ i, AddsReals (buildOrder g source [roots[i]]) (v i)
  /-- Sparse updates read the derivative of the output, which stands no later than third. -/
  third : ∀ m ∈ buildOrder g source roots, ∀ a, m.role = .layer a → a.op.scatter = true →
    seedPlace a.args ≤ 2
  /-- The adjoints of the graph's layers are additive in the derivative of the output. -/
  additive : ∀ m ∈ buildOrder g source roots, m.id < g.size → ∀ a, m.role = .layer a →
    a.op.scatter = false →
      AdditiveOn (fun dy => adjointAnswer call (countOf a) a (V.argumentsWith dy a.args))
        (derivativesOf (fun i : Fin roots.length => buildOrder g source [roots[i]]) v m.id)
        (V.der m.id)

variable [Interchange K] {checks : Checks K} {g : Graph K} {source : String} {roots : List Handle}
  {options : Options K} {n : Net K} {ns : Fin roots.length → Net K} {call : Calls K}
    {profiled : Bool}
  {seed : Value K} {seeds : Fin roots.length → Value K} {V : Reading K}
  {v : Fin roots.length → Reading K}

/-- The runs are readings of nets that have nodes in common. -/
theorem RootRuns.sharedReadings
    (hr : RootRuns call g source roots n ns profiled seed seeds V v)
    (h : RootNets checks g source roots options n ns) :
    SharedReadings call (buildOrder g source roots) (joiningLayer g source (roots.map .node))
      (fun i : Fin roots.length => buildOrder g source [roots[i]]) seed seeds V v := by
  obtain ⟨layers, hstreams, hsize, hkept⟩ := h.whole.streams h.ne_nil
  have hparts := fun i => (h.parts i).streams (List.cons_ne_nil _ _)
  choose layers' hstreams' hsize' hkept' using hparts
  have hV : Evaluates call (buildOrder g source roots) n.store V := by
    rw [← hr.reading]
    exact hstreams.evaluationReading_evaluates h.ordered hr.whole
  have hv : ∀ i, Evaluates call (buildOrder g source [roots[i]]) (ns i).store (v i) := by
    intro i
    rw [← hr.readings i]
    exact (hstreams' i).evaluationReading_evaluates (h.ordered_part i) (hr.parts i)
  refine ⟨h.covers, ?_, fun i => ?_, fun i => ?_, fun i m hm => ?_, hr.third, fun m hm hne => ?_⟩
  · have hreals := hr.reals
    rw [← hr.reading] at hreals ⊢
    exact hstreams.differentiates h.ordered (buildOrder_ne_nil h.acyclic source h.inGraph) rfl
      (hkept _) hr.whole hreals
  · have hreals := hr.realParts i
    rw [← hr.readings i] at hreals ⊢
    exact (hstreams' i).differentiates (h.ordered_part i)
      (buildOrder_ne_nil h.acyclic source (h.inGraph_part i)) rfl (hkept' i _) (hr.parts i) hreals
  · obtain ⟨u, gs, -, -, hseeds⟩ := hr.split
    rw [(hseeds i).1]
    rfl
  · exact hV.agree (hv i) h.ordered (h.ordered_part i)
      (fun x hx y hy => h.ordered.eq_of_id hx (h.mem_of_part hy).1) (h.leaves i) m
      (h.mem_of_part hm).1 hm
  · obtain ⟨i, hi⟩ := ((h.covers.mem m).mp hm).resolve_left hne
    exact hr.additive m hm (h.mem_of_part hi).2

/-- **What the derivatives of the net of all roots are**: the sums of those that the nets of single
roots leave. -/
theorem RootRuns.isTotal (hr : RootRuns call g source roots n ns profiled seed seeds V v)
    (h : RootNets checks g source roots options n ns) (hcall : RunsBuiltins call) {m : Node K}
    (hm : m ∈ buildOrder g source roots) (hid : m.id < g.size) :
    Value.IsTotal
      (derivativesOf (fun i : Fin roots.length => buildOrder g source [roots[i]]) v m.id)
      (V.der m.id) := by
  have hs := hr.sharedReadings h
  obtain ⟨u, gs, hu, hparts, hseeds⟩ := hr.split
  have hjoined : V.der g.size = seed := hs.whole.root _ h.covers.last
  have hshape : ∀ i, (V.value roots[i].id).shape = .ok (gs i).shape := by
    intro i
    obtain ⟨last, hlast, hlastid⟩ := h.exists_last i
    have hvalue := hs.values i last (List.mem_of_getLast? hlast)
    rw [hlastid] at hvalue
    rw [← hvalue]
    exact (hseeds i).2
  have hu' : (V.der g.size).figures? = some u := hjoined.symm ▸ hu
  obtain ⟨out, hout, hget⟩ := hcall.exists_joiningAdjoint h.ne_nil hu' hshape hparts
  refine hs.isTotal (fun id a hrole _ out' hout' => ?_) (fun m' _ _ => ?_) m hm ?_
  · obtain rfl : joiningApplication roots = a := Role.layer.inj hrole
    have hout' := hout.symm.trans hout'
    cases hout'
    exact (joining_addend hget id).1
  · -- The last node of a net of one root is the root.
    have hlast : ∀ i : Fin roots.length, seedAmount (buildOrder g source [roots[i]]) (seeds i) m'.id
        = if roots[i].id = m'.id then (gs i).amount else 0 := by
      intro i
      obtain ⟨last, hlast, hlastid⟩ := h.exists_last i
      unfold seedAmount
      rw [hlast, Option.map_some, hlastid, Value.amount_of_figures? (hseeds i).1]
      simp only [Option.some.injEq]
    rw [List.map_congr_left fun i _ => hlast i, ← (joining_addend hget m'.id).2]
    exact Node.addend_of_dense (role_joiningLayer g source roots) rfl hout _
  · rintro rfl
    exact Nat.lt_irrefl _ hid

/-- **The net of several roots is the sum of the nets of its roots.**  Evaluated forward, it
answers the vector of what they answer, and it completes exactly if they do and their values can
be joined.  Evaluated in normal mode, it leaves for every node the sum of the derivatives that
the node has in the nets that have it, if each of these is seeded with its part of the seed. -/
theorem joint_net_sums (h : RootNets checks g source roots options n ns) (hcall : RunsBuiltins call)
    (profiled : Bool) :
    (∀ o w, ((n.run call .forward o profiled).error = none ∧
        (n.run call .forward o profiled).state.rootValue = .ok w) ↔
      ∃ ws : Fin roots.length → Value K,
        (∀ i, ((ns i).run call .forward o profiled).error = none ∧
          ((ns i).run call .forward o profiled).state.rootValue = .ok (ws i)) ∧
        Value.Concatenates (List.ofFn ws) w) ∧
    ∀ seed seeds V v, RootRuns call g source roots n ns profiled seed seeds V v →
      ∀ m ∈ buildOrder g source roots, m.id < g.size → Value.IsTotal
        (derivativesOf (fun i : Fin roots.length => buildOrder g source [roots[i]]) v m.id)
        (V.der m.id) :=
  ⟨fun o w => h.forward_iff hcall o profiled w,
    fun _ _ _ _ hr _ hm hid => hr.isTotal h hcall hm hid⟩

end

/-- The graph of a parameter, its first element, and that element passed on. -/
def passedGraph : Graph ℚ := passedElement.toArray

/-- The element, the parameter and the element once more. -/
def passedRoots : List Handle := [⟨2, .layer, ""⟩, ⟨0, .param, ""⟩, ⟨2, .layer, ""⟩]

theorem acyclic_passedGraph : passedGraph.Acyclic :=
  Graph.acyclic_of_forall_fin (by decide)

theorem buildOrder_passedRoots : buildOrder passedGraph "" passedRoots
    = passedElement ++ [joiningLayer passedGraph "" (passedRoots.map .node)] := by
  have hsize : (passedGraph.widened "" passedRoots).size = 4 := rfl
  have hdeps : [0, 1, 2, 3].map (passedGraph.widened "" passedRoots).depsOf
      = [[], [0], [1], [2, 0, 2]] := rfl
  simp only [List.map_cons, List.map_nil, List.cons.injEq, and_true] at hdeps
  have hids : (passedGraph.widened "" passedRoots).orderIds [3] = [0, 1, 2, 3] := by
    simp [Graph.orderIds, Graph.walkFrom, Graph.walk, hsize, hdeps, List.range_succ]
  change ((passedGraph.widened "" passedRoots).orderIds [3]).filterMap _ = _
  rw [hids]
  rfl

theorem buildOrder_passedRoot :
    buildOrder passedGraph "" [⟨2, .layer, ""⟩] = passedElement ∧
      buildOrder passedGraph "" [⟨0, .param, ""⟩] = passedElement.take 1 := by
  have hsize : passedGraph.size = 3 := rfl
  have hdeps : [0, 1, 2].map passedGraph.depsOf = [[], [0], [1]] := rfl
  simp only [List.map_cons, List.map_nil, List.cons.injEq, and_true] at hdeps
  have hids : passedGraph.orderIds [2] = [0, 1, 2] ∧ passedGraph.orderIds [0] = [0] := by
    simp [Graph.orderIds, Graph.walkFrom, Graph.walk, hsize, hdeps, List.range_succ]
  change (passedGraph.orderIds [2]).filterMap _ = _ ∧ (passedGraph.orderIds [0]).filterMap _ = _
  rw [hids.1, hids.2]
  exact ⟨rfl, rfl⟩

/-- A layer that passes a node on. -/
def passing (h : Handle) : Application ℚ :=
  ⟨Builtin.deal.op, [.node h], [], .same, .same, [], none⟩

/-- It passes derivatives back, which is additive. -/
theorem additiveOn_passing (v : Reading ℚ) (h : Handle) (dys : List (Value ℚ)) (dy : Value ℚ) :
    AdditiveOn (fun d => adjointAnswer builtinCalls (countOf (passing h)) (passing h)
      (v.argumentsWith d (passing h).args)) dys dy := by
  intro htotal outs out houts hout q
  obtain ⟨hnumbers, hnumber, -⟩ := Value.isTotal_iff.mp htotal
  have hone : ∀ {d o}, d.figures?.isSome →
    adjointAnswer builtinCalls (countOf (passing h)) (passing h)
      (v.argumentsWith d (passing h).args) = .ok o → o = [d] ∧ d.isNone = false := by
    intro d o hd ho
    obtain ⟨g, hg⟩ := Option.isSome_iff_exists.mp hd
    have ho : Except.ok ((resultsOf d).take 1) = (Except.ok o : Attempt (List (Value ℚ))) := ho
    rw [resultsOf_of_figures? hg] at ho
    exact ⟨(Except.ok.inj ho).symm, Value.isNone_of_figures? hg⟩
  have htaken : ∀ {d : Value ℚ}, d.isNone = false → taken? [d] 0 = some d := by
    intro d hd
    unfold taken?
    rw [List.getElem?_cons_zero, Option.filter_some, hd]
    rfl
  -- The answers are the derivatives themselves, call by call.
  have hall : outs.mapM (fun o => taken? o 0) = some dys ∧ ∀ o ∈ outs, ∃ d, o = [d] := by
    have hforall := mapM_eq_ok.mp houts
    clear htotal houts
    induction hforall with
    | nil => exact ⟨rfl, by simp⟩
    | cons hd _ ih =>
      rw [List.forall_mem_cons] at hnumbers
      obtain ⟨rfl, hnone⟩ := hone hnumbers.1 hd
      obtain ⟨hmap, hall⟩ := ih hnumbers.2
      refine ⟨?_, List.forall_mem_cons.mpr ⟨⟨_, rfl⟩, hall⟩⟩
      rw [List.mapM_cons, hmap, htaken hnone]
      rfl
  obtain ⟨rfl, hnone⟩ := hone hnumber hout
  rcases q with _ | q
  · exact .inr ⟨dys, dy, hall.1, htaken hnone, htotal⟩
  · refine .inl ⟨by simp [taken?], fun o ho => ?_⟩
    obtain ⟨d, rfl⟩ := hall.2 o ho
    simp [taken?]

/-- The seed of the net of all roots. -/
def fourSeeds : Value ℚ :=
  .array ⟨.float64, Grid.ofFn [4] fun i => ((i.headD 0 : ℕ) : ℚ) + 1⟩

/-- Its parts. -/
def partSeeds (i : Fin passedRoots.length) : Value ℚ :=
  match i.val with
  | 0 => .real 1
  | 1 => pair 2 3
  | _ => .real 4

/-- The numbers of the parts. -/
def partGrids (i : Fin passedRoots.length) : Grid ℚ := (partSeeds i).figures?.getD (.single 0)

/-- The nodes under one of the roots. -/
def partNodes (i : Fin passedRoots.length) : List (Node ℚ) :=
  if i.val = 1 then passedElement.take 1 else passedElement

theorem buildOrder_part (i : Fin passedRoots.length) :
    buildOrder passedGraph "" [passedRoots[i]] = partNodes i := by
  match i with
  | ⟨0, _⟩ => exact buildOrder_passedRoot.1
  | ⟨1, _⟩ => exact buildOrder_passedRoot.2
  | ⟨2, _⟩ => exact buildOrder_passedRoot.1

/-- The indexing layer's sparse update makes a real array. -/
def updatesReal (v : Reading ℚ) : Bool :=
  ((v.value 0).commonDtype (v.der 1)).toOption.all Dtype.isReal

/-- The layer that indexes the parameter. -/
def indexing : Application ℚ :=
  ⟨Builtin.slice.op, [.node ⟨0, .param, ""⟩, .integer 0], [], .same, .same, [], none⟩

theorem layer_passedElement {m : Node ℚ} (hm : m ∈ passedElement) {a : Application ℚ}
    (hrole : m.role = .layer a) : m.id = 1 ∧ a = indexing ∨ m.id = 2 ∧
      a = passing ⟨1, .layer, ""⟩ := by
  rcases List.mem_cons.mp hm with rfl | hm
  · cases hrole
  rcases List.mem_cons.mp hm with rfl | hm
  · exact .inl ⟨rfl, (Role.layer.inj hrole).symm⟩
  cases List.mem_singleton.mp hm
  exact .inr ⟨rfl, (Role.layer.inj hrole).symm⟩

theorem addsReals_of_updatesReal {nodes : List (Node ℚ)} {v : Reading ℚ} (h : updatesReal v = true)
    (hnodes : ∀ m ∈ nodes, m ∈ passedElement ∨ ∀ a, m.role = .layer a → a.op.scatter = false) :
    AddsReals nodes v := by
  intro m hm a hrole hscatter source index dy d hthree hd
  rcases hnodes m hm with hm | hdense
  · rcases layer_passedElement hm hrole with ⟨hid, rfl⟩ | ⟨-, rfl⟩
    · rw [hid] at hthree
      cases hthree
      have hd : (v.value 0).commonDtype (v.der 1) = .ok d := hd
      unfold updatesReal at h
      rw [hd] at h
      exact h
    · cases hscatter
  · rw [hdense a hrole] at hscatter
    cases hscatter

/-- The net of all roots completes, and its sparse updates make real arrays. -/
def WholeCompletes (n : Net ℚ) : Prop :=
  (n.run builtinCalls .normal ⟨fourSeeds, false⟩ false).error = none ∧
    updatesReal (n.reading builtinCalls (passedElement
      ++ [joiningLayer passedGraph "" (passedRoots.map .node)]) ⟨fourSeeds, false⟩ false) = true

/-- So does the net of one of the roots, whose part of the seed has the shape of the root. -/
def PartCompletes (i : Fin passedRoots.length) (n : Net ℚ) : Prop :=
  (n.run builtinCalls .normal ⟨partSeeds i, false⟩ false).error = none ∧
    ((n.reading builtinCalls (partNodes i) ⟨partSeeds i, false⟩ false).value
      passedRoots[i].id).shape.toOption = some (partGrids i).shape ∧
    (i.val = 1 ∨
      updatesReal (n.reading builtinCalls (partNodes i) ⟨partSeeds i, false⟩ false) = true)

/-- The roots have nets, which complete. -/
theorem exists_passedNets : ∃ (n : Net ℚ) (ns : Fin passedRoots.length → Net ℚ),
    RootNets [] passedGraph "" passedRoots plainOptions n ns ∧ WholeCompletes n ∧
      ∀ i, PartCompletes i (ns i) := by
  obtain ⟨c, hc⟩ : ∃ c, compileNodes [] (fun n => n.id < passedGraph.size) (passedElement
      ++ [joiningLayer passedGraph "" (passedRoots.map .node)])
          (some passedRoots) plainOptions = .ok c :=
    ⟨_, rfl⟩
  have hcs : ∀ i, ∃ c, compileNodes [] (fun n => n.id < passedGraph.size) (partNodes i)
      (some [passedRoots[i]]) plainOptions = .ok c := by
    intro i
    match i with
    | ⟨0, _⟩ | ⟨1, _⟩ | ⟨2, _⟩ => exact ⟨_, rfl⟩
  choose cs hcs using hcs
  refine ⟨⟨c.net, c.store, none⟩, fun i => ⟨(cs i).net, (cs i).store, none⟩, ⟨acyclic_passedGraph,
    by decide, by decide, ⟨c, ?_, rfl, ?_⟩, fun i => ⟨cs i, ?_, rfl, ?_⟩, fun i => ?_⟩, ?_,
      fun i => ?_⟩
  -- The nets are computed from the listed orders, not by walking the graph.
  · rw [compileRoots_eq (by decide), buildOrder_passedRoots]
    exact hc
  · cases hc
    rfl
  · rw [compileRoots_eq (by simp), buildOrder_part]
    exact hcs i
  · have hci := hcs i
    generalize cs i = ci at hci ⊢
    match i with
    | ⟨0, _⟩ | ⟨1, _⟩ | ⟨2, _⟩ =>
      cases hci
      rfl
  · intro j k m hj hk hleaf
    rw [buildOrder_passedRoots] at hj
    rw [buildOrder_part] at hk
    -- The only leaf is the parameter.
    obtain rfl : j = 0 := by
      rcases j with _ | _ | _ | _ | j <;> cases hj <;> first | rfl | cases hleaf
    cases hj
    obtain rfl : k = 0 := by
      match i with
      | ⟨0, _⟩ | ⟨1, _⟩ | ⟨2, _⟩ => rcases k with _ | _ | _ | k <;> first | rfl | cases hk
    have hci := hcs i
    generalize cs i = ci at hci ⊢
    match i with
    | ⟨0, _⟩ | ⟨1, _⟩ | ⟨2, _⟩ =>
      cases hc
      cases hci
      rfl
  · unfold WholeCompletes
    cases hc
    decide +kernel
  · change PartCompletes i ⟨(cs i).net, (cs i).store, none⟩
    unfold PartCompletes
    have hci := hcs i
    generalize cs i = ci at hci ⊢
    match i with
    | ⟨0, _⟩ | ⟨1, _⟩ | ⟨2, _⟩ =>
      cases hci
      decide +kernel +revert

/-- What nets that complete leave. -/
theorem rootRuns_of_completes {n : Net ℚ} {ns : Fin passedRoots.length → Net ℚ}
    (hn : WholeCompletes n) (hns : ∀ i, PartCompletes i (ns i)) :
    RootRuns builtinCalls passedGraph "" passedRoots n ns false fourSeeds partSeeds
      (n.reading builtinCalls (buildOrder passedGraph "" passedRoots) ⟨fourSeeds, false⟩ false)
      fun i => (ns i).reading builtinCalls (buildOrder passedGraph "" [passedRoots[i]])
        ⟨partSeeds i, false⟩ false where
  whole := hn.1
  parts i := (hns i).1
  reading := rfl
  readings _ := rfl
  split := by
    refine ⟨_, partGrids, rfl, ⟨by decide +kernel, by decide +kernel⟩, fun i => ⟨?_, ?_⟩⟩
    · match i with
      | ⟨0, _⟩ | ⟨1, _⟩ | ⟨2, _⟩ => rfl
    · have hshape := (hns i).2.1
      rw [buildOrder_part]
      cases hs : (((ns i).reading builtinCalls (partNodes i) ⟨partSeeds i, false⟩ false).value
        passedRoots[i].id).shape with
      | error f =>
        rw [hs] at hshape
        cases hshape
      | ok s =>
        rw [hs] at hshape
        cases hshape
        rfl
  reals := by
    rw [buildOrder_passedRoots]
    refine addsReals_of_updatesReal hn.2 fun m hm => ?_
    rcases List.mem_append.mp hm with hm | hm
    · exact .inl hm
    · rw [List.mem_singleton.mp hm]
      exact .inr fun a ha => by cases ha; rfl
  realParts i := by
    rw [buildOrder_part]
    refine (hns i).2.2.elim (fun hi => ?_) fun h => addsReals_of_updatesReal h fun m hm => .inl ?_
    · intro m hm a hrole
      unfold partNodes at hm
      rw [if_pos hi] at hm
      cases List.mem_singleton.mp hm
      cases hrole
    · unfold partNodes at hm
      split at hm
      · exact List.mem_of_mem_take hm
      · exact hm
  -- Only the indexing layer makes sparse updates, and its index is a constant.
  third := by
    rw [buildOrder_passedRoots]
    intro m hm a hrole hscatter
    rcases List.mem_append.mp hm with hm | hm
    · rcases layer_passedElement hm hrole with ⟨-, rfl⟩ | ⟨-, rfl⟩
      · decide
      · cases hscatter
    · cases List.mem_singleton.mp hm
      cases hrole
      cases hscatter
  -- The layer that passes its operand on is additive, and the joining one is excepted.
  additive := by
    intro m hm hid a hrole hscatter
    rw [buildOrder_passedRoots] at hm
    rcases List.mem_append.mp hm with hm | hm
    · rcases layer_passedElement hm hrole with ⟨-, rfl⟩ | ⟨-, rfl⟩
      · cases hscatter
      · exact additiveOn_passing _ _ _ _
    · rw [List.mem_singleton.mp hm] at hid
      exact absurd hid (by decide)

theorem joint_net_sums_passed_element :
    ∃ (n : Net ℚ) (ns : Fin passedRoots.length → Net ℚ),
    RootNets [] passedGraph "" passedRoots plainOptions n ns ∧
      (∀ o w, ((n.run builtinCalls .forward o false).error = none ∧
          (n.run builtinCalls .forward o false).state.rootValue = .ok w) ↔
        ∃ ws : Fin passedRoots.length → Value ℚ,
          (∀ i, ((ns i).run builtinCalls .forward o false).error = none ∧
            ((ns i).run builtinCalls .forward o false).state.rootValue = .ok (ws i)) ∧
          Value.Concatenates (List.ofFn ws) w) ∧
      ∃ (V : Reading ℚ) (v : Fin passedRoots.length → Reading ℚ),
        RootRuns builtinCalls passedGraph "" passedRoots n ns false fourSeeds partSeeds V v ∧
        Value.IsTotal (List.ofFn fun i => (v i).der 0) (V.der 0) := by
  obtain ⟨n, ns, hnets, hn, hns⟩ := exists_passedNets
  have hruns := rootRuns_of_completes hn hns
  refine ⟨n, ns, hnets, (joint_net_sums hnets runsBuiltins_builtinCalls false).1, _, _, hruns, ?_⟩
  have htotal := (joint_net_sums hnets runsBuiltins_builtinCalls false).2 _ _ _ _ hruns
    ⟨0, bareLabel, .param ⟨pair 1 2, .none, .none, .gradient⟩⟩
    (by rw [buildOrder_passedRoots]; exact List.mem_cons_self ..) (by decide)
  have hsharers : sharers partNodes 0 = List.finRange passedRoots.length := by decide
  unfold derivativesOf at htotal
  rw [funext buildOrder_part, hsharers] at htotal
  rwa [List.ofFn_eq_map]

end SlotGrad
