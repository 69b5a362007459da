import SlotGrad.Proofs.DependencyOrder
import SlotGrad.Proofs.Gradient

/-!
# The gradient of an evaluation

An evaluation in normal mode leaves the gradient of the seeded root in the derivative slots of the
inputs and parameters: against any tangents of these it counts what the seed counts against the
tangent of the root, which a forward run over dual numbers computes.

## Main definitions

* `leafPlaces` — the places of inputs and parameters.
* `Tangents` — a store of dual numbers that gives tangents to the inputs and parameters.

## Main results

* `evaluate_counted` — evaluations of lists in dependency order.
-/

namespace SlotGrad

/-- The places of the inputs and parameters of a list. -/
def leafPlaces {F : Type} (nodes : List (Node F)) : Finset Nat :=
  (Finset.range nodes.length).filter fun k => (nodes[k]?).map Node.kind ≠ some .layer

theorem mem_leafPlaces {F : Type} {nodes : List (Node F)} {k : Nat} :
    k ∈ leafPlaces nodes ↔ k < nodes.length ∧ ∀ a, (k, a) ∉ layersOf nodes := by
  unfold leafPlaces
  rw [Finset.mem_filter, Finset.mem_range]
  refine and_congr_right fun hk => ?_
  rw [List.getElem?_eq_getElem hk, Option.map_some]
  rw [ne_eq, Option.some.injEq, Node.kind_eq_layer_iff]
  constructor
  · intro hne a hL
    obtain ⟨n, hn, hrole⟩ := mem_layersOf.mp hL
    rw [List.getElem?_eq_getElem hk] at hn
    cases hn
    exact hne ⟨a, hrole⟩
  · rintro hnone ⟨a, ha⟩
    exact hnone a (mem_layersOf.mpr ⟨_, List.getElem?_eq_getElem hk, ha⟩)

/-- The other places are those of layers. -/
theorem range_sdiff_layers {F : Type} {nodes : List (Node F)} {layers : List (Placed F)}
    (h : layers.map (fun p => (p.place, p.layer)) = layersOf nodes) :
    Finset.range nodes.length \ (layers.map Placed.place).toFinset = leafPlaces nodes := by
  ext k
  rw [Finset.mem_sdiff, Finset.mem_range, mem_leafPlaces, List.mem_toFinset, ← h]
  refine and_congr_right fun _ => ?_
  constructor
  · intro hnone a hL
    obtain ⟨p, hp, heq⟩ := List.mem_map.mp hL
    cases heq
    exact hnone (List.mem_map_of_mem hp)
  · intro hnone hmem
    obtain ⟨p, hp, rfl⟩ := List.mem_map.mp hmem
    exact hnone p.layer (List.mem_map.mpr ⟨p, hp, rfl⟩)

variable {K : Type} [Field K] [Arith K]

/-- A store of dual numbers that gives tangents to the real values of inputs and parameters. -/
structure Tangents (nodes : List (Node K)) (s : Store (Dual K)) (r : Store K) : Prop where
  /-- The stores have one size. -/
  size : s.size = r.size
  /-- The values of inputs and parameters are given tangents. -/
  lifts : ∀ k ∈ leafPlaces nodes, (s.content (valueSlot k)).Lifts (r.content (valueSlot k))

section

variable [ExactArith K] {slotOf : Handle → Option Nat} {pairs : Nat} {layers : List (Placed K)}
  {call : Calls K} {call' : Calls (Dual K)} {t : Store K}

/-- The forward stream over dual numbers completes, its values lift those of the forward pass, and
every layer's dual value is what its op answers. -/
theorem runForward_lifts (hcall : RunsBuiltins call) (hcall' : RunsBuiltins call')
    (hw : WellPlaced slotOf (2 * pairs) layers) (hplaces : ∀ p ∈ layers, p.place < pairs)
    (hcalls : ∀ p ∈ layers, layerCall call slotOf t p.layer = .ok (t.content (valueSlot p.place)))
    (hlayers : ∀ p ∈ layers, ∃ b, p.layer.Differentiable b ∧
      SuitableShapes b ⟨p.layer.args.map (t.argument slotOf), p.layer.kwargs⟩)
    {r : RunState (Dual K)} (hsize : r.store.size = 2 * pairs)
    (hlifts : ∀ j, j < pairs → (∀ p ∈ layers, j ≠ p.place) →
      (r.store.content (valueSlot j)).Lifts (t.content (valueSlot j)))
        {q : Outcome (RunState (Dual K))}
    (hq : runForward call' .forward
      ((layers.map (forwardOf slotOf)).map (Instruction.map Dual.embed)) r = q) :
    q.error = none ∧
      (∀ j, j < pairs →
        (q.state.store.content (valueSlot j)).Lifts (t.content (valueSlot j))) ∧
      (∀ j, j < pairs → (∀ p ∈ layers, j ≠ p.place) →
        q.state.store.content (valueSlot j) = r.store.content (valueSlot j)) ∧
      ∀ p ∈ layers, ∃ b, LayerRun slotOf pairs q.state.store t b p := by
  have hstream : (layers.map (forwardOf slotOf)).map (Instruction.map Dual.embed)
      = (layers.map (Placed.map Dual.embed)).map (forwardOf slotOf) := by
    rw [List.map_map, List.map_map]
    exact List.map_congr_left fun p _ => (forwardOf_map Dual.embed p).symm
  rw [hstream] at hq
  subst hq
  -- The stream over dual numbers is that of the layers with embedded constants.
  have hrel : List.Forall₂ (fun q p => q.1 = forwardOf slotOf (p.map Dual.embed))
      ((layers.map (Placed.map Dual.embed)).map (forwardOf slotOf)).zipIdx layers := by
    rw [List.map_map]
    exact forall₂_zipIdx_map (forwardOf slotOf ∘ Placed.map Dual.embed) layers 0
  obtain ⟨hdone, hall⟩ := runAll_forwardStep_lifts hcall hcall' .forward hrel hw hcalls hlayers
    hsize hlifts
  obtain ⟨-, hanswers, hother⟩ := runForward_computes (hsize ▸ hw.map Dual.embed)
    (show (runForward call' .forward _ r).error = none from hdone) rfl
  refine ⟨hdone, hall, fun j hj hnone => hother _ fun p' hp' => ?_, fun p hp => ?_⟩
  · obtain ⟨p, hp, rfl⟩ := List.mem_map.mp hp'
    exact mt valueSlot_inj.mp (hnone p hp)
  · obtain ⟨b, hb, hshapes⟩ := hlayers p hp
    refine ⟨b, hb, hplaces p hp, hw.slots, hw.earlier p hp, fun h hh => ?_, hshapes, ?_⟩
    · obtain ⟨j, hj, hslot⟩ := hw.earlier p hp h hh
      exact ⟨_, hslot, hall j (Nat.lt_trans hj (hplaces p hp))⟩
    · have hanswer := hanswers _ (List.mem_map_of_mem hp)
      unfold layerCall at hanswer
      change call' p.layer.op.forward (Builtin.dualArguments _ p.layer.kwargs) = _ at hanswer
      rw [hb.op, hcall'.forward, lift_eq_ok] at hanswer
      exact hanswer

/-- What a reset leaves in a derivative slot counts nothing. -/
theorem zero_isCotangent {x : Value (Dual K)} {g : Grid (Dual K)} (hx : x.numbers? = some g) :
    (Store.zero : Value K).IsCotangent x ∧ (Store.zero : Value K).pairing x = 0 := by
  have hzero : (Store.zero : Value K).reals? = some (.single (Arith.ofInt 0)) := rfl
  have hfirst : (Grid.single (Arith.ofInt 0) : Grid K).first = 0 :=
    (ExactArith.ofInt_eq 0).trans Int.cast_zero
  refine ⟨⟨_, g, hzero, hx, .inr ⟨rfl, hfirst⟩⟩, ?_⟩
  rw [Value.pairing_eq hzero hx]
  exact Grid.pairing_eq_zero (Grid.spread_eq_zero rfl hfirst) g

end

/-- An evaluation in normal mode that does not accumulate leaves the gradient of the seeded root in
the derivative slots of the inputs and parameters. -/
theorem evaluate_counted [ExactArith K] [CharZero K] [Interchange K] {checks : Checks K}
    {known : Node K → Bool} {nodes : List (Node K)} {roots : Option (List Handle)}
    {options : Options K} {c : Compilation K}
    (hc : compileNodes checks known nodes roots options = .ok c) (ho : Ordered nodes)
    {call : Calls K} {call' : Calls (Dual K)} (hcall : RunsBuiltins call)
    (hcall' : RunsBuiltins call') {o : EvalOptions K} (hacc : o.accumulate = false)
    {r : RunState K} (hdone : (evaluate call c.net .normal o r).error = none) {f : Store K}
    (hf : (runForward call .forward c.net.forward r).state.store = f)
    (hlayers : ∀ k a, (k, a) ∈ layersOf nodes → ∃ b, a.Differentiable b ∧
      SuitableShapes b ⟨a.args.map (f.argument (slotIn nodes)), a.kwargs⟩)
    (hseed : ∃ d g, o.seed.reals? = some d ∧
      (f.content (valueSlot (nodes.length - 1))).reals? = some g ∧ d.shape = g.shape)
    {s : Store (Dual K)} (hs : Tangents nodes s r.store) {t : Store K}
    (ht : (evaluate call c.net .normal o r).state.store = t) {q : Outcome (RunState (Dual K))}
    (hq : runForward call' .forward (c.net.forward.map (Instruction.map Dual.embed))
      ⟨s, [], none⟩ = q) :
    q.error = none ∧
      (∀ k, k < nodes.length →
        (q.state.store.content (valueSlot k)).Lifts (f.content (valueSlot k))) ∧
      (∀ k ∈ leafPlaces nodes,
        (t.content (valueSlot k + 1)).IsCotangent (s.content (valueSlot k))) ∧
      ∑ k ∈ leafPlaces nodes, (t.content (valueSlot k + 1)).pairing (s.content (valueSlot k))
        = o.seed.pairing (q.state.store.content (valueSlot (nodes.length - 1))) := by
  obtain ⟨hne, layers, hstreams⟩ := compileNodes_streams hc
  have hw := hstreams.wellPlaced ho
  unfold evaluate at hdone ht
  cases hcheck : checkRequest c.net .normal o r.store with
  | error e =>
    rw [hcheck] at hdone
    cases hdone
  | ok u =>
    rw [hcheck] at hdone ht
    dsimp only at hdone ht
    have hsize : r.store.size = 2 * nodes.length := by
      have := (checkRequest_accepts hcheck).2
      have := hstreams.numVars
      omega
    obtain ⟨hseeded, hback⟩ := Outcome.andThen_completed.mp hdone
    rw [Outcome.andThen_state _ hseeded] at ht
    obtain ⟨hforward, hseeding⟩ := Outcome.andThen_completed.mp hseeded
    rw [Outcome.andThen_state _ hforward] at ht hback
    rw [hstreams.forward] at ht hback hforward hseeding hf hq
    obtain ⟨hfsize, hcalls, hkept⟩ := runForward_computes (hsize ▸ hw) hforward hf
    have hlayers' : ∀ p ∈ layers, ∃ b, p.layer.Differentiable b ∧
        SuitableShapes b ⟨p.layer.args.map (f.argument (slotIn nodes)), p.layer.kwargs⟩ :=
      fun p hp => hlayers _ _ (hstreams.mem_layersOf hp)
    have hleaf : ∀ k, k ∈ leafPlaces nodes ↔ k < nodes.length ∧ ∀ p ∈ layers, k ≠ p.place := by
      intro k
      rw [← range_sdiff_layers hstreams.places, Finset.mem_sdiff, Finset.mem_range,
        List.mem_toFinset, List.mem_map]
      exact and_congr_right fun _ => ⟨fun h p hp he => h ⟨p, hp, he.symm⟩,
        fun h ⟨p, hp, he⟩ => h p hp he.symm⟩
    -- The dual run follows the real one: it completes, and its values have those of the real
    -- run as their real parts.
    obtain ⟨hdual, hlifts, hleaves, hruns⟩ := runForward_lifts hcall hcall' hw
      (fun p hp => hstreams.place_lt hp) hcalls hlayers' (r := ⟨s, [], none⟩) (hs.size.trans hsize)
      (fun j hj hnone => by
        have hkeep : f.content (valueSlot j) = r.store.content (valueSlot j) := by
          refine hkept _ fun p hp => ?_
          exact mt valueSlot_inj.mp (hnone p hp)
        rw [hkeep]
        exact hs.lifts j ((hleaf j).mpr ⟨hj, hnone⟩)) hq
    obtain ⟨hssize, hvalues, hders⟩ := seedDers_completed hacc
      ((congrArg Store.size hf).trans (hfsize.trans hsize)) hseeding
    rw [hf] at hvalues
    have hpos : 0 < nodes.length := List.length_pos_iff.mpr hne
    set x := q.state.store with hx
    -- The seed stands in the last derivative slot, and zero in every other one.
    have hinitial : ∀ j, j < nodes.length → (if j + 1 = nodes.length then o.seed
        else Store.zero).IsCotangent (x.content (valueSlot j)) ∧
        (if j + 1 = nodes.length then o.seed else Store.zero).pairing (x.content (valueSlot j))
          = if j = nodes.length - 1
            then o.seed.pairing (x.content (valueSlot (nodes.length - 1))) else 0 := by
      intro j hj
      obtain ⟨hre, g, hg⟩ := hlifts j hj
      by_cases hlast : j + 1 = nodes.length
      · have hj' : j = nodes.length - 1 := by omega
        rw [if_pos hlast, if_pos hj', hj']
        refine ⟨?_, rfl⟩
        obtain ⟨d, e, hd, he, hshape⟩ := hseed
        rw [← hj', ← hre] at he
        rw [Value.reals?_map, hg] at he
        cases he
        rw [← hj']
        exact Value.isCotangent_of_shape_eq hd (Value.numbers?_of_reals? hg) hshape
      · rw [if_neg hlast, if_neg (by omega)]
        exact zero_isCotangent (Value.numbers?_of_reals? hg)
    rw [hstreams.backward] at ht hback
    -- Every backward instruction moves the sum of pairings from its own slot to its operands',
    -- so at the end only leaves are left.
    obtain ⟨hfinal, hcounted⟩ := runAll_backwardStep_counted hcall (s := x) (t := f)
      (forall₂_zipIdx_map (backwardOf (slotIn nodes)) layers.reverse 0)
      (fun p hp => hruns p (List.mem_reverse.mp hp)) (List.pairwise_reverse.mpr hw.increasing)
      (r := { (seedDers c.net o (runForward call .forward
        (layers.map (forwardOf (slotIn nodes))) r).state).state with owned := [] })
      (R := Finset.range nodes.length) hssize hvalues
      (fun j hj => by rw [hders j hj]; exact (hinitial j hj).1)
      (fun j hj => Finset.mem_range.mp hj) (fun p hp j hj => Finset.mem_range.mpr
        (Nat.lt_of_le_of_lt hj (hstreams.place_lt (List.mem_reverse.mp hp)))) hback
    rw [List.map_reverse (f := Placed.place), List.toFinset_reverse,
      range_sdiff_layers hstreams.places] at hcounted
    have hsame : ∀ k ∈ leafPlaces nodes, x.content (valueSlot k) = s.content (valueSlot k) :=
      fun k hk => hleaves k ((hleaf k).mp hk).1 ((hleaf k).mp hk).2
    refine ⟨hdual, hlifts, fun k hk => ?_, ?_⟩
    · rw [← hsame k hk, ← ht]
      exact hfinal k ((hleaf k).mp hk).1
    · have hleafsum : ∑ k ∈ leafPlaces nodes,
          (t.content (valueSlot k + 1)).pairing (s.content (valueSlot k))
            = counted x t (leafPlaces nodes) :=
        Finset.sum_congr rfl fun k hk => by rw [hsame k hk]
      have hseedsum : counted x (seedDers c.net o (runForward call .forward
          (layers.map (forwardOf (slotIn nodes))) r).state).state.store (Finset.range nodes.length)
            = ∑ j ∈ Finset.range nodes.length, if j = nodes.length - 1
              then o.seed.pairing (x.content (valueSlot (nodes.length - 1))) else 0 :=
        Finset.sum_congr rfl fun j hj => by
          rw [hders j (Finset.mem_range.mp hj), (hinitial j (Finset.mem_range.mp hj)).2]
      rw [hleafsum, ← ht]
      refine hcounted.trans (hseedsum.trans ?_)
      rw [Finset.sum_ite_eq' (Finset.range nodes.length) (nodes.length - 1),
        if_pos (Finset.mem_range.mpr (by omega))]

/-! ### Graphs -/

omit [Field K] in
/-- A net of one root is compiled from the nodes under the root in dependency order. -/
theorem compileRoots_single [Interchange K] {checks : Checks K} {g : Graph K} {source : String}
    {h : Handle} {options : Options K} {c : Compilation K}
    (hc : compileRoots checks g source [.node h] options = .ok c) :
    compileNodes checks (fun n => n.id < g.size) (g.orderFrom [h]) (some [h]) options = .ok c := by
  unfold compileRoots at hc
  exact hc

omit [Field K] in
/-- The root of a compiled graph has the last slots. -/
theorem slotIn_root [Interchange K] {checks : Checks K} {g : Graph K} (hg : g.Acyclic)
    {source : String} {h : Handle} {options : Options K} {c : Compilation K}
    (hc : compileRoots checks g source [.node h] options = .ok c) :
    slotIn (g.orderFrom [h]) h = some (valueSlot ((g.orderFrom [h]).length - 1)) := by
  have hne := (compileNodes_streams (compileRoots_single hc)).1
  have hh : h.id < g.size := by
    by_contra hge
    have hnone : h.id ∉ List.range g.size := fun hmem => hge (List.mem_range.mp hmem)
    refine hne ?_
    unfold Graph.orderFrom Graph.orderIds
    rw [List.map_cons, List.map_nil, List.foldl_cons, List.foldl_nil, Graph.walkFrom,
      if_neg hnone]
    rfl
  obtain ⟨n, hn, hid⟩ := Option.map_eq_some_iff.mp (Graph.getLast?_orderFrom hg hh)
  rw [List.getLast?_eq_getElem?] at hn
  rw [slotIn_eq_some]
  exact ⟨_, (position?_eq_some_iff (Graph.ordered_orderFrom hg [h]).distinct).mpr ⟨n, hn, hid⟩, rfl⟩

/-- **Reverse mode computes the exact gradient.**  A net is compiled from an acyclic graph whose
layers are differentiable, and an evaluation in normal mode that does not accumulate completes, with
a seed of the shape of the root's value.  Then for all tangents of the inputs and parameters the
forward stream completes over dual numbers, the derivative slot of every input and parameter holds
a derivative of its value, and the derivatives count against the tangents what the seed counts
against the tangent of the root. -/
theorem gradient_exact [ExactArith K] [CharZero K] [Interchange K] {g : Graph K} (hg : g.Acyclic)
    {checks : Checks K} {source : String} {h : Handle} {options : Options K} {c : Compilation K}
    (hc : compileRoots checks g source [.node h] options = .ok c)
    {call : Calls K} {call' : Calls (Dual K)} (hcall : RunsBuiltins call)
    (hcall' : RunsBuiltins call') {o : EvalOptions K} (hacc : o.accumulate = false)
    {r : RunState K} (hdone : (evaluate call c.net .normal o r).error = none) {f : Store K}
    (hf : (runForward call .forward c.net.forward r).state.store = f)
    (hlayers : ∀ k a, (k, a) ∈ layersOf (g.orderFrom [h]) → ∃ b, a.Differentiable b ∧
      SuitableShapes b ⟨a.args.map (f.argument (slotIn (g.orderFrom [h]))), a.kwargs⟩)
    (hseed : ∃ d x, o.seed.reals? = some d ∧
      (f.argument (slotIn (g.orderFrom [h])) (.node h)).reals? = some x ∧ d.shape = x.shape)
    {s : Store (Dual K)} (hs : Tangents (g.orderFrom [h]) s r.store)
    {t : Store K} (ht : (evaluate call c.net .normal o r).state.store = t)
    {q : Outcome (RunState (Dual K))}
    (hq : runForward call' .forward (c.net.forward.map (Instruction.map Dual.embed))
      ⟨s, [], none⟩ = q) :
    q.error = none ∧
      (∀ k, k < (g.orderFrom [h]).length →
        (q.state.store.content (valueSlot k)).Lifts (f.content (valueSlot k))) ∧
      (∀ k ∈ leafPlaces (g.orderFrom [h]),
        (t.content (valueSlot k + 1)).IsCotangent (s.content (valueSlot k))) ∧
      ∑ k ∈ leafPlaces (g.orderFrom [h]),
          (t.content (valueSlot k + 1)).pairing (s.content (valueSlot k))
        = o.seed.pairing (q.state.store.argument (slotIn (g.orderFrom [h])) (.node h)) := by
  have hroot := slotIn_root hg hc
  rw [Store.argument_node, hroot] at hseed ⊢
  exact evaluate_counted (compileRoots_single hc) (Graph.ordered_orderFrom hg [h]) hcall hcall' hacc
    hdone hf hlayers hseed hs ht hq

/-- A parameter times itself, as a graph. -/
def squaredGraph : Graph ℚ := squaredParameter.toArray

/-- The product in that graph. -/
def squaredRoot : Handle := ⟨1, .layer, ""⟩

/-- The parameter with a tangent. -/
def squaredTangents : Store (Dual ℚ) := ⟨#[.real ⟨3, 1⟩, .none, .none, .none], rfl⟩

theorem orderFrom_squaredGraph : squaredGraph.orderFrom [squaredRoot] = squaredParameter := by
  simp [Graph.orderFrom, Graph.orderIds, Graph.walkFrom, Graph.walk, Graph.depsOf, squaredGraph,
    squaredParameter, squaredRoot, Node.deps, Node.handles, List.range_succ, Value.node?]

theorem gradient_exact_squared_parameter :
    ∃ c, compileRoots [] squaredGraph "" [.node squaredRoot] plainOptions = .ok c ∧
      ∑ k ∈ leafPlaces (squaredGraph.orderFrom [squaredRoot]),
          ((evaluate builtinCalls c.net .normal ⟨.real 1, false⟩
            ⟨c.store, [], none⟩).state.store.content (valueSlot k + 1)).pairing
              (squaredTangents.content (valueSlot k))
        = (Value.real 1).pairing ((runForward builtinCalls .forward
            (c.net.forward.map (Instruction.map Dual.embed))
            ⟨squaredTangents, [], none⟩).state.store.argument
              (slotIn (squaredGraph.orderFrom [squaredRoot])) (.node squaredRoot)) := by
  have hg : squaredGraph.Acyclic := by
    refine Graph.acyclic_of_built ?_ ?_
    · intro k n hn
      rcases k with _ | _ | k <;> cases hn <;> rfl
    · intro k n hn h hh
      rcases k with _ | _ | k <;> cases hn
      · cases hh
      · have hhandles : h ∈ [(⟨0, .param, ""⟩ : Handle), ⟨0, .param, ""⟩] := hh
        simp only [List.mem_cons, List.not_mem_nil, or_false, or_self] at hhandles
        rw [hhandles]
        exact Nat.zero_lt_one
  have hnodes := orderFrom_squaredGraph
  have hcompiled : compileRoots [] squaredGraph "" [.node squaredRoot] plainOptions
      = compileNodes [] (fun n => n.id < squaredGraph.size) squaredParameter (some [squaredRoot])
        plainOptions := by
    rw [← hnodes]
    rfl
  -- Only the net of the listed nodes is computed; a graph is walked by a recursion that does
  -- not unfold.
  obtain ⟨c, hc⟩ := exists_of_isOk
    (show (compileRoots [] squaredGraph "" [.node squaredRoot] plainOptions).isOk = true by
      rw [hcompiled]
      rfl)
  have hcn := hcompiled.symm.trans hc
  have hdone : (evaluate builtinCalls c.net .normal ⟨.real 1, false⟩
      ⟨c.store, [], none⟩).error = none := by
    cases hcn
    rfl
  have hroot : (((runForward builtinCalls .forward c.net.forward
      ⟨c.store, [], none⟩).state.store.argument (slotIn squaredParameter)
        (.node squaredRoot)).reals?).map Grid.shape = some [] := by
    cases hcn
    rfl
  have hstore : c.store.size = 4 ∧ c.store.content 0 = .real 3 := by
    cases hcn
    exact ⟨rfl, rfl⟩
  have hgradient := gradient_exact hg hc runsBuiltins_builtinCalls
    (runsBuiltins_builtinCalls : RunsBuiltins (builtinCalls : Calls (Dual ℚ)))
    (o := ⟨.real 1, false⟩) rfl hdone rfl ?_ ?_
    (s := squaredTangents) ?_ rfl rfl
  · exact ⟨c, hc, hgradient.2.2.2⟩
  · intro k a hL
    rw [hnodes] at hL
    have hmem : (k, a) ∈ [(1, (⟨Builtin.times.op, [.node ⟨0, .param, ""⟩, .node ⟨0, .param, ""⟩],
        [], .same, .same, [], none⟩ : Application ℚ))] := hL
    cases List.mem_singleton.mp hmem
    -- The one layer is a product of nodes, without settings.
    refine ⟨.times, ⟨rfl, rfl, rfl, ?_, ?_, ?_, ?_, ?_, ?_⟩, ?_, ?_⟩
    · intro k v hv _
      rcases k with _ | _ | k <;> cases hv <;> exact .inl rfl
    · intro k v _ hk
      cases hk
    · intro j k m n hj
      rcases j with _ | _ | j <;> cases hj
    · intro p hp
      cases hp
    · intro hb
      cases hb
    · intro hb
      cases hb
    · intro hb
      cases hb
    · intro hb
      cases hb
  · rw [hnodes]
    obtain ⟨x, hx, hshape⟩ := Option.map_eq_some_iff.mp hroot
    exact ⟨.single 1, x, rfl, hx, hshape.symm⟩
  · refine ⟨hstore.1.symm, ?_⟩
    intro k hk
    rw [hnodes, mem_leafPlaces] at hk
    obtain ⟨hlt, hnone⟩ := hk
    -- Of the two places the second is that of the layer.
    have hk : k = 0 ∨ k = 1 := by
      have hlt : k < 2 := hlt
      omega
    rcases hk with rfl | rfl
    · refine ⟨?_, ⟨_, rfl⟩⟩
      rw [show c.store.content (valueSlot 0) = .real 3 from hstore.2]
      rfl
    · exact absurd (List.mem_singleton.mpr rfl) (hnone _)

end SlotGrad
