import SlotGrad.Proofs.ForwardPass

/-!
# Nets as they are assembled

The forward and the backward stream of a compiled net are written down by its layers.  So is the
stream of inference mode: there a layer is the forward instruction of another application, the one
that its inference settings describe, at the same place.  The parameters of the net are those of the
list, with their value slots.

## Main definitions

* `Application.inference`, `Placed.inference` — a layer as it runs in inference mode.

## Main results

* `testInstruction_eq_ok` — the instruction of a layer in inference mode.
* `assemble_test`, `mem_paramVars` — the stream of inference mode and the parameters of a net.
* `mem_keptSlots` — the derivatives that an accumulating evaluation keeps.
* `compileNodes_assembled` — a compiled net is an assembled one.
* `Streams.inference` — in inference mode, too, layers read smaller places.
-/

namespace SlotGrad

variable {F : Type}

/-! ### Layers in inference mode -/

/-- A layer's application as it runs in inference mode. -/
def Application.inference (a : Application F) : Application F :=
  match a.testOp with
  | .same => { a with args := (testArguments a).1, kwargs := (testArguments a).2 }
  | .passThrough =>
    { a with op := Builtin.deal.op, args := (testArguments a).1.take 1, kwargs := [] }
  | .other op => { a with op := op, args := (testArguments a).1, kwargs := (testArguments a).2 }

/-- A layer at its place as it runs in inference mode. -/
def Placed.inference (p : Placed F) : Placed F := { p with layer := p.layer.inference }

@[simp] theorem Placed.place_inference (p : Placed F) : p.inference.place = p.place := rfl

/-- In inference mode a layer runs the forward instruction of its inference application. -/
theorem testInstruction_eq_ok {slotOf : Handle → Option Nat} {p : Placed F} {i : Instruction F} :
    testInstruction slotOf p = .ok i ↔
      (∀ h, Value.node h ∈ p.inference.layer.args → (slotOf h).isSome) ∧
        i = forwardOf slotOf p.inference := by
  unfold testInstruction Placed.inference Application.inference
  dsimp only
  cases p.layer.testOp <;> exact callInstruction_eq_ok

/-- The nodes that a layer reads in inference mode are among those it depends on. -/
theorem mem_deps_of_inference {n : Node F} {a : Application F} (hrole : n.role = .layer a)
    {h : Handle} (hh : Value.node h ∈ a.inference.args) : h ∈ n.deps := by
  have harguments : Value.node h ∈ (testArguments a).1 := by
    unfold Application.inference at hh
    cases htest : a.testOp with
    | same => simpa [htest] using hh
    | passThrough =>
      rw [htest] at hh
      exact List.mem_of_mem_take hh
    | other op => simpa [htest] using hh
  unfold testArguments at harguments
  cases htest : a.testArgs with
  | same =>
    rw [htest] at harguments
    exact mem_deps_of_arg hrole harguments
  | other args =>
    rw [htest] at harguments
    have hmem : h ∈ Node.handles args := List.mem_filterMap.mpr ⟨_, harguments, rfl⟩
    simp [Node.deps, hrole, htest, hmem]

/-! ### Assembly -/

section

variable {nodes : List (Node F)} {layers : List (Placed F)} {net : CompiledNet F}

/-- A node at a place that is no layer's is an input or a parameter. -/
theorem Streams.leaf_of_ne (h : Streams nodes layers net) {k : Nat} {n : Node F}
    (hn : nodes[k]? = some n) (hk : ∀ p ∈ layers, p.place ≠ k) : n.application? = none := by
  cases hrole : n.application? with
  | none => rfl
  | some a =>
    have hlayer : (k, a) ∈ layersOf nodes :=
      SlotGrad.mem_layersOf.mpr ⟨n, hn, application?_eq_some.mp hrole⟩
    rw [← h.places] at hlayer
    obtain ⟨p, hp, hpk⟩ := List.mem_map.mp hlayer
    exact absurd (Prod.mk.inj hpk).1 (hk p hp)

/-- No layer is at the place of an input or a parameter. -/
theorem Streams.ne_of_leaf (h : Streams nodes layers net) {k : Nat} {n : Node F}
    (hn : nodes[k]? = some n) (hrole : n.application? = none) {p : Placed F} (hp : p ∈ layers) :
    p.place ≠ k := by
  rintro rfl
  obtain ⟨m, hm, hlayer⟩ := SlotGrad.mem_layersOf.mp (h.mem_layersOf hp)
  rw [hn] at hm
  cases hm
  rw [application?_eq_some.mpr hlayer] at hrole
  cases hrole

/-- In inference mode, too, the layers of a list in dependency order read smaller places. -/
theorem Streams.inference (h : Streams nodes layers net) (ho : Ordered nodes) :
    WellPlaced (slotIn nodes) (2 * nodes.length) (layers.map Placed.inference) := by
  have hw := h.wellPlaced ho
  refine ⟨List.pairwise_map.mpr hw.increasing, ?_, hw.slots, ?_⟩
  · intro q hq
    obtain ⟨p, hp, rfl⟩ := List.mem_map.mp hq
    exact hw.inStore p hp
  · intro q hq d hd
    obtain ⟨p, hp, rfl⟩ := List.mem_map.mp hq
    obtain ⟨n, hn, hrole⟩ := SlotGrad.mem_layersOf.mp (h.mem_layersOf hp)
    obtain ⟨j, hj, m, hm, hid⟩ := ho.earlier p.place n hn d (mem_deps_of_inference hrole hd)
    exact ⟨j, hj, slotIn_eq_some.mpr
      ⟨j, (position?_eq_some_iff ho.distinct).mpr ⟨m, hm, hid⟩, rfl⟩⟩

variable {known : Node F → Bool} {names : List String} {roots : List Handle} {options : Options F}

/-- The stream of inference mode has the order of the nodes. -/
theorem assemble_test (h : assemble known nodes names roots options = .ok net) :
    net.test
      = ((placedLayers nodes names).map Placed.inference).map (forwardOf (slotIn nodes)) := by
  unfold assemble at h
  obtain ⟨forward, -, h⟩ := bind_eq_ok.mp h
  obtain ⟨backward, -, h⟩ := bind_eq_ok.mp h
  obtain ⟨test, htest, h⟩ := bind_eq_ok.mp h
  rw [← pure_eq_ok.mp h, List.map_map]
  exact ((mapM_eq_ok_of_iff fun _ _ => testInstruction_eq_ok).mp htest).2

/-- The parameters of a net are those of the list. -/
theorem assemble_params (h : assemble known nodes names roots options = .ok net) :
    net.params = (paramSlots nodes names).map Prod.fst := by
  unfold assemble at h
  obtain ⟨forward, -, h⟩ := bind_eq_ok.mp h
  obtain ⟨backward, -, h⟩ := bind_eq_ok.mp h
  obtain ⟨test, -, h⟩ := bind_eq_ok.mp h
  rw [← pure_eq_ok.mp h]

/-- The parameter entries of a net have the value slots of the parameters. -/
theorem mem_paramVars (hlen : names.length = nodes.length)
    (h : assemble known nodes names roots options = .ok net) {var : Int} :
    var ∈ net.paramVars ↔
      ∃ k, (nodes[k]?).map Node.kind = some .param ∧ var = ((valueSlot k : Nat) : Int) := by
  unfold CompiledNet.paramVars
  rw [assemble_params h, List.map_map, List.mem_map]
  constructor
  · rintro ⟨e, hmem, rfl⟩
    obtain ⟨⟨⟨n, name⟩, k⟩, hplace, hn⟩ := List.mem_filterMap.mp hmem
    obtain ⟨hnode, -⟩ := List.getElem?_zip_eq_some.mp (List.mem_zipIdx_iff_getElem?.mp hplace)
    refine ⟨k, ?_⟩
    dsimp only at hn
    rw [hnode, Option.map_some]
    unfold Node.kind
    cases hrole : n.role with
    | param p =>
      rw [hrole] at hn
      cases hn
      exact ⟨rfl, rfl⟩
    | input => simp [hrole] at hn
    | layer a => simp [hrole] at hn
  · rintro ⟨k, hkind, rfl⟩
    obtain ⟨n, hn, hkind⟩ := Option.map_eq_some_iff.mp hkind
    have hlt : k < names.length := by
      rw [hlen]
      exact (List.getElem?_eq_some_iff.mp hn).1
    have hplace : ((n, names[k]), k) ∈ (nodes.zip names).zipIdx :=
      List.mem_zipIdx_iff_getElem?.mpr
        (List.getElem?_zip_eq_some.mpr ⟨hn, List.getElem?_eq_getElem hlt⟩)
    obtain ⟨p, hrole⟩ := Node.kind_eq_param_iff.mp hkind
    refine ⟨(⟨(valueSlot k : Nat), names[k], p.weightDecay, p.learningRate, n.label.source,
      p.trainMethod.name⟩, p.value), List.mem_filterMap.mpr ⟨_, hplace, ?_⟩, rfl⟩
    dsimp only
    rw [hrole]

/-- The derivative slots that a reset leaves alone are those of the parameters, and only if
derivatives are to be added to those already there. -/
theorem mem_keptSlots (hlen : names.length = nodes.length)
    (h : assemble known nodes names roots options = .ok net) {o : EvalOptions F} {slot : Int} :
    slot ∈ keptSlots net o ↔ o.accumulate = true ∧
      ∃ k, (nodes[k]?).map Node.kind = some .param ∧ slot = ((valueSlot k + 1 : Nat) : Int) := by
  unfold keptSlots
  cases o.accumulate with
  | false => simp
  | true =>
    rw [if_pos rfl, List.mem_map]
    constructor
    · rintro ⟨var, hvar, rfl⟩
      obtain ⟨k, hkind, rfl⟩ := (mem_paramVars hlen h).mp hvar
      exact ⟨rfl, k, hkind, rfl⟩
    · rintro ⟨-, k, hkind, rfl⟩
      exact ⟨_, (mem_paramVars hlen h).mpr ⟨k, hkind, rfl⟩, rfl⟩

/-- A compiled net is assembled from the list under some names. -/
theorem compileNodes_assembled [Arith F] [Interchange F] {checks : Checks F}
    {roots : Option (List Handle)} {c : Compilation F}
    (h : compileNodes checks known nodes roots options = .ok c) :
    nodes ≠ [] ∧ ∃ names heads, names.length = nodes.length ∧
      assemble known nodes names heads options = .ok c.net := by
  obtain ⟨last, t, names, early, late, -, -, hnames, -, hnet, -⟩ := compileNodes_eq_ok h
  exact ⟨ne_nil_of_compileNodes h, names, _, length_assignNames hnames, hnet⟩

end

end SlotGrad
