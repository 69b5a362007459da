import SlotGrad.Proofs.Contributions
import SlotGrad.Proofs.LayerTransposes

/-!
# Forward runs over dual numbers

A forward stream runs over dual numbers as it is: its constants become dual numbers without a
tangent, and the inputs and parameters are given tangents.  If the layers are differentiable
built-in ops, then the run over dual numbers takes the course of the run over the values, and what
it leaves in a value slot is real and has the value of the other run.

## Main definitions

* `Instruction.map`, `Placed.map` — instructions and layers over another number system.
* `Application.Differentiable`, `SuitableShapes` — the layers that have an exact gradient.
* `Value.Lifts` — a real value with tangents.

## Main results

* `Application.Differentiable.realArguments` — what such a layer is called with.
* `runForward_lifts` — the forward run over dual numbers.
-/

namespace SlotGrad

variable {F G : Type}

/-! ### Streams over another number system -/

/-- A number of derivatives over another number system. -/
def Count.map (φ : F → G) : Count F → Count G
  | whole n => whole n
  | flag b => flag b
  | real x => real (φ x)

/-- An instruction over another number system. -/
def Instruction.map (φ : F → G) (i : Instruction F) : Instruction G :=
  ⟨i.op, i.kind, i.name, i.source, i.args.map (Value.map φ),
    i.kwargs.map fun p => (p.1, p.2.map φ), i.inputVars, i.inputArgPos, i.outputVar,
    i.derCount.map (Count.map φ)⟩

/-- The arguments in inference mode over another number system. -/
def TestArgs.map (φ : F → G) : TestArgs F → TestArgs G
  | same => same
  | other args => other (args.map (Value.map φ))

/-- An op applied to arguments over another number system. -/
def Application.map (φ : F → G) (a : Application F) : Application G :=
  ⟨a.op, a.args.map (Value.map φ), a.kwargs.map fun p => (p.1, p.2.map φ), a.testOp,
    a.testArgs.map φ, a.testKwargs.map fun p => (p.1, p.2.map φ), a.derCount.map (Count.map φ)⟩

/-- A layer over another number system. -/
def Placed.map (φ : F → G) (p : Placed F) : Placed G :=
  ⟨p.place, p.name, p.source, p.layer.map φ⟩

@[simp] theorem Value.node?_map (φ : F → G) (v : Value F) : (v.map φ).node? = v.node? := by
  cases v <;> rfl

@[simp] theorem Value.blank_map (φ : F → G) (v : Value F) :
    (v.map φ).blank = v.blank.map φ := by
  cases v <;> rfl

theorem Value.node_mem_map {φ : F → G} {vs : List (Value F)} {h : Handle} :
    node h ∈ vs.map (Value.map φ) ↔ node h ∈ vs := by
  rw [List.mem_map]
  constructor
  · rintro ⟨v, hv, hn⟩
    have hnode : v.node? = some h := by rw [← node?_map φ, hn]; rfl
    rwa [node?_eq_some.mp hnode] at hv
  · intro hn
    exact ⟨_, hn, rfl⟩

section

variable {slotOf : Handle → Option Nat}

@[simp] theorem operandSlots_map (φ : F → G) (k : Nat) (vs : List (Value F)) :
    operandSlots slotOf k (vs.map (Value.map φ)) = operandSlots slotOf k vs := by
  induction vs generalizing k with
  | nil => rfl
  | cons v vs ih => rw [List.map_cons, operandSlots, operandSlots, Value.node?_map, ih]

/-- The forward instruction of a layer over another number system. -/
theorem forwardOf_map (φ : F → G) (p : Placed F) :
    forwardOf slotOf (p.map φ) = (forwardOf slotOf p).map φ := by
  have hargs : ((p.map φ).layer.args).map Value.blank
      = (p.layer.args.map Value.blank).map (Value.map φ) := by
    unfold Placed.map Application.map
    dsimp only
    rw [List.map_map, List.map_map]
    exact List.map_congr_left fun v _ => Value.blank_map φ v
  have hslots : operandSlots slotOf 0 (p.map φ).layer.args = operandSlots slotOf 0 p.layer.args :=
    operandSlots_map φ 0 _
  unfold forwardOf
  rw [hargs, hslots]
  rfl

theorem WellPlaced.map (φ : F → G) {size : Nat} {layers : List (Placed F)}
    (h : WellPlaced slotOf size layers) :
    WellPlaced slotOf size (layers.map (Placed.map φ)) := by
  refine ⟨List.pairwise_map.mpr h.increasing, ?_, h.slots, ?_⟩
  · intro q hq
    obtain ⟨p, hp, rfl⟩ := List.mem_map.mp hq
    exact h.inStore p hp
  · intro q hq n hn
    obtain ⟨p, hp, rfl⟩ := List.mem_map.mp hq
    exact h.earlier p hp n (Value.node_mem_map.mp hn)

end

/-! ### Differentiable layers -/

/-- A layer of a differentiable op whose number of derivatives is inferred.  Operands are nodes or
real constants, one of them an integer at most in plain arithmetic; settings are constants. -/
structure Application.Differentiable (b : Builtin) (a : Application F) : Prop where
  /-- The op is a built-in one. -/
  op : a.op = b.op
  /-- The op has an exact adjoint. -/
  kind : b.isDifferentiable = true
  /-- The number of derivatives is inferred. -/
  count : a.derCount = none
  /-- An operand is a node or a constant number. -/
  operands : ∀ k v, a.args[k]? = some v → b.settingPlace? ≠ some k →
    v.node?.isSome ∨ v.reals?.isSome ∨ (b.isArithmetic ∧ ∃ n, v = .integer n)
  /-- A setting is no node. -/
  settings : ∀ k v, a.args[k]? = some v → b.settingPlace? = some k → v.node? = none
  /-- Integers do not meet each other. -/
  integers : ∀ (j k : Nat) (m n : Int), a.args[j]? = some (Value.integer m) →
    a.args[k]? = some (Value.integer n) → b.isArithmetic → j = k
  /-- An operand by name is a real constant. -/
  named : ∀ p ∈ a.kwargs, p.1 ∉ b.settingNames → p.2.reals?.isSome
  /-- A join has an axis. -/
  axis : b = .cat → ∀ v, (a.args[0]? = some v ∨ ("axis", v) ∈ a.kwargs) → v.isNone = false
  /-- What is indexed is a node. -/
  source : b = .slice → ∀ v, a.args[0]? = some v → v.node?.isSome

/-- Arguments whose shapes suit an op: matrices have at least two axes, and a distance is taken
between operands of one shape. -/
structure SuitableShapes (b : Builtin) (a : Arguments F) : Prop where
  /-- Matrices have at least two axes. -/
  matrices : b = .mtimes → ∀ v, (v ∈ a.positional ∨ ∃ name, (name, v) ∈ a.named) →
    ∀ g, v.reals? = some g → 2 ≤ g.rank
  /-- A distance is taken between operands of one shape. -/
  distance : b = .l2loss → ∀ x y, a.positional = [x, y] → ∀ g h, x.reals? = some g →
    y.reals? = some h → g.shape = h.shape

variable {K : Type} [Field K] [Arith K]

/-- A real value with tangents. -/
def Value.Lifts (x : Value (Dual K)) (v : Value K) : Prop :=
  x.map Dual.re = v ∧ ∃ g, x.reals? = some g

section

variable {slotOf : Handle → Option Nat} {b : Builtin} {a : Application K} {s : Store (Dual K)}
  {t : Store K}

/-- What the arguments of a layer stand for over dual numbers: constants have no tangent. -/
def dualOperands (slotOf : Handle → Option Nat) (s : Store (Dual K)) (args : List (Value K)) :
    List (Value (Dual K)) :=
  (args.map (Value.map Dual.embed)).map (s.argument slotOf)

omit [Arith K] in
theorem getElem?_dualOperands {args : List (Value K)} {k : Nat} {x : Value (Dual K)}
    (hx : (dualOperands slotOf s args)[k]? = some x) :
    ∃ v, args[k]? = some v ∧ x = s.argument slotOf (v.map Dual.embed) := by
  unfold dualOperands at hx
  rw [List.map_map, List.getElem?_map] at hx
  obtain ⟨v, hv, rfl⟩ := Option.map_eq_some_iff.mp hx
  exact ⟨v, hv, rfl⟩

omit [Arith K] in
theorem argument_embed {v : Value K} (h : v.node? = none) :
    s.argument slotOf (v.map Dual.embed) = v.map Dual.embed :=
  Store.argument_of_not_node slotOf s (by rw [Value.node?_map, h])

/-- Every node among the arguments of a layer stands for a real value with tangents. -/
def Operands.Lift (slotOf : Handle → Option Nat) (s : Store (Dual K)) (t : Store K)
    (args : List (Value K)) : Prop :=
  ∀ h, Value.node h ∈ args → ∃ k, slotOf h = some k ∧ (s.content k).Lifts (t.content k)

omit [Field K] [Arith K] in
theorem Operands.Lift.argument {args : List (Value K)} (hl : Operands.Lift slotOf s t args)
    {h : Handle} (hh : Value.node h ∈ args) :
    (s.argument slotOf (.node h)).Lifts (t.argument slotOf (.node h)) := by
  obtain ⟨k, hk, hlift⟩ := hl h hh
  rw [Store.argument_node, Store.argument_node, hk]
  exact hlift

omit [Arith K] in
/-- The values of what arguments stand for over dual numbers. -/
theorem Operands.Lift.map_re {args : List (Value K)} (hl : Operands.Lift slotOf s t args) :
    (dualOperands slotOf s args).map (Value.map Dual.re) = args.map (t.argument slotOf) := by
  unfold dualOperands
  rw [List.map_map, List.map_map]
  refine List.map_congr_left fun v hv => ?_
  cases hn : v.node? with
  | some h =>
    rw [Value.node?_eq_some.mp hn] at hv ⊢
    exact (hl.argument hv).1
  | none =>
    change (s.argument slotOf (v.map Dual.embed)).map Dual.re = _
    rw [argument_embed hn, Value.map_map_cancel Dual.re_embed, Store.argument_of_not_node _ _ hn]

omit [Field K] [Arith K] in
theorem Value.exists_reals_map_re {x : Value (Dual K)} {g : Grid (Dual K)}
    (hx : x.reals? = some g) :
    ∃ h, (x.map Dual.re).reals? = some h ∧ h.shape = g.shape := by
  refine ⟨g.map Dual.re, ?_, rfl⟩
  rw [Value.reals?_map, hx]
  rfl

omit [Arith K] in
/-- What a differentiable layer is called with over dual numbers. -/
theorem Application.Differentiable.realArguments (h : a.Differentiable b)
    (hl : Operands.Lift slotOf s t a.args)
    (hshapes : SuitableShapes b ⟨a.args.map (t.argument slotOf), a.kwargs⟩) :
    RealArguments b (Builtin.dualArguments (dualOperands slotOf s a.args) a.kwargs) := by
  have hconstant : ∀ {v : Value K}, v.reals?.isSome →
      ((v.map Dual.embed : Value (Dual K)).reals?).isSome := by
    intro v hv
    rw [Value.reals?_map, Option.isSome_map]
    exact hv
  refine ⟨?_, ?_, ?_, ?_, ?_, ?_⟩
  -- Operands: a node, a real constant, or an integer in an arithmetic op.
  · intro k x hx hk
    obtain ⟨v, hv, rfl⟩ := getElem?_dualOperands hx
    rcases h.operands k v hv hk with hnode | hreal | ⟨harith, n, rfl⟩
    · obtain ⟨n, hn⟩ := Option.isSome_iff_exists.mp hnode
      rw [Value.node?_eq_some.mp hn] at hv ⊢
      exact .inl (Option.isSome_iff_exists.mpr (hl.argument (List.mem_of_getElem? hv)).2)
    · refine .inl ?_
      rw [argument_embed (by cases v <;> first | rfl | cases hreal)]
      exact hconstant hreal
    · exact .inr ⟨harith, n, rfl⟩
  · intro p hp hname
    obtain ⟨q, hq, rfl⟩ := List.mem_map.mp hp
    exact hconstant (h.named q hq hname)
  -- Two integers are never operands together, since a node's value is no integer.
  · intro j k m n hj hk
    have hinteger : ∀ {k : Nat} {n : Int},
        (dualOperands slotOf s a.args)[k]? = some (Value.integer n) →
          b.isArithmetic → a.args[k]? = some (Value.integer n) := by
      intro k n hk harith
      obtain ⟨v, hv, hvn⟩ := getElem?_dualOperands hk
      have hplace : b.settingPlace? ≠ some k := by
        cases b <;> first | (intro h; cases h; done) | cases harith
      rcases h.operands k v hv hplace with hnode | hreal | ⟨-, m, rfl⟩
      · obtain ⟨i, hi⟩ := Option.isSome_iff_exists.mp hnode
        rw [Value.node?_eq_some.mp hi] at hv hvn
        obtain ⟨g, hg⟩ := (hl.argument (List.mem_of_getElem? hv)).2
        change _ = s.argument slotOf (.node i) at hvn
        rw [← hvn] at hg
        cases hg
      · rw [argument_embed (by cases v <;> first | rfl | cases hreal)] at hvn
        have hmapped := hconstant hreal
        rw [← hvn] at hmapped
        cases hmapped
      · cases hvn
        exact hv
    intro harith
    exact h.integers j k m n (hinteger hj harith) (hinteger hk harith) harith
  -- Matrices have the rank that they have in the real run.
  · rintro hb x (hx | ⟨name, hx⟩) g hg
    · obtain ⟨g', hg', hs⟩ := Value.exists_reals_map_re hg
      have hmem : x.map Dual.re ∈ a.args.map (t.argument slotOf) := by
        rw [← hl.map_re]
        exact List.mem_map_of_mem hx
      have hrank := hshapes.matrices hb _ (.inl hmem) g' hg'
      unfold Grid.rank at hrank ⊢
      rwa [hs] at hrank
    · obtain ⟨q, hq, hqx⟩ := List.mem_map.mp hx
      cases hqx
      obtain ⟨g', hg', hs⟩ := Value.exists_reals_map_re hg
      rw [Value.map_map_cancel Dual.re_embed] at hg'
      have hrank := hshapes.matrices hb _ (.inr ⟨q.1, hq⟩) g' hg'
      unfold Grid.rank at hrank ⊢
      rwa [hs] at hrank
  · rintro hb x (hx | hx)
    · obtain ⟨v, hv, rfl⟩ := getElem?_dualOperands hx
      -- The axis is a constant.
      have hnode : v.node? = none := h.settings 0 v hv (by rw [hb]; rfl)
      rw [argument_embed hnode, Value.isNone_map]
      exact h.axis hb v (.inl hv)
    · obtain ⟨q, hq, hqx⟩ := List.mem_map.mp hx
      obtain ⟨name, v⟩ := q
      cases hqx
      rw [Value.isNone_map]
      exact h.axis hb v (.inr hq)
  -- Losses compare operands of one shape.
  · intro hb x y hxy g g' hg hg'
    obtain ⟨e, he, hes⟩ := Value.exists_reals_map_re hg
    obtain ⟨e', he', hes'⟩ := Value.exists_reals_map_re hg'
    have hpositional : a.args.map (t.argument slotOf) = [x.map Dual.re, y.map Dual.re] := by
      have hxy : dualOperands slotOf s a.args = [x, y] := hxy
      rw [← hl.map_re, hxy]
      rfl
    rw [← hes, ← hes']
    exact hshapes.distance hb _ _ hpositional e e' he he'

omit [Arith K] in
/-- The settings of a differentiable layer are constants. -/
theorem Application.Differentiable.setting_eq (h : a.Differentiable b) {k : Nat}
    {x : Value (Dual K)} (hk : b.settingPlace? = some k)
    (hx : (dualOperands slotOf s a.args)[k]? = some x) : ∃ u : Value K, x = u.map Dual.embed := by
  obtain ⟨v, hv, rfl⟩ := getElem?_dualOperands hx
  exact ⟨v, argument_embed (h.settings k v hv hk)⟩

end

/-! ### The run -/

section

variable {slotOf : Handle → Option Nat}

/-- An instruction completes if its layer's op answers. -/
theorem forwardStep_completes {H : Type} [Arith H] {call : Calls H} (stage : Stage) {p : Placed H}
    (index : Nat) {r : RunState H} {v : Value H}
    (hslots : ∀ h k, slotOf h = some k → k < r.store.size)
    (hplace : valueSlot p.place < r.store.size)
    (hv : layerCall call slotOf r.store p.layer = .ok v) :
    (forwardStep call stage (forwardOf slotOf p, index) r).error = none ∧
      (forwardStep call stage (forwardOf slotOf p, index) r).state.store
        = r.store.setAt (valueSlot p.place) v := by
  have hcall : callOn call (forwardOf slotOf p) r.store = .ok v := by
    unfold callOn
    rw [forwardOf_bind hslots]
    exact hv
  have hwrite : writeOutput (forwardOf slotOf p) r.store v
      = .ok (r.store.setAt (valueSlot p.place) v) := Store.set_natCast hplace v
  have hstep : forwardStep call stage (forwardOf slotOf p, index) r
      = .done (RunState.record index stage (forwardOf slotOf p)
        { r with store := r.store.setAt (valueSlot p.place) v }) := by
    refine congrArg (Outcome.attempt r) (bind_eq_ok.mpr ⟨v, hcall, ?_⟩)
    exact bind_eq_ok.mpr ⟨_, liftM_eq_ok.mpr hwrite, rfl⟩
  rw [hstep]
  exact ⟨rfl, rfl⟩

variable [ExactArith K] {call : Calls K} {call' : Calls (Dual K)} {t : Store K}

/-- A differentiable layer answers over dual numbers what lifts its answer on the values. -/
theorem layerCall_lifts (hcall : RunsBuiltins call) (hcall' : RunsBuiltins call')
    {s : Store (Dual K)} {b : Builtin} {a : Application K} {v : Value K} (h : a.Differentiable b)
    (hl : Operands.Lift slotOf s t a.args)
    (hshapes : SuitableShapes b ⟨a.args.map (t.argument slotOf), a.kwargs⟩)
    (hv : layerCall call slotOf t a = .ok v) :
    ∃ w, layerCall call' slotOf s (a.map Dual.embed) = .ok w ∧ w.Lifts v := by
  have hreal := h.realArguments hl hshapes
  rw [hcall.layerCall_eq_ok h.op] at hv
  have hvalues : (Builtin.dualArguments (dualOperands slotOf s a.args) a.kwargs).map Dual.re
      = ⟨a.args.map (t.argument slotOf), a.kwargs⟩ := by
    unfold Builtin.dualArguments Arguments.map
    dsimp only
    rw [hl.map_re, List.map_map]
    congr 1
    conv_rhs => rw [← List.map_id a.kwargs]
    refine List.map_congr_left fun p _ => ?_
    exact congrArg (fun u => (p.1, u)) (Value.map_map_cancel Dual.re_embed p.2)
  have hmap := Builtin.forwardCall_map Dual.hom_re h.kind hreal
  rw [hvalues, hv] at hmap
  cases hw : b.forwardCall (Builtin.dualArguments (dualOperands slotOf s a.args) a.kwargs) with
  | error e =>
    rw [hw] at hmap
    cases hmap
  | ok w =>
    rw [hw] at hmap
    refine ⟨w, ?_, (Except.ok.inj hmap).symm, Builtin.forwardCall_reals h.kind hreal hw⟩
    unfold layerCall
    change call' a.op.forward (Builtin.dualArguments (dualOperands slotOf s a.args) a.kwargs) = _
    rw [h.op, hcall'.forward, hw]
    rfl

/-- A run over dual numbers completes if the ops answer on the values, and all values lift, if those
lift that no layer of the run computes. -/
theorem runAll_forwardStep_lifts (hcall : RunsBuiltins call) (hcall' : RunsBuiltins call')
    (stage : Stage) {pairs : Nat} :
    ∀ {layers : List (Placed K)} {stream : List (Instruction (Dual K) × Nat)},
      List.Forall₂ (fun q p => q.1 = forwardOf slotOf (p.map Dual.embed)) stream layers →
        WellPlaced slotOf (2 * pairs) layers →
          (∀ p ∈ layers, layerCall call slotOf t p.layer = .ok (t.content (valueSlot p.place))) →
            (∀ p ∈ layers, ∃ b, p.layer.Differentiable b ∧
              SuitableShapes b ⟨p.layer.args.map (t.argument slotOf), p.layer.kwargs⟩) →
              ∀ {r : RunState (Dual K)}, r.store.size = 2 * pairs →
                (∀ j, j < pairs → (∀ p ∈ layers, j ≠ p.place) →
                  (r.store.content (valueSlot j)).Lifts (t.content (valueSlot j))) →
                  (runAll (forwardStep call' stage) stream r).error = none ∧
                    ∀ j, j < pairs →
                      ((runAll (forwardStep call' stage) stream r).state.store.content
                      (valueSlot j)).Lifts (t.content (valueSlot j)) := by
  intro layers stream hrel
  induction hrel with
  | nil =>
    intro _ _ _ r _ hlifts
    exact ⟨rfl, fun j hj => hlifts j hj fun p hp => by cases hp⟩
  | @cons q p stream layers hq _ ih =>
    intro hw hcalls hlayers r hsize hlifts
    obtain ⟨i, index⟩ := q
    have hq : i = forwardOf slotOf (p.map Dual.embed) := hq
    subst hq
    obtain ⟨b, hb, hshapes⟩ := hlayers p (List.mem_cons_self ..)
    have hplace := hw.inStore p (List.mem_cons_self ..)
    have hincreasing := List.pairwise_cons.mp hw.increasing
    -- What the layer reads has been computed, since no layer at or behind its place computes it.
    have hl : Operands.Lift slotOf r.store t p.layer.args := by
      intro h hh
      obtain ⟨j, hj, hslot⟩ := hw.earlier p (List.mem_cons_self ..) h hh
      refine ⟨_, hslot, hlifts j ?_ ?_⟩
      · have := valueSlot_succ_lt.mp hplace
        omega
      · intro q hq
        rcases List.mem_cons.mp hq with rfl | hq
        · omega
        · have := hincreasing.1 q hq
          omega
    obtain ⟨w, hcallw, hlift⟩ := layerCall_lifts hcall hcall' hb hl hshapes
      (hcalls p (List.mem_cons_self ..))
    obtain ⟨hstep, hstore⟩ := forwardStep_completes stage index
      (hsize ▸ hw.slot_lt)
      (show valueSlot (p.map Dual.embed).place < r.store.size by
        change valueSlot p.place < _
        omega) hcallw
    -- For the rest of the run the layer's own value is one that lifts already.
    obtain ⟨hrest, hall⟩ := ih hw.tail (fun q hq => hcalls q (List.mem_cons_of_mem _ hq))
      (fun q hq => hlayers q (List.mem_cons_of_mem _ hq))
      (r := (forwardStep call' stage (forwardOf slotOf (p.map Dual.embed), index) r).state)
      (by rw [hstore, Store.size_setAt, hsize]) (by
        intro j hj hother
        rw [hstore]
        by_cases hjp : j = p.place
        · rw [hjp]
          change ((r.store.setAt (valueSlot p.place) w).content (valueSlot p.place)).Lifts _
          rw [Store.content_setAt_self (by omega)]
          exact hlift
        · have hne : valueSlot j ≠ valueSlot p.place := mt valueSlot_inj.mp hjp
          change ((r.store.setAt (valueSlot p.place) w).content (valueSlot j)).Lifts _
          rw [Store.content_setAt_of_ne _ hne]
          refine hlifts j hj fun q hq => ?_
          rcases List.mem_cons.mp hq with rfl | hq
          · exact hjp
          · exact hother q hq)
    refine ⟨runAll_cons_completed.mpr ⟨hstep, hrest⟩, ?_⟩
    rw [runAll_cons_state stream hstep]
    exact hall

end

end SlotGrad
