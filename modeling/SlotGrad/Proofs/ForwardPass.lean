import SlotGrad.Proofs.Builtins
import SlotGrad.Proofs.Frame

/-!
# The forward pass computes every layer from final values

A layer reads slots of smaller places, and no later layer writes them.  So after a completed
forward pass every value slot holds what its layer's op answers on the values that are in the store
then, not only on those that were there when the layer ran.

## Main definitions

* `WellPlaced` — layers at increasing places that read smaller places of a store.
* `layerCall` — what a layer's op answers on a store.

## Main results

* `Streams.wellPlaced` — the layers of a list in dependency order are well placed.
* `runForward_computes` — the contents of slots after a completed forward pass.
-/

namespace SlotGrad

variable {F : Type}

/-- Layers at increasing places that read smaller places of a store of the given size. -/
structure WellPlaced (slotOf : Handle → Option Nat) (size : Nat) (layers : List (Placed F)) :
    Prop where
  /-- Places increase. -/
  increasing : layers.Pairwise fun p q => p.place < q.place
  /-- The slots of layers are in the store. -/
  inStore : ∀ p ∈ layers, valueSlot p.place + 1 < size
  /-- References stand for slots of the store. -/
  slots : ∀ h k, slotOf h = some k → k + 1 < size
  /-- What a layer reads has a smaller place. -/
  earlier : ∀ p ∈ layers, ∀ h, Value.node h ∈ p.layer.args →
    ∃ j, j < p.place ∧ slotOf h = some (valueSlot j)

theorem Streams.wellPlaced {nodes : List (Node F)} {layers : List (Placed F)}
    {net : CompiledNet F} (h : Streams nodes layers net) (ho : Ordered nodes) :
    WellPlaced (slotIn nodes) (2 * nodes.length) layers := by
  refine ⟨?_, ?_, fun h k hk => slotIn_lt hk, ?_⟩
  · have hinc := layersOf_increasing nodes
    rw [← h.places, List.pairwise_map] at hinc
    exact hinc
  · intro p hp
    exact valueSlot_succ_lt.mpr (h.place_lt hp)
  · intro p hp n hn
    obtain ⟨j, hj, hpos⟩ := ho.position_lt (h.mem_layersOf hp) hn
    exact ⟨j, hj, slotIn_eq_some.mpr ⟨j, hpos, rfl⟩⟩

section

variable {slotOf : Handle → Option Nat} {size : Nat}

theorem WellPlaced.tail {p : Placed F} {ps : List (Placed F)}
    (h : WellPlaced slotOf size (p :: ps)) : WellPlaced slotOf size ps :=
  ⟨(List.pairwise_cons.mp h.increasing).2, fun q hq => h.inStore q (List.mem_cons_of_mem _ hq),
    h.slots, fun q hq => h.earlier q (List.mem_cons_of_mem _ hq)⟩

/-- The slots of nodes are in the store. -/
theorem WellPlaced.slot_lt {layers : List (Placed F)} (h : WellPlaced slotOf size layers) :
    ∀ n k, slotOf n = some k → k < size := fun n k hk =>
  Nat.lt_of_succ_lt (h.slots n k hk)

theorem WellPlaced.value_lt {layers : List (Placed F)} (h : WellPlaced slotOf size layers)
    {p : Placed F} (hp : p ∈ layers) : valueSlot p.place < size :=
  Nat.lt_of_succ_lt (h.inStore p hp)

theorem WellPlaced.place_lt {n : Nat} {layers : List (Placed F)}
    (h : WellPlaced slotOf (2 * n) layers) {p : Placed F} (hp : p ∈ layers) : p.place < n :=
  valueSlot_succ_lt.mp (h.inStore p hp)

/-- What a layer reads is not changed by writes to slots from its own on. -/
theorem WellPlaced.argument_eq {layers : List (Placed F)} (h : WellPlaced slotOf size layers)
    {p : Placed F} (hp : p ∈ layers) {s t : Store F}
    (hst : ∀ j, j < p.place → t.content (valueSlot j) = s.content (valueSlot j)) :
    p.layer.args.map (t.argument slotOf) = p.layer.args.map (s.argument slotOf) := by
  refine List.map_congr_left ?_
  intro v hv
  refine Store.argument_congr ?_
  rintro n k rfl hk
  obtain ⟨j, hj, hslot⟩ := h.earlier p hp n hv
  rw [hk] at hslot
  cases hslot
  exact hst j hj

/-- What a layer's op answers on a store. -/
def layerCall (call : Calls F) (slotOf : Handle → Option Nat) (s : Store F) (a : Application F) :
    Attempt (Value F) :=
  call a.op.forward ⟨a.args.map (s.argument slotOf), a.kwargs⟩

/-- What a layer's op answers depends on the values of smaller places. -/
theorem WellPlaced.layerCall_eq {layers : List (Placed F)} (h : WellPlaced slotOf size layers)
    {p : Placed F} (hp : p ∈ layers) {s t : Store F} (call : Calls F)
    (hst : ∀ j, j < p.place → t.content (valueSlot j) = s.content (valueSlot j)) :
    layerCall call slotOf t p.layer = layerCall call slotOf s p.layer := by
  unfold layerCall
  rw [h.argument_eq hp hst]

/-- What a layer of a built-in op answers. -/
theorem RunsBuiltins.layerCall_eq_ok [Arith F] {call : Calls F} (hcall : RunsBuiltins call)
    {b : Builtin} {a : Application F} (hop : a.op = b.op) {t : Store F} {v : Value F} :
    layerCall call slotOf t a = .ok v ↔
      b.forwardCall ⟨a.args.map (t.argument slotOf), a.kwargs⟩ = .ok v := by
  unfold layerCall
  rw [hop, hcall.forward, lift_eq_ok]

/-- What a forward instruction does: it writes what the layer's op answers to the layer's value
slot, or stops with the op's error. -/
theorem forwardStep_forwardOf {call : Calls F} {stage : Stage} {p : Placed F} {index : Nat}
    {r : RunState F} (hs : ∀ h k, slotOf h = some k → k < r.store.size)
    (hp : valueSlot p.place < r.store.size) :
    forwardStep call stage (forwardOf slotOf p, index) r
      = .attempt r ((layerCall call slotOf r.store p.layer).map fun v =>
          RunState.record index stage (forwardOf slotOf p)
            { r with store := r.store.setAt (valueSlot p.place) v }) := by
  have hcall : callOn call (forwardOf slotOf p) r.store
      = layerCall call slotOf r.store p.layer := by
    unfold callOn
    rw [forwardOf_bind hs]
    rfl
  unfold forwardStep
  dsimp only
  rw [hcall]
  cases layerCall call slotOf r.store p.layer with
  | error e => rfl
  | ok v =>
    have hwrite : writeOutput (forwardOf slotOf p) r.store v
        = .ok (r.store.setAt (valueSlot p.place) v) := Store.set_natCast hp v
    simp [hwrite, bind, Except.bind, Except.map, liftM_eq_lift, pure, Except.pure]

/-- A completed forward instruction writes what the layer's op answers to the layer's value
slot. -/
theorem forwardStep_completed {call : Calls F} {stage : Stage} {p : Placed F} {index : Nat}
    {r : RunState F} (hs : ∀ h k, slotOf h = some k → k < r.store.size)
    (hdone : (forwardStep call stage (forwardOf slotOf p, index) r).error = none) :
    ∃ v, layerCall call slotOf r.store p.layer = .ok v ∧
      (forwardStep call stage (forwardOf slotOf p, index) r).state.store
        = r.store.setAt (valueSlot p.place) v := by
  unfold forwardStep at hdone ⊢
  obtain ⟨v, hv, h⟩ := bind_eq_ok.mp (Outcome.attempt_completed.mp hdone)
  obtain ⟨s, hset, h⟩ := bind_eq_ok.mp h
  refine ⟨v, ?_, ?_⟩
  · unfold callOn at hv
    obtain ⟨args, hargs, hv⟩ := bind_eq_ok.mp hv
    rw [liftM_eq_ok, forwardOf_bind hs] at hargs
    cases hargs
    exact hv
  · rw [← pure_eq_ok.mp h]
    exact (Store.set_natCast_eq_ok.mp (liftM_eq_ok.mp hset)).2.symm

/-- A completed run of forward instructions leaves in every layer's value slot what the op answers
on the final contents, and every other slot as it was. -/
theorem runAll_forwardStep_computes {call : Calls F} {stage : Stage} :
    ∀ {layers : List (Placed F)} {stream : List (Instruction F × Nat)},
      List.Forall₂ (fun q p => q.1 = forwardOf slotOf p) stream layers →
        ∀ {r : RunState F}, WellPlaced slotOf r.store.size layers →
          (runAll (forwardStep call stage) stream r).error = none →
            ∀ t, (runAll (forwardStep call stage) stream r).state.store = t →
              t.size = r.store.size ∧
              (∀ p ∈ layers, layerCall call slotOf t p.layer
                = .ok (t.content (valueSlot p.place))) ∧
              ∀ k, (∀ p ∈ layers, k ≠ valueSlot p.place) → t.content k = r.store.content k := by
  intro layers stream hrel
  induction hrel with
  | nil =>
    rintro r - - t rfl
    refine ⟨rfl, ?_, fun k _ => rfl⟩
    intro p hp
    cases hp
  | @cons q p stream layers hq _ ih =>
    intro r hw hdone t ht
    obtain ⟨i, index⟩ := q
    have hq : i = forwardOf slotOf p := hq
    subst hq
    obtain ⟨hstep, hrest⟩ := runAll_cons_completed.mp hdone
    rw [runAll_cons_state stream hstep] at ht
    obtain ⟨v, hv, hstore⟩ := forwardStep_completed hw.slot_lt hstep
    have hplace := hw.value_lt (List.mem_cons_self ..)
    have hsize : (forwardStep call stage (forwardOf slotOf p, index) r).state.store.size
        = r.store.size := by
      rw [hstore, Store.size_setAt]
    have hw' := hw.tail
    rw [← hsize] at hw'
    obtain ⟨hsize', hcalls, hother⟩ := ih hw' hrest t ht
    have hlater : ∀ q ∈ layers, p.place < q.place := (List.pairwise_cons.mp hw.increasing).1
    -- Slots up to the layer's own keep what the layer found and wrote.
    have hkeep : ∀ k, k ≤ valueSlot p.place →
        t.content k = (r.store.setAt (valueSlot p.place) v).content k := by
      intro k hk
      rw [hother k ?_, hstore]
      intro q hq
      have := valueSlot_lt_valueSlot.mpr (hlater q hq)
      omega
    refine ⟨hsize'.trans hsize, ?_, ?_⟩
    · intro q hq
      -- The first layer reads slots before its own, which the rest has kept.
      rcases List.mem_cons.mp hq with rfl | hq
      · rw [hkeep _ (Nat.le_refl _), Store.content_setAt_self hplace, ← hv]
        refine hw.layerCall_eq (List.mem_cons_self ..) call fun j hj => ?_
        have hlt : valueSlot j < valueSlot q.place := valueSlot_lt_valueSlot.mpr hj
        rw [hkeep _ (by omega), Store.content_setAt_of_ne _ (by omega)]
      · exact hcalls q hq
    · intro k hk
      rw [hother k fun q hq => hk q (List.mem_cons_of_mem _ hq), hstore]
      exact Store.content_setAt_of_ne _ (hk p (List.mem_cons_self ..)) v

/-- The instructions of layers, numbered. -/
theorem forall₂_zipIdx_map {α β : Type} (f : α → β) :
    ∀ (as : List α) (n : Nat), List.Forall₂ (fun q a => q.1 = f a) ((as.map f).zipIdx n) as := by
  intro as
  induction as with
  | nil =>
    intro n
    exact .nil
  | cons a as ih =>
    intro n
    exact .cons rfl (ih (n + 1))

/-- After a completed forward pass every layer's value slot holds what its op answers on the final
contents, and every other slot holds what it held before. -/
theorem runForward_computes {call : Calls F} {stage : Stage} {layers : List (Placed F)}
    {r : RunState F} (hw : WellPlaced slotOf r.store.size layers)
    (hdone : (runForward call stage (layers.map (forwardOf slotOf)) r).error = none) {t : Store F}
    (ht : (runForward call stage (layers.map (forwardOf slotOf)) r).state.store = t) :
    t.size = r.store.size ∧
      (∀ p ∈ layers, layerCall call slotOf t p.layer = .ok (t.content (valueSlot p.place))) ∧
      ∀ k, (∀ p ∈ layers, k ≠ valueSlot p.place) → t.content k = r.store.content k :=
  runAll_forwardStep_computes (forall₂_zipIdx_map _ _ _) hw hdone t ht

end

end SlotGrad
