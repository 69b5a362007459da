import SlotGrad.Proofs.AdditiveSeeds
import SlotGrad.Proofs.FilledPasses

/-!
# Backward passes after completed forward passes

A net of built-in ops within their conventions is evaluated on numbers.  Its forward pass
completes.  Then the backward pass completes exactly if the derivative of every product of
matrices is filled when its adjoint is called, and that of every change of shape of several
members.  This can be told from the net alone.  A derivative is not filled if no layer answers
one for the node, as on the way to labels, and it then still holds the number zero.

Seeds are real.  Most adjoints would go on from a seed of integers as well, and which of them
stop is another question.

## Main results

* `Streams.derived_seededRun` — the state in which the backward stream starts.
* `Streams.evaluate_completes_iff` — evaluations whose forward stream completes.
* `backward_completes_iff` — when a backward pass completes, and the shapes that it leaves.
* `backward_stops_at_reshaped_labels` — labels under another shape.
-/

namespace SlotGrad

section

variable {F : Type} [Arith F] {nodes : List (Node F)} {layers : List (Placed F)}
    {net : CompiledNet F}
  {call : Calls F} {o : EvalOptions F} {r : RunState F} {t : Store F} {whole : Bool} {bound : Nat}

/-- At the start of the backward stream at most the root's derivative is filled. -/
theorem Streams.derived_seededRun (h : Streams nodes layers net) (ho : Ordered nodes)
    (hne : nodes ≠ []) (hkept : ∀ slot, slot ∈ keptSlots net o ↔
      o.accumulate = true ∧ ∃ k, (nodes[k]?).map Node.kind = some .param ∧
        slot = ((valueSlot k + 1 : Nat) : Int)) (hacc : o.accumulate = false)
    (hsize : r.store.size = 2 * nodes.length)
    (hforward : (runForward call .forward net.forward r).Leaves t)
    (hseed : ∀ k, k + 1 = nodes.length →
      Value.IsDerivative whole (t.content (valueSlot k)) o.seed) :
    Derived nodes t (fun j => whole && j + 1 == nodes.length) (seededRun call net o r).store := by
  obtain ⟨hdone, rfl⟩ := hforward
  obtain ⟨hsize', -, hders⟩ := h.seededRun_content ho hne call hkept hsize hdone
  have hstart : ∀ k, startAt nodes o r.store k
      = if k + 1 = nodes.length then o.seed else Store.zero := by
    intro k
    unfold startAt
    rw [hacc]
    simp
  refine ⟨hsize', fun k hk => ?_, fun j hj => ?_, fun j hj => ?_⟩
  · unfold seededRun
    rw [Outcome.andThen_state _ hdone]
    exact (seedDers_frame hk).2
  · rw [hders j hj, hstart]
    by_cases hroot : j + 1 = nodes.length
    · rw [if_pos hroot, beq_iff_eq.mpr hroot, Bool.and_true]
      exact hseed j hroot
    · rw [if_neg hroot, beq_eq_false_iff_ne.mpr hroot, Bool.and_false]
      exact Value.isDerivative_zero
  · rw [hders j (by omega), hstart, if_neg (by omega)]
    rfl

/-- The layers of a net on the store that its forward pass leaves. -/
theorem Streams.evaluated (h : Streams nodes layers net) (ho : Ordered nodes)
    (hsize : r.store.size = 2 * nodes.length)
    (hforward : (runForward call .forward net.forward r).Leaves t)
    (hlayers : ∀ k a, (k, a) ∈ layersOf nodes → a.Works (slotIn nodes) →
      ∃ b : Builtin, b.Conforms bound (slotIn nodes) t a) :
    t.size = 2 * nodes.length ∧ ∀ p ∈ layers, Evaluated call bound nodes t p := by
  obtain ⟨hdone, ht⟩ := hforward
  rw [h.forward] at hdone ht
  obtain ⟨hlast, hvalues, -⟩ := runForward_computes (hsize ▸ h.wellPlaced ho) hdone ht
  exact ⟨hlast.trans hsize, fun p hp => ⟨hvalues p hp, hlayers _ _ (h.mem_layersOf hp)⟩⟩

/-- An evaluation that only goes forward is the forward stream. -/
theorem Streams.leaves_of_forward (h : Streams nodes layers net)
    (hforward : (evaluate call net .forward o r).Leaves t) :
    r.store.size = 2 * nodes.length ∧ (runForward call .forward net.forward r).Leaves t := by
  unfold evaluate at hforward
  cases hcheck : checkRequest net .forward o r.store with
  | error e =>
    rw [hcheck] at hforward
    exact absurd hforward Outcome.not_leaves_stopped
  | ok u =>
    rw [hcheck] at hforward
    have hnum := (checkRequest_accepts hcheck).2
    have hvars := h.numVars
    exact ⟨by omega, hforward⟩

/-- An evaluation whose forward stream completes, completes exactly if the seed has members and
every adjoint accepts the derivative that it finds. -/
theorem Streams.evaluate_completes_iff (h : Streams nodes layers net) (ho : Ordered nodes)
    (hne : nodes ≠ []) (hkept : ∀ slot, slot ∈ keptSlots net o ↔
      o.accumulate = true ∧ ∃ k, (nodes[k]?).map Node.kind = some .param ∧
        slot = ((valueSlot k + 1 : Nat) : Int)) (hF : Arith.FiniteUpTo F bound)
    (hcall : RunsBuiltins call) (hacc : o.accumulate = false)
    (hsize : r.store.size = 2 * nodes.length)
    (hforward : (runForward call .forward net.forward r).Leaves t)
    (hlayers : ∀ k a, (k, a) ∈ layersOf nodes → a.Works (slotIn nodes) →
      ∃ b : Builtin, b.Conforms bound (slotIn nodes) t a)
    (hseed : ∀ k, k + 1 = nodes.length →
      Value.IsDerivative whole (t.content (valueSlot k)) o.seed) :
    ((evaluate call net .normal o r).error = none ↔ isEmptySeed o.seed = false ∧
      ∀ k a, (k, a) ∈ layersOf nodes → a.Accepts (slotIn nodes) t (filledBy whole nodes k)) ∧
      ((evaluate call net .normal o r).error = none →
        Derived nodes t (filledBy whole nodes) (evaluate call net .normal o r).state.store) := by
  have hw := h.wellPlaced ho
  obtain ⟨hlast, hevaluated⟩ := h.evaluated ho hsize hforward hlayers
  have hstart := h.derived_seededRun ho hne hkept hacc hsize hforward hseed
  have hstream := forall₂_zipIdx_map (backwardOf (slotIn nodes)) layers.reverse 0
  have hmem : ∀ p ∈ layers.reverse, p ∈ layers := fun p hp => List.mem_reverse.mp hp
  -- Following the layers backward computes which derivatives are filled in the end.
  have hfinal : (layers.reverse.map fun p => (p.place, p.layer)).foldl
      (filledStep (slotIn nodes)) (fun j => whole && j + 1 == nodes.length)
        = filledBy whole nodes := by
    unfold filledBy
    rw [List.map_reverse, h.places]
  obtain ⟨hiff, hderived⟩ := hstart.runAll_backwardStep hF hcall hw hstream hmem
    (List.pairwise_reverse.mpr hw.increasing) (fun p hp => hevaluated p (hmem p hp)) hfinal
  rw [← h.backward] at hiff hderived
  have haccepts : (∀ p ∈ layers.reverse,
      p.layer.Accepts (slotIn nodes) t (filledBy whole nodes p.place)) ↔
        ∀ k a, (k, a) ∈ layersOf nodes → a.Accepts (slotIn nodes) t (filledBy whole nodes k) := by
    rw [← h.places]
    constructor
    · intro hall k a hL
      obtain ⟨p, hp, heq⟩ := List.mem_map.mp hL
      cases heq
      exact hall p (List.mem_reverse.mpr hp)
    · intro hall p hp
      exact hall p.place p.layer (List.mem_map.mpr ⟨p, hmem p hp, rfl⟩)
  rw [← haccepts, ← hiff]
  -- The forward stream and the seed take their places, so the backward stream decides.
  have hrun : isEmptySeed o.seed = false → evaluate call net .normal o r
      = runAll (backwardStep call) net.backward.zipIdx (seededRun call net o r) := fun hempty =>
    h.evaluate_of_forward hne hkept hempty hsize hforward.1 (hforward.2 ▸ hlast)
  constructor
  · constructor
    · intro hdone
      have hempty := (h.evaluate_completed hdone).2.1
      exact ⟨hempty, hrun hempty ▸ hdone⟩
    · rintro ⟨hempty, hdone⟩
      rw [hrun hempty]
      exact hdone
  · intro hdone
    have hempty := (h.evaluate_completed hdone).2.1
    rw [hrun hempty] at hdone ⊢
    exact hderived hdone

/-- **When a backward pass completes.**  Let the forward pass of a net of built-in ops complete,
with every layer that takes part in the backward pass within its conventions.  Let the seed be
real and of the shape of the root's value, or a plain real number.  An evaluation in normal mode
then completes exactly if the seed has members, the derivative of every product of matrices is
filled, and so is that of every change of shape of several members.  If it completes, each
derivative has exactly the shape of its value where it is filled, and is a plain real number
where it is not.  Seeds of integers are left out. -/
theorem backward_completes_iff [Interchange F] {checks : Checks F} {known : Node F → Bool}
    {roots : Option (List Handle)} {options : Options F} {c : Compilation F}
    (hc : compileNodes checks known nodes roots options = .ok c) (ho : Ordered nodes)
    (hF : Arith.FiniteUpTo F bound) (hcall : RunsBuiltins call) (hacc : o.accumulate = false)
    (hforward : (evaluate call c.net .forward o r).Leaves t)
    (hlayers : ∀ k a, (k, a) ∈ layersOf nodes → a.Works (slotIn nodes) →
      ∃ b : Builtin, b.Conforms bound (slotIn nodes) t a)
    (hseed : ∀ k, k + 1 = nodes.length →
      Value.IsDerivative whole (t.content (valueSlot k)) o.seed) :
    ((evaluate call c.net .normal o r).error = none ↔ isEmptySeed o.seed = false ∧
      ∀ k a, (k, a) ∈ layersOf nodes → a.Accepts (slotIn nodes) t (filledBy whole nodes k)) ∧
      ((evaluate call c.net .normal o r).error = none → ∀ k, k < nodes.length →
        Value.IsDerivative (filledBy whole nodes k) (t.content (valueSlot k))
          ((evaluate call c.net .normal o r).state.store.content (valueSlot k + 1))) := by
  obtain ⟨hne, names, heads, hlen, hnet⟩ := compileNodes_assembled hc
  have h := assemble_streams hlen hnet
  obtain ⟨hsize, hforward⟩ := h.leaves_of_forward hforward
  obtain ⟨hiff, hderived⟩ := h.evaluate_completes_iff ho hne
    (fun _ => mem_keptSlots hlen hnet) hF hcall hacc hsize hforward hlayers hseed
  exact ⟨hiff, fun hdone => (hderived hdone).ders⟩

end

/-- A vector of two elements as a parameter, and as a column. -/
def columnOfPair : List (Node ℚ) :=
  [⟨0, bareLabel, .param ⟨pair 1 2, .none, .none, .gradient⟩⟩,
    ⟨1, bareLabel, .layer ⟨Builtin.reshape.op,
      [.node ⟨0, .param, ""⟩, .tuple [.integer 2, .integer 1]], [], .same, .same, [], none⟩⟩]

/-- A column of ones. -/
def onesColumn : Value ℚ := .array ⟨.float64, Grid.ofFn [2, 1] fun _ => 1⟩

theorem backward_completes_iff_column_of_pair :
    ∃ c, compileNodes [] (fun _ => true) columnOfPair none plainOptions = .ok c ∧
      (evaluate builtinCalls c.net .normal ⟨onesColumn, false⟩ ⟨c.store, [], none⟩).error = none ∧
      Value.IsDerivative true (pair 1 2) ((evaluate builtinCalls c.net .normal ⟨onesColumn, false⟩
        ⟨c.store, [], none⟩).state.store.content 1) := by
  obtain ⟨c, hc⟩ := exists_of_isOk
    (show (compileNodes [] (fun _ => true) columnOfPair none plainOptions).isOk = true from rfl)
  have hF : Arith.FiniteUpTo ℚ 16 := Arith.FiniteInts.upTo (by decide)
  have ho : Ordered columnOfPair := ⟨by decide, violations_eq_nil_iff.mp rfl⟩
  have hforward : (evaluate builtinCalls c.net .forward ⟨onesColumn, false⟩
      ⟨c.store, [], none⟩).error = none := by
    cases hc
    decide +kernel
  set t := (evaluate builtinCalls c.net .forward ⟨onesColumn, false⟩
      ⟨c.store, [], none⟩).state.store with ht
  have hvalues : t.content 0 = pair 1 2 ∧ (t.content 2).shape = .ok [2, 1] := by
    rw [ht]
    cases hc
    exact ⟨rfl, rfl⟩
  have hpair : (pair 1 2).Within 16 :=
    ⟨⟨_, Value.shaped_array _⟩, (fun n hn => by cases hn), fun s hs => by cases hs; decide⟩
  have hlayers : ∀ k a, (k, a) ∈ layersOf columnOfPair → a.Works (slotIn columnOfPair) →
      ∃ b : Builtin, b.Conforms 16 (slotIn columnOfPair) t a := by
    intro k a hL _
    cases List.mem_singleton.mp hL
    refine ⟨.reshape, rfl, nofun, nofun, nofun, by decide, fun x hx => ?_, trivial, nofun⟩
    cases List.mem_singleton.mp hx
    change (t.content 0).Within 16
    rw [hvalues.1]
    exact hpair
  have hseed : ∀ k, k + 1 = columnOfPair.length →
      Value.IsDerivative true (t.content (valueSlot k)) onesColumn := by
    intro k hk
    obtain rfl : k = 1 := Nat.succ.inj hk
    exact ⟨[2, 1], hvalues.2, Value.realShaped_array rfl⟩
  obtain ⟨hiff, hders⟩ := backward_completes_iff hc ho hF runsBuiltins_builtinCalls rfl
    ⟨hforward, rfl⟩ hlayers hseed
  have hdone := hiff.mpr ⟨rfl, fun k a hL _ b hb => by
    cases List.mem_singleton.mp hL
    obtain rfl := Builtin.op_injective hb
    exact .inl rfl⟩
  have hfilled : filledBy true columnOfPair 0 = true := by decide
  exact ⟨c, hc, hdone, hvalues.1 ▸ hfilled ▸ hders hdone 0 (by decide)⟩

/-- Scores, labels of one column, the labels as a vector, and the loss of the scores against
them. -/
def columnLabels : List (Node ℚ) :=
  [⟨0, bareLabel, .param ⟨.array ⟨.float64, Grid.ofFn [2, 2] fun i =>
      if i = [0, 0] then 1 else if i = [0, 1] then 2 else if i = [1, 0] then 3 else 1⟩,
        .none, .none, .gradient⟩⟩,
    ⟨1, bareLabel, .input⟩,
    ⟨2, bareLabel,
      .layer ⟨Builtin.reshape.op, [.node ⟨1, .input, ""⟩, .tuple [.integer 2]], [], .same,
      .same, [], none⟩⟩,
    ⟨3, bareLabel,
      .layer ⟨Builtin.softmaxloss.op, [.node ⟨0, .param, ""⟩, .node ⟨2, .layer, ""⟩], [],
      .same, .same, [], none⟩⟩]

/-- One and zero in a column. -/
def oneZeroColumn : Value ℚ :=
  .array ⟨.int64, Grid.ofFn [2, 1] fun i => if i = [0, 0] then 1 else 0⟩

theorem backward_stops_at_reshaped_labels :
    ∃ c, compileNodes [] (fun _ => true) columnLabels none plainOptions = .ok c ∧
      (evaluate builtinCalls c.net .forward ⟨.real 1, false⟩
        ⟨c.store.setAt (valueSlot 1) oneZeroColumn, [], none⟩).error = none ∧
      ((evaluate builtinCalls c.net .forward ⟨.real 1, false⟩
        ⟨c.store.setAt (valueSlot 1) oneZeroColumn, [], none⟩).state.store.content
          (valueSlot 3)).figures?.map Grid.shape = some [] ∧
      (evaluate builtinCalls c.net .normal ⟨.real 1, false⟩
        ⟨c.store.setAt (valueSlot 1) oneZeroColumn, [], none⟩).error.isSome = true := by
  obtain ⟨c, hc⟩ := exists_of_isOk
    (show (compileNodes [] (fun _ => true) columnLabels none plainOptions).isOk = true from rfl)
  cases hc
  refine ⟨_, rfl, ?_, ?_, ?_⟩
  · decide +kernel
  · decide +kernel
  · decide +kernel

/-- No layer answers a derivative for the labels under another shape. -/
example : filledBy true columnLabels 2 = false := by decide

end SlotGrad
