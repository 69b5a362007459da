import SlotGrad.Proofs.ResultPlaces

/-!
# The derivative among the arguments of an adjoint

An adjoint is called with the arguments of the forward function and the derivative of the output
between them: before the first text, where the configuration starts, or at the end.  For this
the template is made longer in the middle, and the places behind it are moved on by one.  A
moved place is that of the same node, so no instruction fills a place of a constant, or a place
twice.

## Main definitions

* `Instruction.FillsOperands` — an instruction fills places of operands, each once.

## Main results

* `fillsOperands_forwardOf`, `fillsOperands_backwardOf` — the places that the instructions of a
  layer fill.
* `adjoint_gets_inserted_derivative` — **the two instructions of a layer differ by the derivative.**
-/

namespace SlotGrad

variable {F : Type}

/-- What stood at a place stands at the moved one. -/
theorem getElem?_insertIdx_movedOn {α : Type} (l : List α) (i q : Nat) (x : α) :
    (l.insertIdx i x)[movedOn i q]? = l[q]? := by
  unfold movedOn
  rw [List.getElem?_insertIdx]
  split <;> grind

/-- An instruction fills places of its template, each once, and all of them places of operands. -/
structure Instruction.FillsOperands (i : Instruction F) (isOperand : Nat → Prop) : Prop where
  /-- There is one place for each slot. -/
  lengths : i.inputVars.length = i.inputArgPos.length
  /-- No two slots fill one place. -/
  distinct : i.inputArgPos.Nodup
  /-- Each place is one of the template's and that of an operand. -/
  operands : ∀ p ∈ i.inputArgPos, ∃ k : Nat, p = k ∧ k < i.args.length ∧ isOperand k

section

variable {slotOf : Handle → Option Nat}

/-- A forward instruction fills the places of the nodes among the arguments. -/
theorem fillsOperands_forwardOf (p : Placed F) :
    (forwardOf slotOf p).FillsOperands fun k => ∃ h, p.layer.args[k]? = some (.node h) := by
  have hvacant : (forwardOf slotOf p).Vacant := vacant_forwardOf p
  refine ⟨hvacant.lengths, hvacant.distinct, fun q hq => ?_⟩
  obtain ⟨b, hb, rfl⟩ := List.mem_map.mp hq
  obtain ⟨k, h, slot, hk, -, rfl⟩ := mem_operandSlots.mp hb
  refine ⟨k, by simp, ?_, h, hk⟩
  exact (List.length_map _).symm ▸ (List.getElem?_eq_some_iff.mp hk).1

/-- A backward instruction fills the place of the derivative, and those of the nodes among the
arguments between which it is put in. -/
theorem fillsOperands_backwardOf (p : Placed F) :
    (backwardOf slotOf p).FillsOperands fun k => k = seedPlace p.layer.args ∨
      ∃ h, (p.layer.args.insertIdx (seedPlace p.layer.args) .none)[k]? = some (.node h) := by
  have hvacant : (backwardOf slotOf p).Vacant := vacant_backwardOf p
  refine ⟨hvacant.lengths, hvacant.distinct, fun q hq => ?_⟩
  have hinside : ∀ k : Nat, q = k → k < (backwardOf slotOf p).args.length := by
    intro k hk
    obtain ⟨j, hj, hvacant⟩ := hvacant.vacant q hq
    have hjk : j = k := by omega
    exact hjk ▸ (List.getElem?_eq_some_iff.mp hvacant).1
  rcases List.mem_append.mp hq with hoperand | hseed
  · rw [adjointOperands_eq_map, List.map_map] at hoperand
    obtain ⟨b, hb, rfl⟩ := List.mem_map.mp hoperand
    obtain ⟨k, h, slot, hk, -, rfl⟩ := mem_operandSlots.mp hb
    rw [Nat.zero_add] at hinside ⊢
    have hmoved := shifted_natCast (seedPlace p.layer.args) k
    exact ⟨_, hmoved, hinside _ hmoved, .inr ⟨h, by rw [getElem?_insertIdx_movedOn, hk]⟩⟩
  · have hq := List.mem_singleton.mp hseed
    exact ⟨_, hq, hinside _ hq, .inl rfl⟩

end

/-- **The two instructions of a layer differ by the derivative.**  Where all nodes among a
layer's arguments have slots, both instructions exist; they have the same arguments by name;
from every store the backward one is bound to what the forward one is bound to, with the content
of the layer's derivative slot before the first text, or at the end; and both fill, each once,
only places of nodes and of the derivative. -/
theorem adjoint_gets_inserted_derivative {slotOf : Handle → Option Nat} {p : Placed F}
    (hslots : ∀ h, Value.node h ∈ p.layer.args → (slotOf h).isSome) :
    ∃ fwd bwd, forwardInstruction slotOf p = .ok fwd ∧ backwardInstruction slotOf p = .ok bwd ∧
      bwd.kwargs = fwd.kwargs ∧
      (∀ s : Store F, bwd.bind s = (do
        let args ← fwd.bind s
        let d ← s.get (derSlot (valueSlot p.place : Nat))
        return args.insertIdx (p.layer.args.findIdx Value.isText) d)) ∧
      (fwd.FillsOperands fun k => ∃ h, p.layer.args[k]? = some (.node h)) ∧
      bwd.FillsOperands fun k => k = p.layer.args.findIdx Value.isText ∨
        ∃ h, (p.layer.args.insertIdx (p.layer.args.findIdx Value.isText) .none)[k]?
          = some (.node h) :=
  ⟨forwardOf slotOf p, backwardOf slotOf p, forwardInstruction_eq_ok.mpr ⟨hslots, rfl⟩,
    backwardInstruction_eq_ok.mpr ⟨hslots, rfl⟩, rfl, backwardOf_bind_eq_insertIdx p,
    fillsOperands_forwardOf p, fillsOperands_backwardOf p⟩

/-- A layer that reads one node twice and another one between, on both sides of a text and of an
absent constant. -/
def interleaved : Placed ℚ :=
  ⟨2, "mix1", "", ⟨⟨"mix", Fn.plain "nn_mix", none, false, 0⟩, [.node ⟨1, .param, ""⟩, .none,
    .text "with", .node ⟨0, .input, ""⟩, .node ⟨1, .param, ""⟩], [("scale", .integer 2)],
    .same, .same, [], none⟩⟩

/-- A store in which values are absent or texts. -/
def unusualStore : Store ℚ := ⟨#[.text "zero", .none, .none, .real 4, .none, .real 5], rfl⟩

theorem adjoint_gets_inserted_derivative_interleaved :
    ∃ fwd bwd, forwardInstruction (fun h => some (valueSlot h.id)) interleaved = .ok fwd ∧
      backwardInstruction (fun h => some (valueSlot h.id)) interleaved = .ok bwd ∧
      bwd.inputArgPos.Nodup ∧
      fwd.bind unusualStore = .ok [.none, .none, .text "with", .text "zero", .none] ∧
      bwd.bind unusualStore = .ok [.none, .none, .real 5, .text "with", .text "zero", .none] := by
  obtain ⟨fwd, bwd, hfwd, hbwd, -, hbind, -, hplaces⟩ := @adjoint_gets_inserted_derivative _
    (fun h => some (valueSlot h.id)) interleaved fun _ _ => rfl
  have hbound : fwd.bind unusualStore
      = .ok [.none, .none, .text "with", .text "zero", .none] := by
    cases hfwd
    rfl
  refine ⟨fwd, bwd, hfwd, hbwd, hplaces.distinct, hbound, ?_⟩
  rw [hbind, hbound]
  rfl

end SlotGrad
