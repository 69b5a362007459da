import Mathlib.Data.List.DropRight
import SlotGrad.Proofs.AssembledNets

/-!
# Which derivatives of constants a layer counts

A layer counts one derivative for each argument up to its last node, or as many as it was told.
Where constants stand among the arguments that are counted, the adjoint answers derivatives that
nobody reads, and the check on derivative counts notes it.  The check only sees the backward
instruction, whose places are moved on behind the derivative of the output.  It moves them back, so
what it notes are places of the layer's own arguments: all constants that are counted, and nothing
else.

## Main definitions

* `Application.count`, `Count.number` — how many derivatives a layer counts.
* `Application.countedConstants` — the places of the constants that are counted.
* `Placed.derCountNote` — what is to be noted of a layer.

## Main results

* `valuePositions_shifted` — the places of an instruction, moved back, are those of the arguments.
* `inferredCount_operandSlots` — the inferred count reaches to the last node.
* `coveredConstants_backwardOf` — what the check reads off the backward instruction of a layer.
* `notes_list_counted_constants` — **the check notes exactly the constants that are counted.**
-/

namespace SlotGrad

variable {F : Type}

/-! ### What a layer counts -/

/-- An argument that is no node. -/
def Value.isConstant (v : Value F) : Bool := v.node?.isNone

/-- The derivatives that a layer counts: as many as it was told, or one for each argument up to the
last node. -/
def Application.count (a : Application F) : Count F :=
  a.derCount.getD (.whole (a.args.rdropWhile Value.isConstant).length)

/-- A derivative count as an integer; a flag counts as one or none. -/
def Count.number : Count F → Int
  | whole n => n
  | flag b => if b then 1 else 0
  | real _ => 0

/-- The places of the constants among the first arguments of a layer, as many as are counted. -/
def Application.countedConstants (a : Application F) : List Nat :=
  (List.range (min a.count.number a.args.length).toNat).filter fun k =>
    (a.args[k]?).any Value.isConstant

theorem Application.mem_countedConstants {a : Application F} {k : Nat} :
    k ∈ a.countedConstants ↔
      (k : Int) < min a.count.number a.args.length ∧ ∃ v, a.args[k]? = some v ∧ v.node? = none := by
  simp [countedConstants, Value.isConstant, Option.any_eq_true]

/-- The places are listed in the order of the arguments. -/
theorem Application.countedConstants_increasing (a : Application F) :
    a.countedConstants.Pairwise (· < ·) :=
  List.pairwise_lt_range.filter _

/-! ### Places moved on and back -/

/-- Places that were moved on by a derivative are moved back to where they were. -/
theorem valuePositions_shifted (insertAt : Nat) (ps : List Int) :
    NetChecks.valuePositions insertAt (ps.map (shifted insertAt)) = ps := by
  unfold NetChecks.valuePositions
  rw [List.map_map, List.map_congr_left (g := id), List.map_id]
  intro p _
  simp only [Function.comp_apply, shifted, id]
  -- A place in front of the derivative is not moved at all; one behind it is moved past it.
  by_cases hp : (insertAt : Int) ≤ p
  · simp [hp, Int.lt_add_one_of_le hp]
  · simp [hp, Int.le_of_lt (Int.not_le.mp hp)]

/-! ### The inferred count -/

/-- The last of increasing places is the one that an inferred count reaches to. -/
theorem inferredCount_concat {ps : List Int} {q : Int} (h : ∀ p ∈ ps, p < q) :
    inferredCount (ps ++ [q]) = q + 1 := by
  have hmax : ∀ (ps : List Int) (p : Int), p ≤ q → (∀ p ∈ ps, p < q) →
      (ps ++ [q]).foldl max p = q := by
    intro ps
    induction ps with
    | nil => intro p hp _; simp [hp]
    | cons p' ps ih =>
      intro p hp hps
      have hp' := hps p' (List.mem_cons_self ..)
      exact ih (max p p') (by omega) fun p hp => hps p (List.mem_cons_of_mem _ hp)
  cases ps with
  | nil => rfl
  | cons p ps =>
    have hp := h p (List.mem_cons_self ..)
    simp only [inferredCount, List.cons_append]
    rw [hmax ps p (by omega) fun p hp => h p (List.mem_cons_of_mem _ hp)]

section

variable {slotOf : Handle → Option Nat}

/-- The inferred count reaches to the last node, if every node has a slot. -/
theorem inferredCount_operandSlots {args : List (Value F)}
    (hlocated : ∀ h, Value.node h ∈ args → (slotOf h).isSome) :
    inferredCount ((operandSlots slotOf 0 args).map Prod.snd)
      = (args.rdropWhile Value.isConstant).length := by
  -- From the right: a constant at the end changes neither side, a node there decides both.
  induction args using List.reverseRecOn with
  | nil => rfl
  | append_singleton args v ih =>
    have ih := ih fun h hh => hlocated h (List.mem_append_left _ hh)
    rw [operandSlots_append, Nat.zero_add, List.rdropWhile_concat]
    cases hv : v.node? with
    | none => simpa [operandSlots, Value.isConstant, hv] using ih
    | some h =>
      obtain ⟨slot, hslot⟩ := Option.isSome_iff_exists.mp
        (hlocated h
          (Value.node?_eq_some.mp hv ▸ List.mem_append_right _ (List.mem_singleton_self v)))
      have hbelow : ∀ p ∈ (operandSlots slotOf 0 args).map Prod.snd, p < (args.length : Int) := by
        intro p hp
        obtain ⟨q, rfl, hq, -⟩ := blank_of_mem_operandSlots hp
        omega
      simp only [operandSlots, hv, hslot, Option.bind_some, List.map_append, List.map_cons,
        List.map_nil, inferredCount_concat hbelow]
      simp [Value.isConstant, hv]

/-- The count of a backward instruction is that of its layer. -/
theorem derCountOf_eq_count {a : Application F}
    (hlocated : ∀ h, Value.node h ∈ a.args → (slotOf h).isSome) :
    derCountOf slotOf a = a.count := by
  unfold derCountOf Application.count
  rw [inferredCount_operandSlots hlocated]

/-- The places of operands are those of the arguments that are nodes. -/
theorem place_mem_operandSlots {args : List (Value F)} {k : Nat} {v : Value F}
    (hlocated : ∀ h, Value.node h ∈ args → (slotOf h).isSome) (hv : args[k]? = some v) :
    (k : Int) ∈ (operandSlots slotOf 0 args).map Prod.snd ↔ v.isConstant = false := by
  constructor
  · intro hk
    obtain ⟨b, hb, hplace⟩ := List.mem_map.mp hk
    obtain ⟨q, h, slot, hq, -, rfl⟩ := mem_operandSlots.mp hb
    obtain rfl : k = q := by simpa using hplace.symm
    cases hv.symm.trans hq
    rfl
  · intro hconstant
    obtain ⟨h, hh⟩ : ∃ h, v.node? = some h := by
      simpa [Value.isConstant, Option.isSome_iff_exists] using hconstant
    obtain rfl := Value.node?_eq_some.mp hh
    obtain ⟨slot, hslot⟩ := Option.isSome_iff_exists.mp (hlocated h (List.mem_of_getElem? hv))
    exact List.mem_map.mpr ⟨_, mem_operandSlots.mpr ⟨k, h, slot, hv, hslot, rfl⟩, by simp⟩

end

/-! ### What the check finds -/

section

variable [Arith F] {slotOf : Handle → Option Nat}

/-- A count that is no real number is compared as an integer. -/
theorem least_covered {i : Instruction F} {c : Count F} (hcount : i.derCount = some c)
    (hwhole : i.CountsWhole) (n : Int) :
    NetChecks.Count.least (NetChecks.covered i) n = .ok (min c.number n) := by
  have hlesser : ∀ m : Int, (if n < m then n else m) = min m n := by
    intro m
    split <;> omega
  unfold NetChecks.covered
  rw [hcount]
  cases c with
  | whole m =>
    by_cases hm : m = 0
    · simp [hm, Count.isActive, NetChecks.Count.least, Count.number, hlesser]
    · simp [hm, Count.isActive, NetChecks.Count.least, Count.number, hlesser]
  | flag b => cases b <;> simp [Count.isActive, NetChecks.Count.least, Count.number, hlesser]
  | real x => exact absurd hcount (hwhole x)

variable {p : Placed F} (hlocated : ∀ h, Value.node h ∈ p.layer.args → (slotOf h).isSome)
  (hwhole : p.layer.CountsWhole)

include hlocated hwhole

/-- The check reads the constants that a layer counts off its backward instruction. -/
theorem coveredConstants_backwardOf :
    NetChecks.coveredConstants (backwardOf slotOf p) = .ok p.layer.countedConstants := by
  have hpositions : (backwardOf slotOf p).inputArgPos
      = ((operandSlots slotOf 0 p.layer.args).map Prod.snd).map (shifted (seedPlace p.layer.args))
        ++ [(seedPlace p.layer.args : Int)] := by
    rw [← adjointOperands_snd]
    rfl
  have hlength : (((backwardOf slotOf p).args.length : Nat) : Int) - 1 = p.layer.args.length := by
    rw [args_backwardOf, List.length_insertIdx_of_le_length (by simp [seedPlace_le])]
    simp
  have hcount : (backwardOf slotOf p).derCount = some p.layer.count :=
    congrArg some (derCountOf_eq_count hlocated)
  unfold NetChecks.coveredConstants
  rw [hpositions, List.getLast?_concat, List.dropLast_concat, Fallible.ofOption_some, ok_bind,
    valuePositions_shifted, hlength, least_covered hcount (hwhole.backwardOf slotOf), ok_bind]
  refine congrArg Except.ok (List.filter_congr fun k hk => ?_)
  -- A place that is counted is that of an argument, which is a node or a constant.
  have hk : k < p.layer.args.length := by
    have := List.mem_range.mp hk
    omega
  have hplace := place_mem_operandSlots hlocated (List.getElem?_eq_getElem hk)
  rw [List.getElem?_eq_getElem hk, Option.any_some]
  cases hconstant : p.layer.args[k].isConstant <;> simp_all

end

/-! ### Notes -/

section

variable [Arith F] [Interchange F]

/-- What is to be noted of a layer: the constants that it counts, if it counts any. -/
def Placed.derCountNote (p : Placed F) : Option Finding :=
  if p.layer.countedConstants = [] then none
  else some ⟨NetChecks.derCountCheck, .info, "Layer '" ++ p.name ++ "' expects "
    ++ p.layer.count.value.shown ++ " derivatives from '" ++ p.layer.op.name
    ++ "', including constant argument position(s) ["
    ++ ", ".intercalate (p.layer.countedConstants.map fun k => toString k) ++ "]"⟩

/-- Something is to be noted of a layer exactly if it counts a constant. -/
theorem Placed.isSome_derCountNote (p : Placed F) :
    p.derCountNote.isSome ↔ ∃ (k : Nat) (v : Value F),
      (k : Int) < min p.layer.count.number p.layer.args.length ∧ p.layer.args[k]? = some v ∧
        v.node? = none := by
  have hany : (∃ (k : Nat) (v : Value F),
      (k : Int) < min p.layer.count.number p.layer.args.length ∧ p.layer.args[k]? = some v ∧
        v.node? = none) ↔ ∃ k, k ∈ p.layer.countedConstants := by
    simp only [Application.mem_countedConstants, exists_and_left]
  rw [hany, derCountNote]
  by_cases hnone : p.layer.countedConstants = []
  · simp [hnone]
  · simpa [hnone] using List.exists_mem_of_ne_nil _ hnone

omit [Interchange F] in
/-- A layer that counts a constant counts at all. -/
theorem Application.isActive_count {a : Application F} (h : a.countedConstants ≠ []) :
    a.count.isActive = true := by
  obtain ⟨k, hk⟩ := List.exists_mem_of_ne_nil _ h
  obtain ⟨hlt, -⟩ := mem_countedConstants.mp hk
  cases hcount : a.count with
  | whole n =>
    rw [hcount, Count.number] at hlt
    have hn : n ≠ 0 := by omega
    simp [Count.isActive, hn]
  | flag b =>
    rw [hcount, Count.number] at hlt
    cases b with
    | false => simp at hlt; omega
    | true => rfl
  | real x =>
    rw [hcount, Count.number] at hlt
    omega

/-- The check finds of a backward instruction what is to be noted of its layer. -/
theorem derCountFindings_backwardOf {slotOf : Handle → Option Nat} {p : Placed F}
    (hlocated : ∀ h, Value.node h ∈ p.layer.args → (slotOf h).isSome)
    (hwhole : p.layer.CountsWhole) :
    NetChecks.derCountFindings (backwardOf slotOf p) = .ok p.derCountNote.toList := by
  unfold NetChecks.derCountFindings Placed.derCountNote
  rw [coveredConstants_backwardOf hlocated hwhole, ok_bind]
  by_cases hnone : p.layer.countedConstants = []
  · simp [hnone, pure, Except.pure]
  · -- The number in the text is the layer's count, which is not zero.
    have hcovered : NetChecks.covered (backwardOf slotOf p) = p.layer.count := by
      unfold NetChecks.covered
      rw [show (backwardOf slotOf p).derCount = some p.layer.count from
        congrArg some (derCountOf_eq_count hlocated)]
      simp [p.layer.isActive_count hnone]
    rw [hcovered, if_neg (by simpa using hnone), if_neg hnone]
    rfl

/-- The check on derivative counts finds what is to be noted of the layers, in the order of the
backward stream. -/
theorem Streams.inferredDerCount_eq {nodes : List (Node F)} {layers : List (Placed F)}
    {net : CompiledNet F} (hs : Streams nodes layers net)
    (hcounts : ∀ k a, (k, a) ∈ layersOf nodes → a.CountsWhole) :
    NetChecks.inferredDerCount net = .ok (layers.reverse.filterMap Placed.derCountNote) := by
  have hfound : net.backward.mapM NetChecks.derCountFindings
      = .ok (layers.reverse.map fun p => p.derCountNote.toList) := by
    rw [mapM_eq_ok, hs.backward, List.forall₂_map_left_iff, List.forall₂_map_right_iff,
      List.forall₂_same]
    intro p hp
    have hp := List.mem_reverse.mp hp
    exact derCountFindings_backwardOf (hs.located p hp) (hcounts _ _ (hs.mem_layersOf hp))
  unfold NetChecks.inferredDerCount
  rw [hfound, ok_bind, List.filterMap_eq_flatMap_toList]
  rfl

/-- **The check on derivative counts notes exactly the constants that are counted.**  A compiled net
whose layers were told no count, or an integer one.  The check notes something of a layer exactly if
a constant stands at one of the places that the layer counts, and then lists all these places in
the order of the layer's own arguments.  The notes have the order of the backward stream, and there
are no others. -/
theorem notes_list_counted_constants {checks : Checks F} {known : Node F → Bool}
    {nodes : List (Node F)} {roots : Option (List Handle)} {options : Options F}
    {c : Compilation F} (hc : compileNodes checks known nodes roots options = .ok c)
    (hcounts : ∀ k a, (k, a) ∈ layersOf nodes → a.CountsWhole) :
    ∃ layers, Streams nodes layers c.net ∧
      NetChecks.inferredDerCount c.net = .ok (layers.reverse.filterMap Placed.derCountNote) ∧
      ∀ p ∈ layers,
        (p.derCountNote.isSome ↔ ∃ (k : Nat) (v : Value F),
          (k : Int) < min p.layer.count.number p.layer.args.length ∧
            p.layer.args[k]? = some v ∧ v.node? = none) ∧
        p.layer.countedConstants.Pairwise (· < ·) ∧
        ∀ k : Nat, k ∈ p.layer.countedConstants ↔
          (k : Int) < min p.layer.count.number p.layer.args.length ∧
            ∃ v, p.layer.args[k]? = some v ∧ v.node? = none := by
  obtain ⟨-, layers, hs⟩ := compileNodes_streams hc
  refine ⟨layers, hs, hs.inferredDerCount_eq hcounts, ?_⟩
  intro p _
  exact ⟨p.isSome_derCountNote, p.layer.countedConstants_increasing,
    fun k => Application.mem_countedConstants⟩

end

/-- An input and a number added, and a layer that is told to count more derivatives than it has
arguments: a number, the sum, a text, a number and the input. -/
def mixedSum : List (Node ℚ) :=
  [⟨0, bareLabel, .input⟩,
    ⟨1, bareLabel, .layer ⟨Builtin.plus.op, [.real 2, .node ⟨0, .input, ""⟩], [], .same, .same, [],
      none⟩⟩,
    ⟨2, bareLabel, .layer ⟨⟨"mix", Fn.plain "nn_mix", none, true, 0⟩, [.real 2,
      .node ⟨1, .layer, ""⟩, .text "with", .real 3, .node ⟨0, .input, ""⟩], [], .same, .same, [],
      some (.whole 7)⟩⟩]

theorem notes_list_counted_constants_mixed_sum :
    ∃ c layers, compileNodes [] (fun _ => true) mixedSum none plainOptions = .ok c ∧
      (∀ k a, (k, a) ∈ layersOf mixedSum → a.CountsWhole) ∧ Streams mixedSum layers c.net ∧
      layers.reverse.filterMap Placed.derCountNote =
        [⟨"inferred_der_count", .info, "Layer 'mix1' expects 7 derivatives from 'mix', "
            ++ "including constant argument position(s) [0, 2, 3]"⟩,
          ⟨"inferred_der_count", .info, "Layer 'plus1' expects 2 derivatives from 'plus', "
            ++ "including constant argument position(s) [0]"⟩] := by
  obtain ⟨c, hc⟩ := exists_of_isOk
    (x := compileNodes [] (fun _ => true) mixedSum none plainOptions) rfl
  have hcounts : ∀ k a, (k, a) ∈ layersOf mixedSum → a.CountsWhole := by
    intro k a ha
    have ha : (k, a) ∈ [_, _] := ha
    simp only [List.mem_cons, List.not_mem_nil, or_false] at ha
    rcases ha with ha | ha <;> cases ha <;> intro x hx <;> cases hx
  obtain ⟨layers, hs, hnotes, -⟩ := notes_list_counted_constants hc hcounts
  refine ⟨c, layers, hc, hcounts, hs, Except.ok.inj (hnotes.symm.trans ?_)⟩
  cases hc
  rfl

end SlotGrad
