import SlotGrad.Program.Edit
import SlotGrad.Proofs.Contributions

/-!
# Nets that pass the checks on slots and bindings

The checks on slots and bindings look at one instruction, input, parameter or monitored node at a
time, so what they establish of a net is a property of each: they find nothing wrong exactly in
the nets that are `CompiledNet.Checked`.  In such a net every instruction can be filled from every
store of the net's size.  The slots that forward instructions write and those of inputs, parameters
and monitored nodes are only looked at for the side of a pair that they are on: a net passes
although they lie outside the store.

## Main definitions

* `Instruction.Paired`, `Instruction.Vacant` — what the checks ask of one instruction.
* `CompiledNet.Checked` — what they ask of a net.
* `Instruction.Fills` — an instruction that a store fills without touching a constant.

## Main results

* `checked_iff` — the checks report no error exactly on checked nets.
* `checked_net_fills` — every instruction of a net that passes is filled at its recorded places.
* `stray_slots_pass` — a net that passes with slots far outside its store.
-/

namespace SlotGrad

variable {F : Type}

/-! ### What the checks ask -/

namespace Instruction

/-- The slots that an instruction reads as values: a backward instruction reads a derivative
last. -/
def valueVars (i : Instruction F) : List Int :=
  if i.isBackward then i.inputVars.dropLast else i.inputVars

/-- An instruction reads slots of a store of the given size, and reads and writes on the right side
of a pair.  Nothing is said about where the slot that it writes lies. -/
structure Paired (numVars : Int) (i : Instruction F) : Prop where
  /-- It reads inside the store. -/
  inside : ∀ v ∈ i.inputVars, 0 ≤ v ∧ v < numVars
  /-- It reads values from value slots. -/
  values : ∀ v ∈ i.valueVars, v % 2 = 0
  /-- Backward, it reads a derivative last. -/
  seed : i.isBackward = true → ∃ v, i.inputVars.getLast? = some v ∧ v % 2 = 1
  /-- Forward, it writes some even slot. -/
  output : i.isBackward = false → ∃ v, i.outputVar = some v ∧ v % 2 = 0

/-- An instruction fills open places of its own with the slots that it reads. -/
structure Vacant (i : Instruction F) : Prop where
  /-- There is one place for each slot. -/
  lengths : i.inputVars.length = i.inputArgPos.length
  /-- No two slots fill one place. -/
  distinct : i.inputArgPos.Nodup
  /-- Each place is one of the template's and holds no constant. -/
  vacant : ∀ p ∈ i.inputArgPos, ∃ k : Nat, p = k ∧ i.args[k]? = some .none

/-- A store fills every recorded place of an instruction with the content of its slot and leaves
all constants as they are. -/
def Fills (s : Store F) (i : Instruction F) : Prop :=
  ∃ args, i.bind s = .ok args ∧ args.length = i.args.length ∧
    (∀ b ∈ i.bindings, args[b.2.toNat]? = some (s.content b.1.toNat)) ∧
    ∀ (k : Nat) (v : Value F), i.args[k]? = some v → v ≠ .none → args[k]? = some v

end Instruction

namespace CompiledNet

/-- All instructions of a net. -/
def instructions (c : CompiledNet F) : List (Instruction F) := c.forward ++ c.backward ++ c.test

/-- What the checks on slots and bindings ask of a net. -/
structure Checked (c : CompiledNet F) : Prop where
  /-- Slots come in pairs. -/
  paired : c.numVars % 2 = 0
  /-- There is one pair for each name, if there are names. -/
  named : c.names ≠ [] → c.numVars = 2 * c.names.length
  /-- Instructions address slots as they should. -/
  slots : ∀ i ∈ c.instructions, i.Paired c.numVars
  /-- Instructions fill open places. -/
  bindings : ∀ i ∈ c.instructions, i.Vacant
  /-- Inputs have even slots. -/
  inputs : ∀ e ∈ c.inputs, e.2 % 2 = 0
  /-- Parameters have even slots. -/
  params : ∀ e ∈ c.params, e.var % 2 = 0
  /-- The two slots of a monitored node are adjacent. -/
  diagnostics : ∀ e ∈ c.diagnostics, e.der = derSlot e.var

end CompiledNet

/-! ### What the checks find -/

namespace NetChecks

@[simp] theorem isDerSlot_eq_false {n : Int} : isDerSlot n = false ↔ n % 2 = 0 := by
  simp [isDerSlot]

@[simp] theorem isDerSlot_eq_true {n : Int} : isDerSlot n = true ↔ n % 2 = 1 := by
  simp only [isDerSlot, bne_iff_ne, ne_eq]
  omega

/-- The checks look at the instructions of all streams. -/
theorem map_allLocated (c : CompiledNet F) :
    (allLocated c).map Prod.snd = c.instructions := by
  have hlocated : ∀ stream : String × List (Instruction F),
      (located stream).map Prod.snd = stream.2 := by
    intro stream
    simp [located, Function.comp_def]
  simp [allLocated, CompiledNet.streams, CompiledNet.instructions, hlocated]

theorem exists_mem_allLocated {c : CompiledNet F} {i : Instruction F} :
    (∃ place, (place, i) ∈ allLocated c) ↔ i ∈ c.instructions := by
  rw [← map_allLocated, List.mem_map]
  constructor
  · rintro ⟨place, h⟩
    exact ⟨_, h, rfl⟩
  · rintro ⟨⟨place, j⟩, h, rfl⟩
    exact ⟨place, h⟩

theorem storeFindings_eq_nil {c : CompiledNet F} :
    storeFindings c = [] ↔
      c.numVars % 2 = 0 ∧ (c.names ≠ [] → c.numVars = 2 * c.names.length) := by
  unfold storeFindings
  by_cases hder : isDerSlot c.numVars
  · have hodd := isDerSlot_eq_true.mp hder
    simp [hder, hodd]
  · have heven := isDerSlot_eq_false.mp (Bool.eq_false_iff.mpr hder)
    simp only [hder, heven, Bool.false_or, ite_eq_right_iff, reduceCtorEq, imp_false]
    simp

theorem outsideFindings_eq_nil {numVars : Int} {place : String} {i : Instruction F} :
    outsideFindings numVars place i = [] ↔ ∀ v ∈ i.inputVars, 0 ≤ v ∧ v < numVars := by
  simp [outsideFindings]

theorem derReadFindings_eq_nil {place : String} {vars : List Int} :
    derReadFindings place vars = [] ↔ ∀ v ∈ vars, v % 2 = 0 := by
  simp [derReadFindings]

theorem seedFindings_eq_nil {place : String} {i : Instruction F} :
    seedFindings place i = [] ↔ ∃ v, i.inputVars.getLast? = some v ∧ v % 2 = 1 := by
  unfold seedFindings
  cases i.inputVars.getLast? with
  | none => simp
  | some v => cases hv : isDerSlot v <;> simp [hv, ← isDerSlot_eq_true]

theorem outputFindings_eq_nil {place : String} {i : Instruction F} :
    outputFindings place i = [] ↔ ∃ v, i.outputVar = some v ∧ v % 2 = 0 := by
  unfold outputFindings
  cases i.outputVar with
  | none => simp
  | some v => simp

/-- Nothing is wrong with the slots of one instruction exactly if it is paired. -/
theorem instructionFindings_eq_nil {numVars : Int} {place : String} {i : Instruction F} :
    instructionFindings numVars (place, i) = [] ↔ i.Paired numVars := by
  unfold instructionFindings
  cases hback : i.isBackward with
  | true =>
    simp only [hback, if_true, List.append_eq_nil_iff, outsideFindings_eq_nil, seedFindings_eq_nil,
      derReadFindings_eq_nil]
    constructor
    · rintro ⟨hinside, hseed, hvalues⟩
      exact ⟨hinside, by simpa [Instruction.valueVars, hback] using hvalues, fun _ => hseed,
        by simp [hback]⟩
    · rintro ⟨hinside, hvalues, hseed, -⟩
      exact ⟨hinside, hseed hback, by simpa [Instruction.valueVars, hback] using hvalues⟩
  | false =>
    simp only [hback, Bool.false_eq_true, if_false, List.append_eq_nil_iff, outsideFindings_eq_nil,
      outputFindings_eq_nil, derReadFindings_eq_nil]
    constructor
    · rintro ⟨hinside, houtput, hvalues⟩
      exact ⟨hinside, by simpa [Instruction.valueVars, hback] using hvalues, by simp [hback],
        fun _ => houtput⟩
    · rintro ⟨hinside, hvalues, -, houtput⟩
      exact ⟨hinside, houtput hback, by simpa [Instruction.valueVars, hback] using hvalues⟩

theorem registryFindings_eq_nil {c : CompiledNet F} :
    registryFindings c = [] ↔ (∀ e ∈ c.inputs, e.2 % 2 = 0) ∧ (∀ e ∈ c.params, e.var % 2 = 0) ∧
      ∀ e ∈ c.diagnostics, e.der = derSlot e.var := by
  simp [registryFindings]

theorem positionFindings_eq_nil {place : String} {i : Instruction F} {p : Int} :
    positionFindings place i p = [] ↔ ∃ k : Nat, p = k ∧ i.args[k]? = some .none := by
  unfold positionFindings
  by_cases hp : 0 ≤ p ∧ p < i.args.length
  · obtain ⟨k, rfl⟩ := Int.eq_ofNat_of_zero_le hp.1
    have hk : k < i.args.length := by omega
    cases hv : i.args[k] with
    | none => simp [hk, hv]
    | _ => simp [hk, hv, Value.isNone]
  · have hout : ¬∃ k : Nat, p = k ∧ i.args[k]? = some .none := by
      rintro ⟨k, rfl, hk⟩
      have := (List.getElem?_eq_some_iff.mp hk).1
      omega
    rw [if_pos (by simpa [imp_iff_or_not, or_comm] using hp)]
    simp [hout]

/-- Nothing is wrong with the bindings of one instruction exactly if its places are vacant. -/
theorem bindingFindings_eq_nil {place : String} {i : Instruction F} :
    bindingFindings (place, i) = [] ↔ i.Vacant := by
  unfold bindingFindings
  by_cases hlen : i.inputVars.length = i.inputArgPos.length
  · by_cases hnodup : i.inputArgPos.Nodup
    · simp only [hlen, hnodup, ne_eq, not_true_eq_false, if_false, if_true, List.nil_append,
        List.flatMap_eq_nil_iff, positionFindings_eq_nil]
      exact ⟨fun h => ⟨hlen, hnodup, h⟩, fun h => h.vacant⟩
    · simp only [hlen, hnodup, ne_eq, not_true_eq_false, if_false, List.cons_append,
        List.nil_append, reduceCtorEq, false_iff]
      exact fun h => hnodup h.distinct
  · simp only [hlen, ne_eq, not_false_eq_true, if_true, reduceCtorEq, false_iff]
    exact fun h => hlen h.lengths

theorem slotPairing_eq_nil {c : CompiledNet F} :
    slotPairing c = [] ↔ storeFindings c = [] ∧ (∀ i ∈ c.instructions, i.Paired c.numVars) ∧
      registryFindings c = [] := by
  unfold slotPairing
  rw [List.append_eq_nil_iff, List.append_eq_nil_iff, List.flatMap_eq_nil_iff, and_assoc]
  simp only [← exists_mem_allLocated, Prod.forall, instructionFindings_eq_nil,
    forall_exists_index]
  rw [forall_comm]

theorem bindingPositions_eq_nil {c : CompiledNet F} :
    bindingPositions c = [] ↔ ∀ i ∈ c.instructions, i.Vacant := by
  unfold bindingPositions
  rw [List.flatMap_eq_nil_iff]
  simp only [← exists_mem_allLocated, Prod.forall, bindingFindings_eq_nil, forall_exists_index]
  rw [forall_comm]

/-- One error for each of some things that are wrong. -/
theorem severity_of_mem_map {α : Type} {xs : List α} {text : α → String} :
    ∀ f ∈ xs.map fun x => slotError (text x), f.severity = .error :=
  List.forall_mem_map.mpr fun _ _ => rfl

/-- Whatever the check on slots finds is an error. -/
theorem severity_of_mem_slotPairing {c : CompiledNet F} {f : Finding} (h : f ∈ slotPairing c) :
    f.severity = .error := by
  have hinstruction : ∀ p : String × Instruction F,
      ∀ f ∈ instructionFindings c.numVars p, f.severity = .error := by
    rintro ⟨place, i⟩
    refine List.forall_mem_append.mpr ⟨severity_of_mem_map, ?_⟩
    split
    · refine List.forall_mem_append.mpr ⟨?_, severity_of_mem_map⟩
      unfold seedFindings
      split <;> simp [slotError]
    · refine List.forall_mem_append.mpr ⟨?_, severity_of_mem_map⟩
      unfold outputFindings
      split <;> simp [slotError]
  have hstore : ∀ f ∈ storeFindings c, f.severity = .error := by
    unfold storeFindings
    split <;> simp [slotError]
  rcases List.mem_append.mp h with h | h
  · rcases List.mem_append.mp h with h | h
    · exact hstore f h
    · obtain ⟨p, -, hp⟩ := List.mem_flatMap.mp h
      exact hinstruction p f hp
  · rcases List.mem_append.mp h with h | h
    · rcases List.mem_append.mp h with h | h
      · exact severity_of_mem_map f h
      · exact severity_of_mem_map f h
    · exact severity_of_mem_map f h

/-- Whatever the check on bindings finds is an error. -/
theorem severity_of_mem_bindingPositions {c : CompiledNet F} {f : Finding}
    (h : f ∈ bindingPositions c) : f.severity = .error := by
  have hposition : ∀ (place : String) (i : Instruction F) (p : Int),
      ∀ f ∈ positionFindings place i p, f.severity = .error := by
    intro place i p
    unfold positionFindings
    split
    · simp [bindingError]
    · split <;> simp [bindingError]
  obtain ⟨⟨place, i⟩, -, h⟩ := List.mem_flatMap.mp h
  unfold bindingFindings at h
  dsimp only at h
  split at h
  · simp_all [bindingError]
  · rcases List.mem_append.mp h with h | h
    · split at h <;> simp_all [bindingError]
    · obtain ⟨p, -, hp⟩ := List.mem_flatMap.mp h
      exact hposition place i p f hp

/-- The checks on slots and bindings report no error exactly on checked nets. -/
theorem checked_iff {c : CompiledNet F} :
    (∀ f ∈ slotPairing c ++ bindingPositions c, f.severity ≠ .error) ↔ c.Checked := by
  have hnil : (∀ f ∈ slotPairing c ++ bindingPositions c, f.severity ≠ .error) ↔
      slotPairing c = [] ∧ bindingPositions c = [] := by
    rw [← List.append_eq_nil_iff, List.eq_nil_iff_forall_not_mem]
    refine forall_congr' fun f => ⟨fun h hf => h hf ?_, fun h hf => absurd hf h⟩
    rcases List.mem_append.mp hf with hf | hf
    · exact severity_of_mem_slotPairing hf
    · exact severity_of_mem_bindingPositions hf
  rw [hnil, slotPairing_eq_nil, bindingPositions_eq_nil, storeFindings_eq_nil,
    registryFindings_eq_nil]
  constructor
  · rintro ⟨⟨⟨hpaired, hnamed⟩, hslots, hinputs, hparams, hmonitored⟩, hbindings⟩
    exact ⟨hpaired, hnamed, hslots, hbindings, hinputs, hparams, hmonitored⟩
  · rintro ⟨hpaired, hnamed, hslots, hbindings, hinputs, hparams, hmonitored⟩
    exact ⟨⟨⟨hpaired, hnamed⟩, hslots, hinputs, hparams, hmonitored⟩, hbindings⟩

end NetChecks

/-! ### Filling checked instructions -/

/-- One binding inside the store and inside the template fills its place. -/
theorem fillFrom_eq_ok {s : Store F} {args : List (Value F)} {v : Int} {k : Nat}
    (hv : 0 ≤ v ∧ v < s.size) (hk : k < args.length) :
    Instruction.fillFrom s args (v, k) = .ok (args.set k (s.content v.toNat)) := by
  obtain ⟨n, rfl⟩ := Int.eq_ofNat_of_zero_le hv.1
  unfold Instruction.fillFrom
  rw [Store.get_natCast (by omega), ok_bind]
  unfold Instruction.fill
  rw [locate?_natCast hk]
  rfl

/-- Bindings inside the store and at places of their own fill these and no other. -/
theorem foldlM_fillFrom_places {s : Store F} :
    ∀ {bs : List (Int × Int)} {args : List (Value F)}, (∀ b ∈ bs, 0 ≤ b.1 ∧ b.1 < s.size) →
      (∀ b ∈ bs, ∃ k : Nat, b.2 = k ∧ k < args.length) → (bs.map Prod.snd).Nodup →
      ∃ filled, bs.foldlM (Instruction.fillFrom s) args = .ok filled ∧
        filled.length = args.length ∧
        (∀ b ∈ bs, filled[b.2.toNat]? = some (s.content b.1.toNat)) ∧
        ∀ k : Nat, (k : Int) ∉ bs.map Prod.snd → filled[k]? = args[k]? := by
  intro bs
  induction bs with
  | nil =>
    intro args _ _ _
    exact ⟨args, rfl, rfl, by simp, fun _ _ => rfl⟩
  | cons b bs ih =>
    intro args hslots hplaces hnodup
    obtain ⟨v, p⟩ := b
    obtain ⟨k, rfl, hk⟩ := hplaces (v, p) (List.mem_cons_self ..)
    rw [List.map_cons, List.nodup_cons] at hnodup
    obtain ⟨filled, hfilled, hlen, hset, hkept⟩ := @ih (args.set k (s.content v.toNat))
      (fun b hb => hslots b (List.mem_cons_of_mem _ hb))
      (fun b hb => by simpa using hplaces b (List.mem_cons_of_mem _ hb)) hnodup.2
    refine ⟨filled, ?_, by simpa using hlen, ?_, ?_⟩
    · rw [List.foldlM_cons, fillFrom_eq_ok (hslots _ (List.mem_cons_self ..)) hk]
      exact hfilled
    · intro b hb
      rcases List.mem_cons.mp hb with rfl | hb
      · rw [Int.toNat_natCast, hkept k hnodup.1, List.getElem?_set_self hk]
      · exact hset b hb
    · intro j hj
      rw [List.map_cons, List.mem_cons, not_or] at hj
      rw [hkept j hj.2, List.getElem?_set_ne (by omega)]

/-- An instruction with vacant places is filled from every store that has its slots. -/
theorem Instruction.Vacant.fills {i : Instruction F} (h : i.Vacant) {s : Store F}
    (hs : ∀ v ∈ i.inputVars, 0 ≤ v ∧ v < s.size) : i.Fills s := by
  have hplaces : i.bindings.map Prod.snd = i.inputArgPos := List.map_snd_zip h.lengths.ge
  have hinside : ∀ b ∈ i.bindings, ∃ k : Nat, b.2 = k ∧ k < i.args.length := by
    intro b hb
    obtain ⟨k, hk, hvacant⟩ := h.vacant b.2 (List.of_mem_zip hb).2
    exact ⟨k, hk, (List.getElem?_eq_some_iff.mp hvacant).1⟩
  have hdistinct : (i.bindings.map Prod.snd).Nodup := by
    rw [hplaces]
    exact h.distinct
  obtain ⟨filled, hfilled, hlen, hset, hkept⟩ := foldlM_fillFrom_places
    (fun b hb => hs b.1 (List.of_mem_zip hb).1) hinside hdistinct
  refine ⟨filled, hfilled, hlen, hset, ?_⟩
  intro k v hv hconstant
  -- A constant is at no recorded place, since those are vacant.
  have hout : (k : Int) ∉ i.bindings.map Prod.snd := by
    rw [hplaces]
    intro hk
    obtain ⟨j, hj, hvacant⟩ := h.vacant k hk
    obtain rfl : k = j := by omega
    rw [hv] at hvacant
    exact hconstant (Option.some.inj hvacant)
  rw [hkept k hout, hv]

/-- **What the checks on slots and bindings establish.**  If they report no error, the net is
checked, and every store of the net's size fills every recorded place of every instruction and
overwrites no constant. -/
theorem checked_net_fills {c : CompiledNet F}
    (h : ∀ f ∈ NetChecks.slotPairing c ++ NetChecks.bindingPositions c, f.severity ≠ .error) :
    c.Checked ∧ ∀ s : Store F, (s.size : Int) = c.numVars → ∀ i ∈ c.instructions, i.Fills s := by
  have hchecked := NetChecks.checked_iff.mp h
  refine ⟨hchecked, ?_⟩
  intro s hsize i hi
  refine (hchecked.bindings i hi).fills fun v hv => ?_
  rw [hsize]
  exact (hchecked.slots i hi).inside v hv

/-! ### Slots that nothing checks -/

/-- An input times a parameter. -/
def scaledInput : List (Node ℚ) :=
  [⟨0, { bareLabel with name := some "x" }, .input⟩,
    ⟨1, bareLabel, .param ⟨.real 3, .none, .none, .gradient⟩⟩,
    ⟨2, bareLabel, .layer ⟨Builtin.times.op, [.node ⟨0, .input, ""⟩, .node ⟨1, .param, ""⟩], [],
      .same, .same, [], none⟩⟩]

theorem checked_net_fills_scaled_input :
    ∃ c, compileNodes [] (fun _ => true) scaledInput none plainOptions = .ok c ∧
      (∀ f ∈ NetChecks.slotPairing c.net ++ NetChecks.bindingPositions c.net,
        f.severity ≠ .error) ∧
      c.net.Checked ∧ ∀ s : Store ℚ, (s.size : Int) = 6 → ∀ i ∈ c.net.instructions, i.Fills s := by
  obtain ⟨c, hc⟩ := exists_of_isOk
    (show (compileNodes [] (fun _ => true) scaledInput none plainOptions).isOk = true from rfl)
  have hnone : ∀ f ∈ NetChecks.slotPairing c.net ++ NetChecks.bindingPositions c.net,
      f.severity ≠ .error := by
    cases hc
    decide
  obtain ⟨hchecked, hfills⟩ := checked_net_fills hnone
  refine ⟨c, hc, hnone, hchecked, ?_⟩
  cases hc
  exact hfills

/-- The edits that move an output, an input, a parameter and a monitored node out of a net. -/
def strayEdits : List (EditPlace ℚ × Value ℚ) :=
  [(.record "forward" (.integer 0) "output_var", .integer 40),
    (.entry "inputs" (.text "x"), .integer 40),
    (.record "params" (.integer 0) "var", .integer (-40)),
    (.record "diagnostics" (.integer 0) "var", .integer 41),
    (.record "diagnostics" (.integer 0) "der", .integer 42)]

theorem stray_slots_pass :
    ∃ c c', compileNodes [] (fun _ => true) scaledInput none plainOptions = .ok c ∧
      strayEdits.foldlM (fun c e => c.edit e.1 e.2) c.net = .ok c' ∧
      NetChecks.slotPairing c' = [] ∧ NetChecks.bindingPositions c' = [] ∧ c'.numVars = 6 ∧
      c'.forward.map Instruction.outputVar = [some 40] ∧ c'.inputs = [("x", 40)] ∧
      c'.paramVars = [-40] ∧ c'.diagnostics.map (fun d => (d.var, d.der)) = [(41, 42)] := by
  obtain ⟨c, hc⟩ := exists_of_isOk
    (show (compileNodes [] (fun _ => true) scaledInput none plainOptions).isOk = true from rfl)
  cases hc
  refine ⟨_, _, rfl, rfl, ?_⟩
  decide

end SlotGrad
