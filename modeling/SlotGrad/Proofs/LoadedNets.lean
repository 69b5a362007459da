import SlotGrad.Proofs.Assembly
import SlotGrad.Proofs.Contributions
import SlotGrad.Proofs.SavedFiles

/-!
# Nets that are loaded as they were saved

Most values come back as they are.  A net that is made of such values only is loaded as it was
saved, and evaluates as it did before: evaluation looks at the streams, the number of slots and
the slots of parameters, and all of them are there again.  The nodes and their names are not,
but nothing that runs needs them.

The values that do not come back as they are are single elements of double precision.  They come
back as plain numbers, which leave the precision of an operation to the other operand.

## Main definitions

* `Value.Storable`, `Instruction.Storable`, `CompiledNet.Storable` — what comes back as it is.
* `Store.only` — the store that holds some slots only.

## Main results

* `CompiledNet.Storable.of_compile` — a compiled net of storable values is a storable net.
* `Saved.load_restores_net` — a net of storable values is loaded as it was saved, unless the
  path of the weights is too long.
* `Saved.load_restores_compiled` — the same of compiled nets.
* `load_fails_of_long_name` — a net that is saved and cannot be loaded.
* `Saved.loaded_net_evaluates` — a net with storable constants evaluates as it did before saving.
* `loaded_net_loses_precision` — a net with a constant of double precision may not.
-/

namespace SlotGrad

variable {F : Type} [Interchange F]

/-! ### Values that come back as they are -/

namespace Value

/-- The value is built from plain values, arrays and single elements that are not of double
precision. -/
inductive Storable : Value F → Prop where
  | none : Storable .none
  | flag (b : Bool) : Storable (.flag b)
  | integer (n : Int) : Storable (.integer n)
  | real {x : F} (hx : Saved.IsDouble x) : Storable (.real x)
  | text (s : String) : Storable (.text s)
  | list {xs : List (Value F)} (hxs : ∀ x ∈ xs, Storable x) : Storable (.list xs)
  | tuple {xs : List (Value F)} (hxs : ∀ x ∈ xs, Storable x) : Storable (.tuple xs)
  | dict {es : List (String × Value F)} (hkeys : (es.map Prod.fst).Nodup)
    (hes : ∀ e ∈ es, Storable e.2) : Storable (.dict (es.map fun e => (.text e.1, e.2)))
  | slice {a b c : Value F} (ha : Storable a) (hb : Storable b) (hc : Storable c) :
    Storable (.slice a b c)
  | ellipsis : Storable .ellipsis
  | array {t : Tensor F} (ht : t.Exact) : Storable (.array t)
  | scalar {d : Dtype} {x : Elem F d} (hd : d ≠ .float64) (hx : Elem.Exact d x) :
    Storable (.scalar d x)

theorem Storable.lawful {v : Value F} (hv : v.Storable) : v.Lawful := by
  induction hv with
  | none => exact .none
  | flag b => exact .flag b
  | integer n => exact .integer n
  | real hx => exact .real hx
  | text s => exact .text s
  | list _ ih => exact .list ih
  | tuple _ ih => exact .tuple ih
  | @dict es hkeys _ ih =>
    refine .dict ?_ fun e he => ?_
    · have htexts : Function.Injective (Value.text : String → Value F) := fun _ _ h => by
        cases h
        rfl
      have hmap : (es.map fun e => ((.text e.1 : Value F), e.2)).map Prod.fst
          = (es.map Prod.fst).map .text := by
        rw [List.map_map, List.map_map]
        rfl
      rw [hmap]
      exact hkeys.map htexts
    · obtain ⟨entry, hentry, rfl⟩ := List.mem_map.mp he
      exact ih entry hentry
  | slice _ _ _ iha ihb ihc => exact .slice iha ihb ihc
  | ellipsis => exact .ellipsis
  | array ht => exact .array ht
  | scalar _ hx => exact .scalar hx

/-- **A storable value comes back as it is.** -/
theorem Storable.saved_eq {v : Value F} (hv : v.Storable) : v.saved = v := by
  induction hv with
  | list _ ih => rw [saved, savedAll_eq_map, List.map_congr_left ih, List.map_id']
  | tuple _ ih => rw [saved, savedAll_eq_map, List.map_congr_left ih, List.map_id']
  | dict _ _ ih =>
    rw [saved, savedEntries_eq_map, List.map_map]
    congr 1
    refine List.map_congr_left fun e he => ?_
    change (_, e.2.saved) = _
    rw [ih e he]
  | slice _ _ _ iha ihb ihc => rw [saved, iha, ihb, ihc]
  | @scalar d x hd =>
    cases d with
    | float64 => exact absurd rfl hd
    | _ => rfl
  | _ => rfl

/-- The value is a plain number, real ones being doubles. -/
def IsSetting : Value F → Prop
  | .flag _ => True
  | .integer _ => True
  | .real x => Saved.IsDouble x
  | _ => False

theorem IsSetting.lawful {v : Value F} (hv : v.IsSetting) : v.Lawful := by
  cases v with
  | flag b => exact .flag b
  | integer n => exact .integer n
  | real x => exact .real hv
  | _ => cases hv

/-- A plain number comes back as it is without a tag, too. -/
theorem IsSetting.savedSetting_eq {v : Value F} (hv : v.IsSetting) : v.savedSetting = v := by
  cases v with
  | flag b => rfl
  | integer n => rfl
  | real x => rfl
  | _ => cases hv

end Value

/-! ### Nets that come back as they are -/

/-- An instruction whose constants come back as they are. -/
structure Instruction.Storable (i : Instruction F) : Prop where
  /-- The constants among the arguments. -/
  args : ∀ v ∈ i.args, v.Storable
  /-- No argument is named twice. -/
  names : (i.kwargs.map Prod.fst).Nodup
  /-- The arguments by name. -/
  kwargs : ∀ p ∈ i.kwargs, p.2.Storable
  /-- The number of derivatives, if it is a real one. -/
  count : ∀ x, i.derCount = some (.real x) → Saved.IsDouble x

namespace Instruction.Storable

variable {i : Instruction F}

theorem lawful (hi : i.Storable) : i.Lawful where
  args v hv := (hi.args v hv).lawful
  names := hi.names
  kwargs p hp := (hi.kwargs p hp).lawful
  count := hi.count

theorem saved_eq (hi : i.Storable) : i.saved = i := by
  have hargs : i.args.map Value.saved = i.args := by
    rw [List.map_congr_left fun v hv => (hi.args v hv).saved_eq, List.map_id']
  have hkwargs : (i.kwargs.map fun p => (p.1, p.2.saved)) = i.kwargs := by
    rw [List.map_congr_left fun p hp => by rw [(hi.kwargs p hp).saved_eq], List.map_id']
  unfold saved
  rw [hargs, hkwargs]

end Instruction.Storable

/-- Storable instructions come back as they are. -/
theorem Instruction.map_saved {is : List (Instruction F)} (his : ∀ i ∈ is, i.Storable) :
    is.map Instruction.saved = is := by
  rw [List.map_congr_left fun i hi => (his i hi).saved_eq, List.map_id']

/-- Streams of storable instructions come back as they are. -/
theorem CompiledNet.saved_streams {c : CompiledNet F}
    (h : ∀ i ∈ c.forward ++ c.backward ++ c.test, i.Storable) :
    c.saved.forward = c.forward ∧ c.saved.backward = c.backward ∧ c.saved.test = c.test := by
  simp only [List.mem_append] at h
  exact ⟨Instruction.map_saved fun i hi => h i (.inl (.inl hi)),
    Instruction.map_saved fun i hi => h i (.inl (.inr hi)),
    Instruction.map_saved fun i hi => h i (.inr hi)⟩

/-- A net on a store whose values all come back as they are: the values of parameters, the constants
of instructions and the metadata are storable, and settings are plain numbers. -/
structure CompiledNet.Storable (c : CompiledNet F) (s : Store F) : Prop where
  /-- Slots come in pairs. -/
  even : 0 ≤ c.numVars ∧ c.numVars % 2 = 0
  /-- The slots of parameters. -/
  vars : ∀ p ∈ c.params, 0 ≤ p.var ∧ p.var < c.numVars
  /-- No input is named twice. -/
  inputs : (c.inputs.map Prod.fst).Nodup
  /-- The values of parameters. -/
  values : ∀ p ∈ c.params, ∀ v, s.get p.var = .ok v → v.Storable
  /-- The settings of parameters. -/
  settings : ∀ p ∈ c.params, p.weightDecay.IsSetting ∧ p.learningRate.IsSetting
  /-- The metadata. -/
  shared : c.meta.Storable
  /-- The instructions. -/
  instructions : ∀ i ∈ c.forward ++ c.backward ++ c.test, i.Storable

namespace CompiledNet.Storable

variable {c : CompiledNet F} {s : Store F}

theorem lawful (hc : c.Storable s) : c.Lawful s where
  even := hc.even
  vars := hc.vars
  inputs := hc.inputs
  values p hp v hv := (hc.values p hp v hv).lawful
  settings p hp := ⟨(hc.settings p hp).1.lawful, (hc.settings p hp).2.lawful⟩
  shared := hc.shared.lawful
  instructions i hi := (hc.instructions i hi).lawful

/-- All of a storable net comes back as it is, except for its nodes and their names. -/
theorem saved_eq (hc : c.Storable s) : c.saved = { c with names := [], nodes := [] } := by
  obtain ⟨hforward, hbackward, htest⟩ := CompiledNet.saved_streams hc.instructions
  have hparams : c.params.map ParamEntry.saved = c.params := by
    have hparam : ∀ p ∈ c.params, p.saved = p := by
      intro p hp
      unfold ParamEntry.saved
      rw [(hc.settings p hp).1.savedSetting_eq, (hc.settings p hp).2.savedSetting_eq]
    rw [List.map_congr_left hparam, List.map_id']
  change (⟨c.saved.forward, c.saved.backward, c.saved.test, c.inputs, c.params.map ParamEntry.saved,
    c.diagnostics, c.numVars, c.meta.saved, [], []⟩ : CompiledNet F) = _
  rw [hforward, hbackward, htest, hparams, hc.shared.saved_eq]

end CompiledNet.Storable

/-- The slots of a compiled net come in pairs, and each parameter has one of them. -/
theorem compileNodes_slots [Arith F] {checks : Checks F} {known : Node F → Bool}
    {nodes : List (Node F)} {roots : Option (List Handle)} {options : Options F} {c : Compilation F}
    (h : compileNodes checks known nodes roots options = .ok c) :
    (0 ≤ c.net.numVars ∧ c.net.numVars % 2 = 0) ∧
      ∀ p ∈ c.net.params, 0 ≤ p.var ∧ p.var < c.net.numVars := by
  obtain ⟨-, names, heads, hlen, hnet⟩ := compileNodes_assembled h
  have hnum : c.net.numVars = 2 * nodes.length := (assemble_streams hlen hnet).numVars
  refine ⟨by omega, fun p hp => ?_⟩
  obtain ⟨k, hkind, hvar⟩ := (mem_paramVars hlen hnet).mp (List.mem_map_of_mem hp)
  have hlt : k < nodes.length := by
    obtain ⟨n, hn, -⟩ := Option.map_eq_some_iff.mp hkind
    exact (List.getElem?_eq_some_iff.mp hn).1
  have := valueSlot_lt.mpr hlt
  omega

/-- **A compiled net is storable if its values are**, on every store, provided that its inputs have
different names, which the built-in checks see to. -/
theorem CompiledNet.Storable.of_compile [Arith F] {checks : Checks F} {known : Node F → Bool}
    {nodes : List (Node F)} {roots : Option (List Handle)} {options : Options F} {c : Compilation F}
    (h : compileNodes checks known nodes roots options = .ok c)
    (hinputs : (c.net.inputs.map Prod.fst).Nodup) {s : Store F}
    (hvalues : ∀ p ∈ c.net.params, ∀ v, s.get p.var = .ok v → v.Storable)
    (hsettings : ∀ p ∈ c.net.params, p.weightDecay.IsSetting ∧ p.learningRate.IsSetting)
    (hshared : c.net.meta.Storable)
    (hinstructions : ∀ i ∈ c.net.forward ++ c.net.backward ++ c.net.test, i.Storable) :
    c.net.Storable s where
  even := (compileNodes_slots h).1
  vars := (compileNodes_slots h).2
  inputs := hinputs
  values := hvalues
  settings := hsettings
  shared := hshared
  instructions := hinstructions

/-- The store that is made of storable values holds them and nothing else. -/
theorem Store.content_restored_of_storable {s : Store F} {pairs : Nat}
    {params : List (ParamEntry F)} (hvars : ∀ p ∈ params, 0 ≤ p.var ∧ p.var < 2 * pairs)
    (hvalues : ∀ p ∈ params, ∀ v, s.get p.var = .ok v → v.Storable) (k : Nat) :
    (s.restored pairs (params.map ParamEntry.var)).content k
      = if ∃ p ∈ params, p.var = k then s.content k else .none := by
  rw [Store.content_restored]
  by_cases hk : ∃ p ∈ params, p.var = k
  · obtain ⟨p, hp, hvar⟩ := hk
    have hmem : (k : Int) ∈ params.map ParamEntry.var := List.mem_map.mpr ⟨p, hp, hvar⟩
    have hlt := (hvars p hp).2
    rw [if_pos ⟨by omega, hmem⟩, if_pos ⟨p, hp, hvar⟩]
    by_cases hsize : k < s.size
    · exact (hvalues p hp _ (hvar ▸ Store.get_natCast hsize)).saved_eq
    · rw [Store.content_of_le (by omega)]
      rfl
  · have hmem : (k : Int) ∉ params.map ParamEntry.var := fun h => hk (List.mem_map.mp h)
    rw [if_neg fun h => hmem h.2, if_neg hk]

/-! ### Loading -/

section

variable [Arith F]

/-- A net whose values are storable is loaded as it was saved, if the path of the weights is not too
long. -/
theorem Saved.load_of_storable {r : Registry} {c : CompiledNet F} {s : Store F} (hc : c.Storable s)
    (hops : ∀ i ∈ c.forward ++ c.backward ++ c.test, r.find? i.op.name = some i.op)
    {p : FilePath} {d : Directory} (hsave : (save c s p d).error = none)
    (hfits : d.Fits (p.withSuffix weightsSuffix)) :
    ∃ t, load r p (save c s p d).state = .ok ({ c with names := [], nodes := [] }, t) ∧
      (t.size : Int) = c.numVars ∧
      ∀ k : Nat, t.content k = if ∃ q ∈ c.params, q.var = k then s.content k else .none := by
  have heven := hc.even
  refine ⟨_, hc.saved_eq ▸ load_save hc.lawful hops hsave hfits, ?_, fun k => ?_⟩
  · rw [Store.size_restored]
    omega
  · refine Store.content_restored_of_storable (fun q hq => ?_) hc.values k
    have hvar := hc.vars q hq
    omega

/-- **A net whose values are storable is loaded as it was saved**, whatever files there were
before, exactly if the path of the weights is not too long.  Where there are weights, saving
needs that as well; a net without arrays is saved all the same, and loading it fails. -/
theorem Saved.load_restores_net {r : Registry} {c : CompiledNet F} {s : Store F} (hc : c.Storable s)
    (hops : ∀ i ∈ c.forward ++ c.backward ++ c.test, r.find? i.op.name = some i.op)
    {p : FilePath} {d : Directory} (hsave : (save c s p d).error = none) :
    (d.Fits (p.withSuffix weightsSuffix) →
      ∃ t, load r p (save c s p d).state = .ok ({ c with names := [], nodes := [] }, t) ∧
        (t.size : Int) = c.numVars ∧
        ∀ k : Nat, t.content k = if ∃ q ∈ c.params, q.var = k then s.content k else .none) ∧
    (¬d.Fits (p.withSuffix weightsSuffix) →
      load (F := F) r p (save c s p d).state = .error (.fault .nameTooLong)) :=
  ⟨load_of_storable hc hops hsave, load_save_of_not_fits hc.lawful hops hsave⟩

/-- **A compiled net whose values are storable is loaded as it was saved**, on whatever store. -/
theorem Saved.load_restores_compiled {checks : Checks F} {known : Node F → Bool}
    {nodes : List (Node F)} {roots : Option (List Handle)} {options : Options F} {c : Compilation F}
    (h : compileNodes checks known nodes roots options = .ok c)
    (hinputs : (c.net.inputs.map Prod.fst).Nodup) {s : Store F}
    (hvalues : ∀ p ∈ c.net.params, ∀ v, s.get p.var = .ok v → v.Storable)
    (hsettings : ∀ p ∈ c.net.params, p.weightDecay.IsSetting ∧ p.learningRate.IsSetting)
    (hshared : c.net.meta.Storable)
    (hinstructions : ∀ i ∈ c.net.forward ++ c.net.backward ++ c.net.test, i.Storable)
    {r : Registry}
    (hops : ∀ i ∈ c.net.forward ++ c.net.backward ++ c.net.test, r.find? i.op.name = some i.op)
    {p : FilePath} {d : Directory} (hsave : (save c.net s p d).error = none)
    (hfits : d.Fits (p.withSuffix weightsSuffix)) :
    ∃ t, load r p (save c.net s p d).state = .ok ({ c.net with names := [], nodes := [] }, t) ∧
      (t.size : Int) = c.net.numVars ∧
      ∀ k : Nat, t.content k = if ∃ q ∈ c.net.params, q.var = k then s.content k else .none :=
  load_of_storable (.of_compile h hinputs hvalues hsettings hshared hinstructions) hops hsave
    hfits

end

/-! ### Evaluation -/

/-- The store that holds some slots only. -/
def Store.only (s : Store F) (vars : List Int) : Store F :=
  ⟨s.slots.mapIdx fun k v => if (k : Int) ∈ vars then v else .none, by simpa using s.even⟩

namespace Store

omit [Interchange F] in
@[simp] theorem size_only (s : Store F) (vars : List Int) : (s.only vars).size = s.size := by
  simp [only, size]

omit [Interchange F] in
theorem content_only (s : Store F) (vars : List Int) (k : Nat) :
    (s.only vars).content k = if (k : Int) ∈ vars then s.content k else .none := by
  unfold content only
  simp only [Array.getElem?_mapIdx]
  cases s.slots[k]? with
  | none => split <;> rfl
  | some v => rfl

/-- The store that is made of storable values of parameters is the one that holds them only. -/
theorem restored_eq_only {s : Store F} {c : CompiledNet F} (hc : c.Lawful s)
    (hvalues : ∀ p ∈ c.params, ∀ v, s.get p.var = .ok v → v.Storable)
    (hsize : (s.size : Int) = c.numVars) :
    s.restored (c.numVars.toNat / 2) c.paramVars = s.only c.paramVars := by
  have heven := hc.even
  refine ext_content (by rw [size_restored, size_only]; omega) fun k => ?_
  rw [content_only]
  refine (content_restored_of_storable (fun p hp => ?_) hvalues k).trans ?_
  · have hvar := hc.vars p hp
    omega
  · exact if_congr (List.mem_map (f := ParamEntry.var)).symm rfl rfl

end Store

section

variable [Arith F]

omit [Interchange F] in
/-- Evaluation looks at the streams, the number of slots and the slots of parameters only. -/
theorem evaluate_congr {c c' : CompiledNet F} (hforward : c'.forward = c.forward)
    (hbackward : c'.backward = c.backward) (htest : c'.test = c.test)
    (hnum : c'.numVars = c.numVars) (hparams : c'.paramVars = c.paramVars) (call : Calls F)
    (mode : Mode) (o : EvalOptions F) (r : RunState F) :
    evaluate call c' mode o r = evaluate call c mode o r := by
  have hseed : seedDers c' o = seedDers c o := by
    unfold seedDers keptSlots
    rw [hparams]
  unfold evaluate checkRequest
  rw [hforward, hbackward, htest, hnum, hseed]

/-- Binding inputs looks at the slots of inputs only. -/
theorem setInputs_congr {c c' : CompiledNet F} (h : c'.inputs = c.inputs) (pairs : List (Value F))
    (named : List (String × Value F)) (s : Store F) :
    c'.setInputs pairs named s = c.setInputs pairs named s := by
  have hslot : c'.inputSlot = c.inputSlot := by
    funext name
    unfold CompiledNet.inputSlot CompiledNet.inputSlot.unknown
    rw [h]
  unfold CompiledNet.setInputs CompiledNet.inputWrites
  rw [hslot]

/-- **A loaded net evaluates like the saved one** whose other slots were emptied, if the
constants of its instructions and the values of its parameters are storable: whatever inputs are
bound, binding them and evaluating end with the same errors and leave the same in every slot. -/
theorem Saved.loaded_net_evaluates {r : Registry} {c : CompiledNet F} {s : Store F}
    (hc : c.Lawful s) (hsize : (s.size : Int) = c.numVars)
    (hconstants : ∀ i ∈ c.forward ++ c.backward ++ c.test, i.Storable)
    (hvalues : ∀ p ∈ c.params, ∀ v, s.get p.var = .ok v → v.Storable)
    (hops : ∀ i ∈ c.forward ++ c.backward ++ c.test, r.find? i.op.name = some i.op)
    {p : FilePath} {d : Directory} (hsave : (save c s p d).error = none)
    (hfits : d.Fits (p.withSuffix weightsSuffix)) :
    ∃ c' t, load r p (save c s p d).state = .ok (c', t) ∧
      ∀ pairs named,
        c'.setInputs pairs named t = c.setInputs pairs named (s.only c.paramVars) ∧
        ∀ call mode o profile,
          evaluate call c' mode o ⟨(c'.setInputs pairs named t).state, [], profile⟩
            = evaluate call c mode o
              ⟨(c.setInputs pairs named (s.only c.paramVars)).state, [], profile⟩ := by
  refine ⟨_, _, load_save hc hops hsave hfits, fun pairs named => ?_⟩
  have hinputs : c.saved.setInputs pairs named (s.restored (c.numVars.toNat / 2) c.paramVars)
      = c.setInputs pairs named (s.only c.paramVars) := by
    rw [Store.restored_eq_only hc hvalues hsize]
    exact setInputs_congr rfl pairs named _
  obtain ⟨hforward, hbackward, htest⟩ := CompiledNet.saved_streams hconstants
  refine ⟨hinputs, fun call mode o profile => ?_⟩
  rw [hinputs]
  refine evaluate_congr hforward hbackward htest rfl ?_ call mode o _
  unfold CompiledNet.paramVars CompiledNet.saved
  rw [List.map_map]
  rfl

end

/-! ### A net with an array -/

section

open Saved

/-- Two numbers in single precision. -/
def singles : Tensor ℚ := ⟨.float32, Grid.ofList [(1 / 2 : ℚ), -2]⟩

/-- A few numbers that have a pattern in both precisions. -/
theorem isDouble_and_isSingle : ∀ x ∈ [(1 / 2 : ℚ), -2, 1, 2, 3, 4], IsDouble x ∧ IsSingle x := by
  have hall : ∀ x ∈ [(1 / 2 : ℚ), -2, 1, 2, 3, 4],
      (Interchange.ofBits (Interchange.toBits x) = x ∧
        ¬ BinaryFormat.double.decode (pattern x) = .nan) ∧ IsSingle x := by
    unfold IsSingle
    decide +kernel
  intro x hx
  obtain ⟨⟨hback, hnan⟩, hsingle⟩ := hall x hx
  exact ⟨⟨hback, fun h => absurd h hnan⟩, hsingle⟩

theorem isDouble_half : IsDouble (1 / 2 : ℚ) := (isDouble_and_isSingle _ (by simp)).1

theorem exact_singles : singles.Exact := by
  have hall : ∀ x ∈ [(1 / 2 : ℚ), -2], IsDouble x ∧ IsSingle x := fun x hx =>
    isDouble_and_isSingle x (List.mem_append_left [1, 2, 3, 4] hx)
  exact hall

/-- An index of the first element only. -/
def firstIndex : Value ℚ := .tuple [.slice .none (.integer 1) .none, .ellipsis]

theorem storable_firstIndex : firstIndex.Storable :=
  .tuple (List.forall_mem_cons.mpr
    ⟨.slice .none (.integer 1) .none, List.forall_mem_singleton.mpr .ellipsis⟩)

/-- An input times a parameter, and an element of the product by an index that is a tuple. -/
def weightedInput : List (Node ℚ) :=
  [⟨0, { bareLabel with name := some "x" }, .input⟩,
    ⟨1, bareLabel, .param ⟨.array singles, .integer 0, .real (1 / 2), .gradient⟩⟩,
    ⟨2, bareLabel, .layer ⟨Builtin.times.op, [.node ⟨0, .input, ""⟩, .node ⟨1, .param, ""⟩], [],
      .same, .same, [], none⟩⟩,
    ⟨3, bareLabel, .layer ⟨Builtin.slice.op,
      [.node ⟨2, .layer, ""⟩, firstIndex], [], .same, .same, [], none⟩⟩]

/-- The templates of its instructions, with the numbers of derivatives. -/
def weightedParts : List (List (Value ℚ) × List (String × Value ℚ) × Option (Count ℚ)) :=
  [([.none, .none], [], none), ([.none, firstIndex], [], none),
    ([.none, firstIndex, .none], [], some (.whole 1)),
    ([.none, .none, .none], [], some (.whole 2)),
    ([.none, .none], [], none), ([.none, firstIndex], [], none)]

theorem storable_of_mem_weightedParts {i : Instruction ℚ}
    (hi : (i.args, i.kwargs, i.derCount) ∈ weightedParts) : i.Storable := by
  have hnone : (Value.none : Value ℚ).Storable := .none
  simp only [weightedParts, List.mem_cons, Prod.mk.injEq, List.not_mem_nil, or_false] at hi
  obtain ⟨hargs, hkwargs, hcount⟩ | ⟨hargs, hkwargs, hcount⟩ | ⟨hargs, hkwargs, hcount⟩ |
    ⟨hargs, hkwargs, hcount⟩ | ⟨hargs, hkwargs, hcount⟩ | ⟨hargs, hkwargs, hcount⟩ := hi
  all_goals
    exact ⟨by simp [hargs, hnone, storable_firstIndex], by simp [hkwargs], by simp [hkwargs],
      by simp [hcount]⟩

/-- The net is storable, its ops are registered, and it is saved. -/
theorem save_weighted_input {c : Compilation ℚ}
    (hc : compileNodes [] (fun _ => true) weightedInput none plainOptions = .ok c) :
    c.net.Storable c.store ∧
      (∀ i ∈ c.net.forward ++ c.net.backward ++ c.net.test,
        Registry.builtin.find? i.op.name = some i.op) ∧
      (save c.net c.store ["model"] .empty).error = none := by
  refine ⟨?_, ?_, ?_⟩
  · refine .of_compile hc ?_ ?_ ?_ ?_ ?_
    all_goals cases hc
    · decide
    · refine List.forall_mem_singleton.mpr fun v hv => ?_
      cases hv
      exact .array exact_singles
    · exact List.forall_mem_singleton.mpr ⟨trivial, isDouble_half⟩
    · exact .none
    · intro i hi
      have hparts : (i.args, i.kwargs, i.derCount) ∈ weightedParts :=
        List.mem_map_of_mem (f := fun i => (i.args, i.kwargs, i.derCount)) hi
      exact storable_of_mem_weightedParts hparts
  · cases hc
    decide
  · obtain ⟨made, hmade⟩ := exists_of_isOk
      (show (NetDocument.ofNet c.net c.store).isOk = true by
        cases hc
        rfl)
    refine save_name Directory.lt_room_empty hmade ?_ (by unfold FileName; decide)
      fun _ => by unfold FileName; decide
    cases hc
    cases hmade
    rfl

theorem load_restores_net_weighted_input :
    ∃ c, compileNodes [] (fun _ => true) weightedInput none plainOptions = .ok c ∧
      (save c.net c.store ["model"] .empty).error = none ∧
      ∃ t, load Registry.builtin ["model"] (save c.net c.store ["model"] .empty).state
          = .ok ({ c.net with names := [], nodes := [] }, t) ∧
        (t.size : Int) = c.net.numVars ∧
        ∀ k : Nat, t.content k
          = if ∃ q ∈ c.net.params, q.var = k then c.store.content k else .none := by
  obtain ⟨c, hc⟩ := exists_of_isOk
    (show (compileNodes [] (fun _ => true) weightedInput none plainOptions).isOk = true from rfl)
  obtain ⟨hstorable, hops, hsave⟩ := save_weighted_input hc
  exact ⟨c, hc, hsave, (load_restores_net hstorable hops hsave).1
    (Directory.fits_stem Directory.lt_room_empty (by decide))⟩

theorem loaded_net_evaluates_weighted_input :
    ∃ c, compileNodes [] (fun _ => true) weightedInput none plainOptions = .ok c ∧
      (save c.net c.store ["model"] .empty).error = none ∧
      ∃ c' t, load Registry.builtin ["model"] (save c.net c.store ["model"] .empty).state
          = .ok (c', t) ∧
        c'.setInputs [] [("x", .real 3)] t
          = c.net.setInputs [] [("x", .real 3)] (c.store.only c.net.paramVars) ∧
        evaluate builtinCalls c' .normal ⟨.real 1, false⟩
            ⟨(c'.setInputs [] [("x", .real 3)] t).state, [], none⟩
          = evaluate builtinCalls c.net .normal ⟨.real 1, false⟩
            ⟨(c.net.setInputs [] [("x", .real 3)] (c.store.only c.net.paramVars)).state, [],
              none⟩ := by
  obtain ⟨c, hc⟩ := exists_of_isOk
    (show (compileNodes [] (fun _ => true) weightedInput none plainOptions).isOk = true from rfl)
  obtain ⟨hstorable, hops, hsave⟩ := save_weighted_input hc
  have hsize : (c.store.size : Int) = c.net.numVars := by
    cases hc
    rfl
  obtain ⟨c', t, hload, heval⟩ := loaded_net_evaluates hstorable.lawful hsize
    hstorable.instructions hstorable.values hops hsave
    (Directory.fits_stem Directory.lt_room_empty (by decide))
  obtain ⟨hinputs, heval⟩ := heval [] [("x", .real 3)]
  exact ⟨c, hc, hsave, c', t, hload, hinputs, heval _ _ _ _⟩

/-- A name of many letters. -/
def letters (n : Nat) : String := String.ofList (List.replicate n 'a')

theorem toList_letters (n : Nat) : (letters n).toList = List.replicate n 'a' := String.toList_ofList

theorem utf8ByteSize_letters (n : Nat) : (letters n).utf8ByteSize = n := by
  induction n with
  | zero => rfl
  | succ n ih =>
    unfold letters at ih ⊢
    rw [List.replicate_succ', String.ofList_append, String.utf8ByteSize_append, ih]
    rfl

theorem stem_letters (n : Nat) : FilePath.stem (letters n) = letters n := by
  refine FilePath.stem_of_not_mem fun h => ?_
  rw [toList_letters] at h
  exact absurd (List.eq_of_mem_replicate h) (by decide)

/-- A net without values. -/
def onlyInput : List (Node ℚ) := [⟨0, bareLabel, .input⟩]

theorem load_fails_of_long_name :
    ∃ c, compileNodes [] (fun _ => true) onlyInput none plainOptions = .ok c ∧
      c.net.Storable c.store ∧
      (∀ i ∈ c.net.forward ++ c.net.backward ++ c.net.test,
        Registry.builtin.find? i.op.name = some i.op) ∧
      (save c.net c.store [letters 250] .empty).error = none ∧
      load (F := ℚ) Registry.builtin [letters 250] (save c.net c.store [letters 250] .empty).state
        = .error (.fault .nameTooLong) := by
  obtain ⟨c, hc⟩ := exists_of_isOk
    (show (compileNodes [] (fun _ => true) onlyInput none plainOptions).isOk = true from rfl)
  -- A net of one input has nothing that could not be stored, and no weights.
  have hstorable : c.net.Storable c.store := by
    refine .of_compile hc ?_ ?_ ?_ ?_ ?_
    all_goals cases hc
    · decide
    · exact fun p hp => by cases hp
    · exact fun p hp => by cases hp
    · exact .none
    · exact fun i hi => by cases hi
  have hops : ∀ i ∈ c.net.forward ++ c.net.backward ++ c.net.test,
      Registry.builtin.find? i.op.name = some i.op := by
    cases hc
    exact fun i hi => by cases hi
  have hdocument : FileName (FilePath.stem (letters 250) ++ documentSuffix) := by
    refine ⟨?_, ?_, ?_⟩
    · rw [stem_letters, String.toList_append, toList_letters]
      intro h
      rcases List.mem_append.mp h with h | h
      · exact absurd (List.eq_of_mem_replicate h) (by decide)
      · exact absurd h (by decide)
    · intro h
      have hbytes := congrArg String.utf8ByteSize h
      rw [String.utf8ByteSize_append] at hbytes
      exact absurd (Nat.eq_zero_of_add_eq_zero_left hbytes) (by decide)
    · rw [stem_letters, String.utf8ByteSize_append, utf8ByteSize_letters]
      decide
  have hsave : (save c.net c.store [letters 250] .empty).error = none := by
    obtain ⟨made, hmade⟩ := exists_of_isOk
      (show (NetDocument.ofNet c.net c.store).isOk = true by
        cases hc
        rfl)
    refine save_name Directory.lt_room_empty hmade ?_ hdocument fun hpos => ?_
    · cases hc
      cases hmade
      rfl
    · cases hc
      cases hmade
      exact absurd hpos (by decide)
  refine ⟨c, hc, hstorable, hops, hsave,
    load_save_of_not_fits hstorable.lawful hops hsave fun hfits => ?_⟩
  have hlength := hfits.2 _ rfl
  change (FilePath.stem (letters 250) ++ weightsSuffix).utf8ByteSize ≤ _ at hlength
  rw [stem_letters, String.utf8ByteSize_append, utf8ByteSize_letters] at hlength
  exact absurd hlength (by decide)

/-- An input times a single element of double precision. -/
def doubledInput : List (Node ℚ) :=
  [⟨0, { bareLabel with name := some "x" }, .input⟩,
    ⟨1, bareLabel, .layer ⟨Builtin.times.op, [.node ⟨0, .input, ""⟩, .scalar .float64 (2 : ℚ)], [],
      .same, .same, [], none⟩⟩]

/-- The templates of its instructions, with the numbers of derivatives. -/
def doubledParts : List (List (Value ℚ) × List (String × Value ℚ) × Option (Count ℚ)) :=
  [([.none, .scalar .float64 (2 : ℚ)], [], none),
    ([.none, .scalar .float64 (2 : ℚ), .none], [], some (.whole 1)),
    ([.none, .scalar .float64 (2 : ℚ)], [], none)]

theorem lawful_of_mem_doubledParts {i : Instruction ℚ}
    (hi : (i.args, i.kwargs, i.derCount) ∈ doubledParts) : i.Lawful := by
  have hnone : (Value.none : Value ℚ).Lawful := .none
  have htwo : (Value.scalar .float64 (2 : ℚ)).Lawful :=
    .scalar (d := .float64) (isDouble_and_isSingle 2 (by simp)).1
  simp only [doubledParts, List.mem_cons, Prod.mk.injEq, List.not_mem_nil, or_false] at hi
  obtain ⟨hargs, hkwargs, hcount⟩ | ⟨hargs, hkwargs, hcount⟩ | ⟨hargs, hkwargs, hcount⟩ := hi
  all_goals
    exact ⟨by simp [hargs, hnone, htwo], by simp [hkwargs], by simp [hkwargs], by simp [hcount]⟩

theorem loaded_net_loses_precision :
    ∃ c, compileNodes [] (fun _ => true) doubledInput none plainOptions = .ok c ∧
      (save c.net c.store ["model"] .empty).error = none ∧
      ∃ c' t, load Registry.builtin ["model"] (save c.net c.store ["model"] .empty).state
          = .ok (c', t) ∧
        (∃ g : Grid ℚ, (evaluate builtinCalls c' .forward ⟨.real 1, false⟩
            ⟨(c'.setInputs [] [("x", .array singles)] t).state, [], none⟩).state.store.content 2
          = .array ⟨.float32, g⟩) ∧
        ∃ g : Grid ℚ, (evaluate builtinCalls c.net .forward ⟨.real 1, false⟩
            ⟨(c.net.setInputs [] [("x", .array singles)] (c.store.only c.net.paramVars)).state, [],
              none⟩).state.store.content 2
          = .array ⟨.float64, g⟩ := by
  obtain ⟨c, hc⟩ := exists_of_isOk
    (show (compileNodes [] (fun _ => true) doubledInput none plainOptions).isOk = true from rfl)
  have hlawful : c.net.Lawful c.store := by
    obtain ⟨heven, hvars⟩ := compileNodes_slots hc
    refine ⟨heven, hvars, ?_, ?_, ?_, ?_, ?_⟩
    all_goals cases hc
    · decide
    · exact fun p hp => by cases hp
    · exact fun p hp => by cases hp
    · exact .none
    · intro i hi
      have hparts : (i.args, i.kwargs, i.derCount) ∈ doubledParts :=
        List.mem_map_of_mem (f := fun i => (i.args, i.kwargs, i.derCount)) hi
      exact lawful_of_mem_doubledParts hparts
  have hops : ∀ i ∈ c.net.forward ++ c.net.backward ++ c.net.test,
      Registry.builtin.find? i.op.name = some i.op := by
    cases hc
    decide
  have hsave : (save c.net c.store ["model"] .empty).error = none := by
    obtain ⟨made, hmade⟩ := exists_of_isOk
      (show (NetDocument.ofNet c.net c.store).isOk = true by
        cases hc
        rfl)
    refine save_name Directory.lt_room_empty hmade ?_ (by unfold FileName; decide)
      fun _ => by unfold FileName; decide
    cases hc
    cases hmade
    decide
  have hfits : Directory.empty.Fits (FilePath.withSuffix ["model"] weightsSuffix) :=
    Directory.fits_stem Directory.lt_room_empty (by decide)
  refine ⟨c, hc, hsave, _, _, load_save hlawful hops hsave hfits, ?_, ?_⟩
  · cases hc
    exact ⟨_, rfl⟩
  · cases hc
    exact ⟨_, rfl⟩

end

end SlotGrad
