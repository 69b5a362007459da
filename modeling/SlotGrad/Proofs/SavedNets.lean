import SlotGrad.Proofs.SavedValues
import SlotGrad.Proofs.Streams
import SlotGrad.Saved.Document

/-!
# Nets read back from documents

A document holds a net's streams and registries field by field, each value as its tree.  Reading
goes through the fields in turn, and each gives back what was written; an op is looked up by its
name.  The store that is made holds the values of parameters and nothing else.

## Main definitions

* `Instruction.saved`, `ParamEntry.saved`, `CompiledNet.saved` — what instructions, parameters
  and nets come back as.
* `Store.restored` — the store that holds the saved contents of some slots only.
* `CompiledNet.Lawful` — nets whose values are lawful and whose names are given once.

## Main results

* `NetDocument.ofNet_restores` — the document of a net gives the net back.
-/

namespace SlotGrad

variable {F : Type}

/-! ### What comes back -/

/-- What a number setting comes back as: it is written without tags, and read as a plain value. -/
def Value.savedSetting [Interchange F] (v : Value F) : Value F :=
  (Saved.setting v).merged.value

/-- What a parameter comes back as. -/
def ParamEntry.saved [Interchange F] (p : ParamEntry F) : ParamEntry F :=
  { p with weightDecay := p.weightDecay.savedSetting, learningRate := p.learningRate.savedSetting }

/-- What an instruction comes back as. -/
def Instruction.saved (i : Instruction F) : Instruction F :=
  { i with args := i.args.map Value.saved, kwargs := i.kwargs.map fun p => (p.1, p.2.saved) }

/-- What a net comes back as: its nodes and their names are not saved. -/
def CompiledNet.saved [Interchange F] (c : CompiledNet F) : CompiledNet F where
  forward := c.forward.map Instruction.saved
  backward := c.backward.map Instruction.saved
  test := c.test.map Instruction.saved
  inputs := c.inputs
  params := c.params.map ParamEntry.saved
  diagnostics := c.diagnostics
  numVars := c.numVars
  «meta» := c.meta.saved
  names := []
  nodes := []

/-- A store of the given number of pairs of slots that holds the saved contents of some slots
only. -/
def Store.restored (s : Store F) (pairs : Nat) (vars : List Int) : Store F :=
  ⟨Array.ofFn fun k : Fin (2 * pairs) => if (k : Int) ∈ vars then (s.content k).saved else .none,
    by simp⟩

namespace Store

@[simp] theorem size_restored (s : Store F) (pairs : Nat) (vars : List Int) :
    (s.restored pairs vars).size = 2 * pairs := by
  simp [restored, size]

theorem content_restored (s : Store F) (pairs : Nat) (vars : List Int) (k : Nat) :
    (s.restored pairs vars).content k
      = if k < 2 * pairs ∧ (k : Int) ∈ vars then (s.content k).saved else .none := by
  unfold content restored
  by_cases hk : k < 2 * pairs
  · simp [hk, content]
  · simp [hk]

/-- What is read at a place is its content. -/
theorem eq_content_of_get {s : Store F} {k : Nat} {v : Value F} (h : s.get (k : Int) = .ok v) :
    v = s.content k := by
  by_cases hk : k < s.size
  · rw [get_natCast hk] at h
    exact (Except.ok.inj h).symm
  · unfold get locate? at h
    rw [if_neg (by omega), if_neg (by omega)] at h
    cases h

/-- Without slots to keep, nothing is set. -/
theorem restored_nil (s : Store F) (pairs : Nat) : s.restored pairs [] = unset pairs := by
  refine ext_content (by simp) fun k => ?_
  rw [content_restored]
  unfold content unset
  simp [Array.getElem?_replicate]
  split <;> rfl

/-- One slot more. -/
theorem restored_append (s : Store F) (vars : List Int) {pairs k : Nat} (hk : k < 2 * pairs) :
    s.restored pairs (vars ++ [(k : Int)]) = (s.restored pairs vars).setAt k
        (s.content k).saved := by
  refine ext_content (by simp) fun j => ?_
  rw [content_restored]
  by_cases hj : j = k
  · subst hj
    rw [content_setAt_self (by simpa using hk)]
    simp [hk]
  · rw [content_setAt_of_ne _ hj, content_restored]
    simp [hj]

end Store

/-! ### Lawful nets -/

section

variable [Interchange F]

/-- An instruction whose constants are lawful. -/
structure Instruction.Lawful (i : Instruction F) : Prop where
  /-- The constants among the arguments. -/
  args : ∀ v ∈ i.args, v.Lawful
  /-- No argument is named twice. -/
  names : (i.kwargs.map Prod.fst).Nodup
  /-- The arguments by name. -/
  kwargs : ∀ p ∈ i.kwargs, p.2.Lawful
  /-- The number of derivatives, if it is a real one. -/
  count : ∀ x, i.derCount = some (.real x) → Saved.IsDouble x

/-- A net whose values, those of its parameters in a store included, are lawful, in which no
input is named twice, and in which parameters have slots. -/
structure CompiledNet.Lawful (c : CompiledNet F) (s : Store F) : Prop where
  /-- Slots come in pairs. -/
  even : 0 ≤ c.numVars ∧ c.numVars % 2 = 0
  /-- The slots of parameters. -/
  vars : ∀ p ∈ c.params, 0 ≤ p.var ∧ p.var < c.numVars
  /-- No input is named twice. -/
  inputs : (c.inputs.map Prod.fst).Nodup
  /-- The values of parameters. -/
  values : ∀ p ∈ c.params, ∀ v, s.get p.var = .ok v → v.Lawful
  /-- The settings of parameters. -/
  settings : ∀ p ∈ c.params, p.weightDecay.Lawful ∧ p.learningRate.Lawful
  /-- The metadata. -/
  shared : c.meta.Lawful
  /-- The instructions. -/
  instructions : ∀ i ∈ c.forward ++ c.backward ++ c.test, i.Lawful

end

namespace Saved

/-! ### Settings -/

section

variable [Interchange F]

theorem settings_eq_map (xs : List (Value F)) : settings xs = xs.map setting := by
  induction xs with
  | nil => rfl
  | cons x xs ih => rw [settings, ih, List.map_cons]

theorem doubles_settingEntries {es : List (Value F × Value F)}
    (hes : ∀ e ∈ es, (setting e.2).Doubles) {done : List (String × Json F)}
    (hdone : ∀ e ∈ done, e.2.Doubles) : (settingEntries done es).Doubles := by
  induction es generalizing done with
  | nil =>
    rw [settingEntries]
    exact .object hdone
  | cons e es ih =>
    obtain ⟨k, x⟩ := e
    rw [settingEntries]
    split
    · refine ih (fun e he => hes e (List.mem_cons_of_mem _ he)) fun e he => ?_
      rcases List.mem_append.mp he with he | he
      · exact hdone e he
      · cases List.mem_singleton.mp he
        exact hes _ List.mem_cons_self
    · exact .cut hdone _

/-- The real numbers of a setting's tree are those of the setting. -/
theorem doubles_setting {v : Value F} (hv : v.Lawful) : (setting v).Doubles := by
  induction hv with
  | none => exact .null
  | flag b => exact .bool b
  | integer n => exact .integer n
  | real hx => exact .real hx
  | text s => exact .text s
  | list _ ih =>
    rw [setting, settings_eq_map]
    refine .array fun j hj => ?_
    obtain ⟨x, hx, rfl⟩ := List.mem_map.mp hj
    exact ih x hx
  | tuple _ ih =>
    rw [setting, settings_eq_map]
    refine .array fun j hj => ?_
    obtain ⟨x, hx, rfl⟩ := List.mem_map.mp hj
    exact ih x hx
  | dict _ _ ih =>
    rw [setting]
    exact doubles_settingEntries ih (by simp)
  | @scalar d x hx =>
    cases d with
    | bool => exact .refused _
    | int32 => exact .integer _
    | int64 => exact .integer _
    | float32 => exact .real hx.1
    | float64 => exact .real hx
  | _ => exact .refused _

end

namespace NetDocument

/-! ### Fields -/

theorem readIntegers_integers (ns : List Int) : readIntegers (integers ns : Json F) = .ok ns :=
  mapM_asInt_integer ns

theorem merged_integers (ns : List Int) : (integers ns : Json F).merged = integers ns := by
  unfold integers
  rw [Json.merged_array, List.map_map]
  rfl

theorem readCount_countJson (c : Option (Count F)) : readCount (countJson c) = .ok c := by
  rcases c with _ | (n | b | x) <;> rfl

theorem merged_countJson (c : Option (Count F)) : (countJson c).merged = countJson c := by
  rcases c with _ | (n | b | x) <;> rfl

theorem readSlot_slotJson (slot : Option Int) : readSlot (slotJson slot : Json F) = .ok slot := by
  cases slot <;> rfl

theorem merged_slotJson (slot : Option Int) : (slotJson slot : Json F).merged = slotJson slot := by
  cases slot <;> rfl

theorem merged_monitorJson (e : MonitorEntry) :
    (monitorJson e : Json F).merged = monitorJson e := by
  unfold monitorJson
  rw [Json.merged_object (by simp)]
  rfl

theorem readMonitor_monitorJson (e : MonitorEntry) :
    readMonitor (monitorJson e : Json F) = .ok e := rfl

theorem merged_inputsJson {inputs : List (String × Int)} (h : (inputs.map Prod.fst).Nodup) :
    (inputsJson inputs : Json F).merged = inputsJson inputs := by
  unfold inputsJson
  rw [Json.merged_object (by simpa [Function.comp_def] using h), List.map_map]
  rfl

theorem readInputs_inputsJson (inputs : List (String × Int)) :
    readInputs (inputsJson inputs : Json F) = .ok inputs := by
  unfold inputsJson readInputs
  rw [mapM_eq_ok, List.forall₂_map_left_iff, List.forall₂_same]
  exact fun _ _ => rfl

section

variable [Interchange F]

theorem doubles_countJson {c : Option (Count F)} (h : ∀ x, c = some (.real x) → IsDouble x) :
    (countJson c).Doubles := by
  rcases c with _ | (n | b | x)
  · exact .null
  · exact .integer n
  · exact .bool b
  · exact .real (h x rfl)

theorem doubles_slotJson (slot : Option Int) : (slotJson slot : Json F).Doubles := by
  cases slot with
  | none => exact .null
  | some n => exact .integer n

theorem doubles_monitorJson (e : MonitorEntry) : (monitorJson e : Json F).Doubles := by
  refine .object fun p hp => ?_
  simp only [List.mem_cons, List.not_mem_nil, or_false] at hp
  rcases hp with rfl | rfl | rfl
  · exact .integer _
  · exact .integer _
  · exact .text _

theorem doubles_inputsJson (inputs : List (String × Int)) :
    (inputsJson inputs : Json F).Doubles := by
  refine .object fun p hp => ?_
  obtain ⟨q, -, rfl⟩ := List.mem_map.mp hp
  exact .integer _

end

/-! ### Lists -/

section

variable {α : Type} {tree : Weights → α → Attempt (Json F × Weights)}

/-- What holds of the tree of each thing and of the thing, whatever weights go on, holds of
several. -/
theorem each_restores [Interchange F] {R : Option Bytes → Json F → α → Prop} {as : List α}
    (hstep : ∀ a ∈ as, ∀ {w w' : Weights} {j : Json F}, tree w a = .ok (j, w') →
      w.Extends w' ∧ j.Doubles ∧ ∀ {raw : Option Bytes}, w'.Within raw → R raw j.merged a)
    {w w' : Weights} {js : List (Json F)} (h : each tree w as = .ok (js, w')) :
    w.Extends w' ∧ (∀ j ∈ js, j.Doubles) ∧
      ∀ {raw : Option Bytes}, w'.Within raw → List.Forall₂ (R raw) (js.map Json.merged) as := by
  induction as generalizing w js with
  | nil =>
    rw [each] at h
    cases h
    exact ⟨.refl _, by simp, fun _ => .nil⟩
  | cons a as ih =>
    rw [each] at h
    obtain ⟨⟨j, u⟩, hj, h⟩ := bind_eq_ok.mp h
    obtain ⟨⟨js, u'⟩, hjs, h⟩ := bind_eq_ok.mp h
    cases h
    obtain ⟨hadded, hdoubles, hread⟩ := hstep a List.mem_cons_self hj
    obtain ⟨hmore, hall, hrest⟩ := ih (fun b hb => hstep b (List.mem_cons_of_mem _ hb)) hjs
    exact ⟨hadded.trans hmore, List.forall_mem_cons.mpr ⟨hdoubles, hall⟩, fun hraw =>
      .cons (hread (hmore.within hraw)) (hrest hraw)⟩

end

/-! ### Instructions and parameters -/

section

variable [Arith F] [Interchange F]

theorem mapM_decode (raw : Option Bytes) (js : List (Json F)) :
    js.mapM (decode raw) = decodeAll raw js := by
  induction js with
  | nil =>
    rw [decodeAll]
    rfl
  | cons j js ih => rw [List.mapM_cons, decodeAll, ih]

/-- The real numbers of an instruction's tree are those of the instruction. -/
theorem doubles_instructionJson {i : Instruction F} (hi : i.Lawful) {w w' : Weights} {j : Json F}
    (h : instructionJson w i = .ok (j, w')) : j.Doubles := by
  unfold instructionJson at h
  obtain ⟨⟨args, u⟩, hargs, h⟩ := bind_eq_ok.mp h
  obtain ⟨⟨kwargs, u'⟩, hkwargs, h⟩ := bind_eq_ok.mp h
  cases h
  refine .object fun e he => ?_
  simp only [List.mem_cons, List.not_mem_nil, or_false] at he
  rcases he with rfl | rfl | rfl | rfl | rfl | rfl | rfl | rfl | rfl | rfl
  · exact .text _
  · exact .text _
  · exact .text _
  · exact .text _
  · exact .array (encodeAll_restores hi.args hargs).doubles
  · exact (encodeNamed_restores hi.names hi.kwargs hkwargs).doubles
  · exact doubles_integers _
  · exact doubles_integers _
  · exact doubles_slotJson _
  · exact doubles_countJson hi.count

/-- An instruction gives itself back, its op being looked up by name. -/
theorem instructionJson_restores {r : Registry} {i : Instruction F} (hi : i.Lawful)
    (hop : r.find? i.op.name = some i.op) {w w' : Weights} {j : Json F}
    (h : instructionJson w i = .ok (j, w')) :
    w.Extends w' ∧ j.Doubles ∧
      ∀ {raw : Option Bytes}, w'.Within raw → readInstruction r raw j.merged = .ok i.saved := by
  have hdoubles := doubles_instructionJson hi h
  unfold instructionJson at h
  obtain ⟨⟨args, u⟩, hargs, h⟩ := bind_eq_ok.mp h
  obtain ⟨⟨kwargs, u'⟩, hkwargs, h⟩ := bind_eq_ok.mp h
  cases h
  have hall := encodeAll_restores hi.args hargs
  have hnamed := encodeNamed_restores hi.names hi.kwargs hkwargs
  refine ⟨hall.added.trans hnamed.added, hdoubles, fun {raw} hraw => ?_⟩
  rw [Json.merged_object (by simp)]
  simp only [List.map_cons, List.map_nil, Json.merged, hall.merged, hnamed.merged,
    merged_integers, merged_slotJson, merged_countJson]
  have hresolve : r.resolve (Json.text (F := F) i.op.name).value = .ok i.op := by
    simp [Registry.resolve, Json.value, hop]
  have hconstants : args.mapM (decode raw) = .ok (i.args.map Value.saved) := by
    rw [mapM_decode, hall.decodeAll_eq (hnamed.added.within hraw)]
  unfold readInstruction
  simp only [Json.field, List.lookup_cons, String.reduceBEq, Fallible.ofOption_some, liftM_eq_lift,
    Fallible.lift_ok, ok_bind, hresolve, Json.items, hconstants, hnamed.decodeNamed_eq hraw,
    readIntegers_integers, readSlot_slotJson, readCount_countJson, Json.asText]
  rfl

/-- Reading a tree adds a parameter, and puts its value in a store into a store that is read. -/
def AddsParam (s : Store F) (pairs : Nat) (raw : Option Bytes) (j : Json F) (p : ParamEntry F) :
    Prop :=
  ∃ k < 2 * pairs, p.var = k ∧
    ∀ (read : List (ParamEntry F)) {t : Store F}, t.size = 2 * pairs →
      readParam raw (read, t) j = .ok (read ++ [p.saved], t.setAt k (s.content k).saved)

/-- The real numbers of a parameter's tree are those of its value and its settings. -/
theorem doubles_paramJson {s : Store F} {p : ParamEntry F}
    (hvalue : ∀ v, s.get p.var = .ok v → v.Lawful)
    (hsettings : p.weightDecay.Lawful ∧ p.learningRate.Lawful) {w w' : Weights} {j : Json F}
    (h : paramJson s w p = .ok (j, w')) : j.Doubles := by
  unfold paramJson at h
  obtain ⟨v, hv, h⟩ := bind_eq_ok.mp h
  obtain ⟨⟨value, u⟩, hencoded, h⟩ := bind_eq_ok.mp h
  cases h
  refine .object fun e he => ?_
  simp only [List.mem_cons, List.not_mem_nil, or_false] at he
  rcases he with rfl | rfl | rfl | rfl | rfl | rfl | rfl
  · exact .integer _
  · exact .text _
  · exact doubles_setting hsettings.1
  · exact doubles_setting hsettings.2
  · exact .text _
  · exact .text _
  · exact (encode_restores (hvalue _ (liftM_eq_ok.mp hv)) hencoded).doubles

/-- A parameter gives itself back, and its value is put into the store. -/
theorem paramJson_restores {s : Store F} {pairs : Nat} {p : ParamEntry F}
    (hvar : 0 ≤ p.var ∧ p.var < 2 * pairs)
    (hvalue : ∀ v, s.get p.var = .ok v → v.Lawful)
    (hsettings : p.weightDecay.Lawful ∧ p.learningRate.Lawful) {w w' : Weights} {j : Json F}
    (h : paramJson s w p = .ok (j, w')) :
    w.Extends w' ∧ j.Doubles ∧
      ∀ {raw : Option Bytes}, w'.Within raw → AddsParam s pairs raw j.merged p := by
  have hdoubles := doubles_paramJson hvalue hsettings h
  unfold paramJson at h
  obtain ⟨v, hv, h⟩ := bind_eq_ok.mp h
  obtain ⟨⟨value, u⟩, hencoded, h⟩ := bind_eq_ok.mp h
  cases h
  have hget := liftM_eq_ok.mp hv
  obtain ⟨k, hk⟩ := Int.eq_ofNat_of_zero_le hvar.1
  have hlt : k < 2 * pairs := by omega
  have hcontent : v = s.content k := Store.eq_content_of_get (hk ▸ hget)
  have hrestores := encode_restores (hvalue _ hget) hencoded
  refine ⟨hrestores.added, hdoubles, fun hraw => ⟨k, hlt, hk, fun read t ht => ?_⟩⟩
  rw [Json.merged_object (by simp)]
  simp only [List.map_cons, List.map_nil, hrestores.merged, Json.merged]
  have hset : t.set p.var v.saved = .ok (t.setAt k (s.content k).saved) := by
    rw [hk, Store.set_natCast (ht ▸ hlt), hcontent]
  unfold readParam
  simp only [Json.field, List.lookup_cons, String.reduceBEq, Fallible.ofOption_some, liftM_eq_lift,
    Fallible.lift_ok, ok_bind, hrestores.decode_eq hraw, Json.asInt, hset, Json.asText]
  rfl

/-- Parameters are read one after another, and the store ends with their values only. -/
theorem foldlM_readParam {s : Store F} {pairs : Nat} {raw : Option Bytes} {js : List (Json F)}
    {ps : List (ParamEntry F)}
    (h : List.Forall₂ (AddsParam s pairs raw) js ps) (done : List (ParamEntry F)) :
    js.foldlM (readParam raw)
        (done.map ParamEntry.saved, s.restored pairs (done.map ParamEntry.var))
      = .ok ((done ++ ps).map ParamEntry.saved,
          s.restored pairs ((done ++ ps).map ParamEntry.var)) := by
  induction h generalizing done with
  | nil =>
    rw [List.append_nil]
    rfl
  | @cons j p js ps hp _ ih =>
    obtain ⟨k, hlt, hk, hread⟩ := hp
    have hnext := ih (done ++ [p])
    rw [List.map_append, List.map_append, List.map_singleton, List.map_singleton, hk,
      Store.restored_append s _ hlt, List.append_assoc, List.singleton_append] at hnext
    rw [List.foldlM_cons, hread _ (Store.size_restored ..), ok_bind]
    exact hnext

/-- Streams are read instruction by instruction. -/
theorem readStream_eq {r : Registry} {raw : Option Bytes} {js : List (Json F)}
    {is : List (Instruction F)}
    (h : List.Forall₂ (fun j i => readInstruction r raw j = .ok i.saved) js is) :
    readStream r raw (.array js) = .ok (is.map Instruction.saved) := by
  unfold readStream
  simp only [Json.items, liftM_eq_lift, Fallible.lift_ok, ok_bind]
  rw [mapM_eq_ok, List.forall₂_map_right_iff]
  exact h

omit [Arith F] [Interchange F] in
/-- What holds of the tree of each thing, whatever weights go on, holds of several. -/
theorem forall_mem_each {α : Type} {tree : Weights → α → Attempt (Json F × Weights)}
    {P : Json F → Prop} {as : List α}
    (hstep : ∀ a ∈ as, ∀ {w w' : Weights} {j : Json F}, tree w a = .ok (j, w') → P j)
    {w w' : Weights} {js : List (Json F)} (h : each tree w as = .ok (js, w')) : ∀ j ∈ js, P j := by
  induction as generalizing w js with
  | nil =>
    rw [each] at h
    cases h
    simp
  | cons a as ih =>
    rw [each] at h
    obtain ⟨⟨j, u⟩, hj, h⟩ := bind_eq_ok.mp h
    obtain ⟨⟨js, u'⟩, hjs, h⟩ := bind_eq_ok.mp h
    cases h
    exact List.forall_mem_cons.mpr ⟨hstep a List.mem_cons_self hj,
      ih (fun b hb => hstep b (List.mem_cons_of_mem _ hb)) hjs⟩

/-- The real numbers of a net's document are those of the net. -/
theorem doubles_ofNet {c : CompiledNet F} {s : Store F} (hc : c.Lawful s) {j : Json F} {w : Weights}
    (h : ofNet c s = .ok (j, w)) : j.Doubles := by
  unfold ofNet at h
  obtain ⟨⟨params, w₁⟩, hparams, h⟩ := bind_eq_ok.mp h
  obtain ⟨⟨shared, w₂⟩, hshared, h⟩ := bind_eq_ok.mp h
  obtain ⟨⟨forward, w₃⟩, hforward, h⟩ := bind_eq_ok.mp h
  obtain ⟨⟨backward, w₄⟩, hbackward, h⟩ := bind_eq_ok.mp h
  obtain ⟨⟨test, w₅⟩, htest, h⟩ := bind_eq_ok.mp h
  cases h
  have hstream : ∀ {is : List (Instruction F)}, (∀ i ∈ is, i ∈ c.forward ++ c.backward ++ c.test) →
      ∀ {u u' : Weights} {js : List (Json F)}, each instructionJson u is = .ok (js, u') →
        ∀ j ∈ js, j.Doubles := fun his _ _ _ hjs =>
    forall_mem_each (fun i hi _ _ _ => doubles_instructionJson (hc.instructions i (his i hi))) hjs
  refine .object fun e he => ?_
  simp only [List.mem_cons, List.not_mem_nil, or_false] at he
  rcases he with rfl | rfl | rfl | rfl | rfl | rfl | rfl | rfl | rfl | rfl
  · exact .integer _
  · exact .integer _
  · exact doubles_inputsJson _
  · exact .array (forall_mem_each
      (fun p hp _ _ _ => doubles_paramJson (hc.values p hp) (hc.settings p hp)) hparams)
  · refine .array fun j hj => ?_
    obtain ⟨e, -, rfl⟩ := List.mem_map.mp hj
    exact doubles_monitorJson e
  · exact (encode_restores hc.shared hshared).doubles
  · exact .array (hstream (fun i hi => by simp [hi]) hforward)
  · exact .array (hstream (fun i hi => by simp [hi]) hbackward)
  · exact .array (hstream (fun i hi => by simp [hi]) htest)
  · exact .integer _

/-- **The document of a net gives the net back**, its ops being looked up by name. -/
theorem ofNet_restores {r : Registry} {c : CompiledNet F} {s : Store F} (hc : c.Lawful s)
    (hops : ∀ i ∈ c.forward ++ c.backward ++ c.test, r.find? i.op.name = some i.op)
    {j : Json F} {w : Weights} (h : ofNet c s = .ok (j, w)) :
    j.Doubles ∧ ∀ {raw : Option Bytes}, w.Within raw →
      read r raw j.merged = .ok (c.saved, s.restored (c.numVars.toNat / 2) c.paramVars) := by
  have hdoubles := doubles_ofNet hc h
  unfold ofNet at h
  obtain ⟨⟨params, w₁⟩, hparams, h⟩ := bind_eq_ok.mp h
  obtain ⟨⟨shared, w₂⟩, hshared, h⟩ := bind_eq_ok.mp h
  obtain ⟨⟨forward, w₃⟩, hforward, h⟩ := bind_eq_ok.mp h
  obtain ⟨⟨backward, w₄⟩, hbackward, h⟩ := bind_eq_ok.mp h
  obtain ⟨⟨test, w₅⟩, htest, h⟩ := bind_eq_ok.mp h
  cases h
  -- Each stream comes back from any weights that hold all of its bytes.
  have hstream : ∀ {is : List (Instruction F)}, (∀ i ∈ is, i ∈ c.forward ++ c.backward ++ c.test) →
      ∀ {u u' : Weights} {js : List (Json F)}, each instructionJson u is = .ok (js, u') →
        u.Extends u' ∧ (∀ j ∈ js, j.Doubles) ∧ ∀ {raw : Option Bytes}, u'.Within raw →
          readStream r raw (.array (js.map Json.merged)) = .ok (is.map Instruction.saved) := by
    intro is his u u' js hjs
    obtain ⟨hadded, hdoubles, hread⟩ := each_restores
      (R := fun raw j i => readInstruction r raw j = .ok i.saved)
      (fun i hi _ _ _ => instructionJson_restores (hc.instructions i (his i hi))
        (hops i (his i hi)))
      hjs
    exact ⟨hadded, hdoubles, fun hraw => readStream_eq (hread hraw)⟩
  have hvars : ∀ p ∈ c.params, 0 ≤ p.var ∧ p.var < 2 * ((c.numVars.toNat / 2 : Nat) : Int) := by
    intro p hp
    have heven := hc.even
    have hvar := hc.vars p hp
    omega
  obtain ⟨hadded₁, hdoubles₁, hread₁⟩ := each_restores (R := AddsParam s (c.numVars.toNat / 2))
    (fun p hp _ _ _ => paramJson_restores (hvars p hp) (hc.values p hp) (hc.settings p hp)) hparams
  have hmeta := encode_restores hc.shared hshared
  obtain ⟨hadded₃, hdoubles₃, hread₃⟩ := hstream (fun i hi => by simp [hi]) hforward
  obtain ⟨hadded₄, hdoubles₄, hread₄⟩ := hstream (fun i hi => by simp [hi]) hbackward
  obtain ⟨hadded₅, hdoubles₅, hread₅⟩ := hstream (fun i hi => by simp [hi]) htest
  refine ⟨hdoubles, fun {raw} hraw => ?_⟩
  -- The weights only grow, so those that hold the last bytes hold the earlier ones.
  have hraw₄ := hadded₅.within hraw
  have hraw₃ := hadded₄.within hraw₄
  have hraw₂ := hadded₃.within hraw₃
  have hraw₁ := hmeta.added.within hraw₂
  have hmonitors : ((c.diagnostics.map (monitorJson (F := F))).map Json.merged)
      = c.diagnostics.map monitorJson := by
    rw [List.map_map]
    exact List.map_congr_left fun e _ => merged_monitorJson e
  have hmonitorsRead : (c.diagnostics.map (monitorJson (F := F))).mapM readMonitor
      = .ok c.diagnostics := by
    rw [mapM_eq_ok, List.forall₂_map_left_iff, List.forall₂_same]
    exact fun e _ => readMonitor_monitorJson e
  have hstore : readStore (F := F) (.integer c.numVars)
      = .ok (c.numVars, s.restored (c.numVars.toNat / 2) []) := by
    unfold readStore Store.create?
    simp only [Json.asInt, liftM_eq_lift, Fallible.lift_ok, ok_bind, hc.even.2, if_true,
      Store.restored_nil]
    rfl
  have hparamsRead : (params.map Json.merged).foldlM (readParam raw)
        ([], s.restored (c.numVars.toNat / 2) [])
      = .ok (c.params.map ParamEntry.saved, s.restored (c.numVars.toNat / 2) c.paramVars) :=
    foldlM_readParam (hread₁ hraw₁) []
  -- The parts are read in the order in which they were written.
  rw [Json.merged_object (by simp)]
  simp only [List.map_cons, List.map_nil, Json.merged, Json.mergedAll_eq_map, hmonitors,
    merged_inputsJson hc.inputs, hmeta.merged, Json.ofNat]
  unfold read format
  simp only [Json.entries, Json.field, List.lookup_cons, String.reduceBEq, Option.getD_some,
    Fallible.ofOption_some, liftM_eq_lift, Fallible.lift_ok, ok_bind, hstore, Json.items,
    hparamsRead, hread₃ hraw₃, hread₄ hraw₄, hread₅ hraw, readInputs_inputsJson, hmonitorsRead,
    hmeta.decode_eq hraw₂]
  rfl

end

end NetDocument
end Saved
end SlotGrad
