import Mathlib.Tactic.Tauto
import SlotGrad.Proofs.CutDocuments
import SlotGrad.Proofs.SavedNets

/-!
# Values that are refused

A value can be refused in two places.  Parameter values, metadata and the constants of
instructions are turned into trees, and a value of the wrong kind has none.  The trees are
handed to the writer, and so are the settings of parameters, weight decay and learning rate, as
they stand.  The writer refuses settings of the wrong kind, and it refuses every integer with
too many digits, wherever it comes from.

## Main definitions

* `Value.Savable` — the values that have trees.
* `Value.Writable` — the values that the writer takes as settings.
* `Value.Short` — the values in whose trees the writer takes every integer.
* `CompiledNet.Encodable`, `CompiledNet.Writable` — nets that have a document, and nets whose
  document the writer takes.

## Main results

* `Saved.exists_encode_iff` — a value has a tree exactly if it is savable.
* `Saved.whole_setting_iff` — a setting has a written form exactly if it is writable.
* `Saved.wholeIff_encode` — the tree of a value is written to its end exactly if the value is short.
* `Saved.NetDocument.exists_ofNet_iff`, `Saved.NetDocument.whole_ofNet_iff` — which nets have a
  document, and which documents are written to their end.
-/

namespace SlotGrad

variable {F : Type}

/-! ### Values with a form in documents -/

namespace Value

/-- The value is built from plain values and arrays of numbers, and the keys of its dictionaries are
texts. -/
inductive Savable : Value F → Prop where
  | none : Savable .none
  | flag (b : Bool) : Savable (.flag b)
  | integer (n : Int) : Savable (.integer n)
  | real (x : F) : Savable (.real x)
  | text (s : String) : Savable (.text s)
  | list {xs : List (Value F)} (hxs : ∀ x ∈ xs, Savable x) : Savable (.list xs)
  | tuple {xs : List (Value F)} (hxs : ∀ x ∈ xs, Savable x) : Savable (.tuple xs)
  | dict {es : List (Value F × Value F)} (hkeys : ∀ e ∈ es, ∃ k, e.1 = .text k)
    (hes : ∀ e ∈ es, Savable e.2) : Savable (.dict es)
  | slice {a b c : Value F} (ha : Savable a) (hb : Savable b) (hc : Savable c) :
    Savable (.slice a b c)
  | ellipsis : Savable .ellipsis
  | array (t : Tensor F) : Savable (.array t)
  | scalar (d : Dtype) (x : Elem F d) : Savable (.scalar d x)
  | device (t : Tensor F) : Savable (.device t)

/-- The value is a plain value, a number of any kind or built from such, the keys of its
dictionaries have texts, and no integer has too many digits. -/
inductive Writable [Interchange F] : Value F → Prop where
  | none : Writable .none
  | flag (b : Bool) : Writable (.flag b)
  | integer {n : Int} (hn : Saved.Json.Short n) : Writable (.integer n)
  | real (x : F) : Writable (.real x)
  | text (s : String) : Writable (.text s)
  | scalar {d : Dtype} (hd : d ≠ .bool) (x : Elem F d) : Writable (.scalar d x)
  | list {xs : List (Value F)} (hxs : ∀ x ∈ xs, Writable x) : Writable (.list xs)
  | tuple {xs : List (Value F)} (hxs : ∀ x ∈ xs, Writable x) : Writable (.tuple xs)
  | dict {es : List (Value F × Value F)} (hkeys : ∀ e ∈ es, ∃ s, Saved.settingKey e.1 = .ok s)
    (hes : ∀ e ∈ es, Writable e.2) : Writable (.dict es)

mutual

/-- No integer in the value has too many digits, the extents of arrays included. -/
def Short : Value F → Prop
  | .integer n => Saved.Json.Short n
  | .list xs => ShortAll xs
  | .tuple xs => ShortAll xs
  | .dict es => ShortEntries es
  | .slice a b c => Short a ∧ Short b ∧ Short c
  | .array t => ∀ n ∈ t.shape, Saved.Json.Short n
  | .device t => ∀ n ∈ t.shape, Saved.Json.Short n
  | _ => True

/-- No integer in the values has too many digits. -/
def ShortAll : List (Value F) → Prop
  | [] => True
  | x :: xs => Short x ∧ ShortAll xs

/-- No integer in the values of the entries has too many digits. -/
def ShortEntries : List (Value F × Value F) → Prop
  | [] => True
  | (_, x) :: es => Short x ∧ ShortEntries es

end

theorem shortAll_iff {xs : List (Value F)} : ShortAll xs ↔ ∀ x ∈ xs, x.Short := by
  induction xs with
  | nil => simp [ShortAll]
  | cons x xs ih => rw [ShortAll, ih, List.forall_mem_cons]

theorem shortEntries_iff {es : List (Value F × Value F)} :
    ShortEntries es ↔ ∀ e ∈ es, e.2.Short := by
  induction es with
  | nil => simp [ShortEntries]
  | cons e es ih => rw [ShortEntries, ih, List.forall_mem_cons]

end Value

namespace Saved

/-! ### Integers with a written form -/

namespace Json

theorem short_iff {n : Int} : Short n ↔ n.natAbs < 10 ^ mostDigits :=
  Nat.length_toDigits_le_iff (by decide) (by decide)

/-- The parts of a size have a written form if the size does. -/
theorem Short.of_le {m n : Nat} (hn : Short n) (h : m ≤ n) : Short m :=
  short_iff.mpr (lt_of_le_of_lt h (short_iff.mp hn))

/-- Machine integers have few digits. -/
theorem short_of_natAbs_le {n : Int} (h : n.natAbs ≤ 2 ^ 63) : Short n :=
  short_iff.mpr (lt_of_le_of_lt h (lt_of_lt_of_le (by decide : 2 ^ 63 < 10 ^ 19)
    (Nat.pow_le_pow_right (by decide) (by decide : 19 ≤ mostDigits))))

theorem short_int32 (n : Int32) : Short n.toInt := by
  refine short_of_natAbs_le ?_
  have hlower := n.le_toInt
  have hupper := n.toInt_lt
  omega

theorem short_int64 (n : Int64) : Short n.toInt := by
  refine short_of_natAbs_le ?_
  have hlower := n.le_toInt
  have hupper := n.toInt_lt
  omega

end Json

/-! ### Values that have trees -/

theorem textKeys?_eq_some_iff {es : List (Value F × Value F)} :
    (∃ keys, textKeys? es = some keys) ↔ ∀ e ∈ es, ∃ k, e.1 = .text k := by
  constructor
  · rintro ⟨keys, h⟩ e he
    have hmem := List.mem_map_of_mem (f := Prod.fst) he
    rw [map_fst_of_textKeys? h] at hmem
    obtain ⟨k, -, hk⟩ := List.mem_map.mp hmem
    exact ⟨k, hk.symm⟩
  · intro h
    unfold textKeys?
    induction es with
    | nil => exact ⟨[], rfl⟩
    | cons e es ih =>
      obtain ⟨k, hk⟩ := h e List.mem_cons_self
      obtain ⟨keys, hkeys⟩ := ih fun e' he' => h e' (List.mem_cons_of_mem _ he')
      obtain ⟨_, x⟩ := e
      cases hk
      exact ⟨k :: keys, by rw [List.mapM_cons, hkeys]; rfl⟩

/-! ### Values that are refused -/

/-- Things all have trees, one after another, exactly if each has one. -/
theorem NetDocument.exists_each_iff {α : Type} {t : Weights → α → Attempt (Json F × Weights)}
    {P : α → Prop} {as : List α} (h : ∀ a ∈ as, ∀ w, (∃ made, t w a = .ok made) ↔ P a)
    {w : Weights} :
    (∃ made, each t w as = .ok made) ↔ ∀ a ∈ as, P a := by
  induction as generalizing w with
  | nil => simp [each]
  | cons a as ih =>
    rw [List.forall_mem_cons, ← h a List.mem_cons_self w]
    constructor
    · rintro ⟨made, hmade⟩
      rw [each] at hmade
      obtain ⟨⟨j, u⟩, hj, hmade⟩ := bind_eq_ok.mp hmade
      obtain ⟨made', hjs, -⟩ := bind_eq_ok.mp hmade
      exact ⟨⟨_, hj⟩, (ih fun b hb => h b (List.mem_cons_of_mem _ hb)).mp ⟨made', hjs⟩⟩
    · rintro ⟨⟨⟨j, u⟩, hj⟩, has⟩
      obtain ⟨⟨js, u'⟩, hjs⟩ := (ih (w := u) fun b hb => h b (List.mem_cons_of_mem _ hb)).mpr has
      exact ⟨_, by rw [each, hj, ok_bind]; dsimp only; rw [hjs, ok_bind]; rfl⟩

section

variable [Interchange F]

theorem encodeAll_eq_each (w : Weights) (vs : List (Value F)) :
    encodeAll w vs = NetDocument.each encode w vs := by
  induction vs generalizing w with
  | nil => rfl
  | cons v vs ih =>
    rw [encodeAll, NetDocument.each]
    simp only [ih]

theorem exists_encodeAll {vs : List (Value F)}
    (h : ∀ v ∈ vs, ∀ w, ∃ made, encode w v = .ok made) (w : Weights) :
    ∃ made, encodeAll w vs = .ok made := by
  rw [encodeAll_eq_each]
  exact (NetDocument.exists_each_iff (P := fun _ => True) fun v hv w =>
    iff_of_true (h v hv w) trivial).mpr fun _ _ => trivial

/-- A savable value has a tree. -/
theorem exists_encode {v : Value F} (hv : v.Savable) (w : Weights) :
    ∃ made, encode w v = .ok made := by
  induction hv generalizing w with
  | list _ ih =>
    obtain ⟨⟨js, w'⟩, h⟩ := exists_encodeAll ih w
    exact ⟨_, by rw [encode, h]; rfl⟩
  | tuple _ ih =>
    obtain ⟨⟨js, w'⟩, h⟩ := exists_encodeAll ih w
    exact ⟨_, by rw [encode, h]; rfl⟩
  | @dict es hkeys _ ih =>
    obtain ⟨keys, htexts⟩ := textKeys?_eq_some_iff.mpr hkeys
    have hvalues : ∀ v ∈ es.map Prod.snd, ∀ w, ∃ made, encode w v = .ok made := by
      intro v hv
      obtain ⟨e, he, rfl⟩ := List.mem_map.mp hv
      exact ih e he
    obtain ⟨⟨js, w'⟩, h⟩ := exists_encodeAll hvalues w
    exact ⟨_, by rw [encode, htexts]; dsimp only; rw [encodeEntries_eq_encodeAll, h]; rfl⟩
  | slice _ _ _ iha ihb ihc =>
    obtain ⟨⟨start, w₁⟩, ha⟩ := iha w
    obtain ⟨⟨stop, w₂⟩, hb⟩ := ihb w₁
    obtain ⟨⟨step, w₃⟩, hc⟩ := ihc w₂
    exact ⟨_, by rw [encode, ha, ok_bind]; dsimp only; rw [hb, ok_bind]; dsimp only; rw [hc]; rfl⟩
  | scalar d x =>
    cases d with
    | float64 => exact ⟨_, by rw [encode]⟩
    | bool | int32 | int64 | float32 => exact ⟨_, by rw [encode]; simp⟩
  | _ => exact ⟨_, by rw [encode]⟩

mutual

/-- A value that has a tree is savable. -/
theorem savable_of_encode : ∀ (v : Value F) {w w' : Weights} {j : Json F},
    encode w v = .ok (j, w') → v.Savable
  | .none, _, _, _, _ => .none
  | .flag b, _, _, _, _ => .flag b
  | .integer n, _, _, _, _ => .integer n
  | .real x, _, _, _, _ => .real x
  | .text s, _, _, _, _ => .text s
  | .scalar d x, _, _, _, _ => .scalar d x
  | .array t, _, _, _, _ => .array t
  | .device t, _, _, _, _ => .device t
  | .ellipsis, _, _, _, _ => .ellipsis
  | .list xs, _, _, _, h => by
    rw [encode] at h
    obtain ⟨⟨js, u⟩, hjs, -⟩ := bind_eq_ok.mp h
    exact .list (savable_of_encodeAll xs hjs)
  | .tuple xs, _, _, _, h => by
    rw [encode] at h
    obtain ⟨⟨js, u⟩, hjs, -⟩ := bind_eq_ok.mp h
    exact .tuple (savable_of_encodeAll xs hjs)
  | .slice a b c, _, _, _, h => by
    rw [encode] at h
    obtain ⟨⟨start, u⟩, hstart, h⟩ := bind_eq_ok.mp h
    obtain ⟨⟨stop, u'⟩, hstop, h⟩ := bind_eq_ok.mp h
    obtain ⟨⟨step, u''⟩, hstep, -⟩ := bind_eq_ok.mp h
    exact .slice (savable_of_encode a hstart) (savable_of_encode b hstop)
      (savable_of_encode c hstep)
  | .dict es, _, _, _, h => by
    rw [encode] at h
    split at h
    · rename_i keys htexts
      obtain ⟨⟨js, u⟩, hjs, -⟩ := bind_eq_ok.mp h
      exact .dict (textKeys?_eq_some_iff.mp ⟨keys, htexts⟩) (savable_of_encodeEntries es hjs)
    · cases h
  | .objects .., _, _, _, h => by rw [encode] at h; cases h
  | .node _, _, _, _, h => by rw [encode] at h; cases h
  | .function _, _, _, _, h => by rw [encode] at h; cases h
  | .op _, _, _, _, h => by rw [encode] at h; cases h
  | .other, _, _, _, h => by rw [encode] at h; cases h

theorem savable_of_encodeAll : ∀ (vs : List (Value F)) {w w' : Weights} {js : List (Json F)},
    encodeAll w vs = .ok (js, w') → ∀ v ∈ vs, v.Savable
  | [], _, _, _, _ => by simp
  | v :: vs, _, _, _, h => by
    rw [encodeAll] at h
    obtain ⟨⟨j, u⟩, hj, h⟩ := bind_eq_ok.mp h
    obtain ⟨⟨js, u'⟩, hjs, -⟩ := bind_eq_ok.mp h
    exact List.forall_mem_cons.mpr ⟨savable_of_encode v hj, savable_of_encodeAll vs hjs⟩

theorem savable_of_encodeEntries :
    ∀ (es : List (Value F × Value F)) {w w' : Weights} {js : List (Json F)},
      encodeEntries w es = .ok (js, w') → ∀ e ∈ es, e.2.Savable
  | [], _, _, _, _ => by simp
  | (_, v) :: es, _, _, _, h => by
    rw [encodeEntries] at h
    obtain ⟨⟨j, u⟩, hj, h⟩ := bind_eq_ok.mp h
    obtain ⟨⟨js, u'⟩, hjs, -⟩ := bind_eq_ok.mp h
    exact List.forall_mem_cons.mpr ⟨savable_of_encode v hj, savable_of_encodeEntries es hjs⟩

end

/-- **A value has a tree exactly if it is savable.** -/
theorem exists_encode_iff {v : Value F} {w : Weights} :
    (∃ made, encode w v = .ok made) ↔ v.Savable :=
  ⟨fun ⟨_, h⟩ => savable_of_encode v h, fun h => exists_encode h w⟩

end

section

variable [Interchange F]

mutual

/-- **A setting has a written form exactly if it is writable.** -/
theorem whole_setting_iff : ∀ v : Value F, (setting v).Whole ↔ v.Writable
  | .none => ⟨fun _ => .none, fun _ => .null⟩
  | .flag b => ⟨fun _ => .flag b, fun _ => .bool b⟩
  | .integer n => by
    rw [setting, Json.whole_integer_iff]
    exact ⟨.integer, fun h => by cases h; assumption⟩
  | .real x => ⟨fun _ => .real x, fun _ => .real x⟩
  | .text s => ⟨fun _ => .text s, fun _ => .text s⟩
  | .scalar .float64 x => ⟨fun _ => .scalar (by decide) x, fun _ => .real x⟩
  | .scalar .float32 x => ⟨fun _ => .scalar (by decide) x, fun _ => .real x⟩
  | .scalar .int32 n => ⟨fun _ => .scalar (by decide) n, fun _ => .integer (Json.short_int32 n)⟩
  | .scalar .int64 n => ⟨fun _ => .scalar (by decide) n, fun _ => .integer (Json.short_int64 n)⟩
  | .list xs => by
    rw [setting, Json.whole_array_iff, whole_settings_iff xs]
    exact ⟨.list, fun h => by cases h; assumption⟩
  | .tuple xs => by
    rw [setting, Json.whole_array_iff, whole_settings_iff xs]
    exact ⟨.tuple, fun h => by cases h; assumption⟩
  | .dict es => by
    rw [setting, whole_settingEntries_iff es]
    exact ⟨fun ⟨_, hkeys, hes⟩ => .dict hkeys hes,
      fun h => by cases h with | dict hkeys hes => exact ⟨by simp, hkeys, hes⟩⟩
  | .scalar .bool b => by
    rw [setting]
    · exact ⟨fun h => absurd h (Json.not_whole_refused _), fun h => by cases h; contradiction⟩
    all_goals simp
  | .slice .. | .ellipsis | .array _ | .device _ | .objects .. | .node _ | .function _ | .op _
  | .other => by
    rw [setting]
    · exact ⟨fun h => absurd h (Json.not_whole_refused _), fun h => by cases h⟩
    all_goals simp

theorem whole_settings_iff :
    ∀ vs : List (Value F), (∀ j ∈ settings vs, j.Whole) ↔ ∀ v ∈ vs, v.Writable
  | [] => by simp [settings]
  | v :: vs => by
    rw [settings, List.forall_mem_cons, List.forall_mem_cons, whole_setting_iff v,
      whole_settings_iff vs]

theorem whole_settingEntries_iff :
    ∀ (es : List (Value F × Value F)) {done : List (String × Json F)},
    (settingEntries done es).Whole ↔ (∀ e ∈ done, e.2.Whole) ∧
      (∀ e ∈ es, ∃ s, settingKey e.1 = .ok s) ∧ ∀ e ∈ es, e.2.Writable
  | [], done => by simp [settingEntries, Json.whole_object_iff]
  | (k, v) :: es, done => by
    rw [settingEntries]
    split
    · rename_i s hs
      rw [whole_settingEntries_iff es]
      simp only [List.forall_mem_append, List.forall_mem_cons, whole_setting_iff v, hs]
      simp only [List.not_mem_nil, false_imp_iff, implies_true, and_true, Except.ok.injEq,
        exists_eq', true_and]
      tauto
    · rename_i f hf
      refine ⟨fun h => absurd h (Json.not_whole_cut _ _), fun ⟨_, hkeys, _⟩ => ?_⟩
      obtain ⟨s, hs⟩ := hkeys (k, v) List.mem_cons_self
      rw [hf] at hs
      cases hs

end

end

/-! ### Trees that are written to their end -/

/-- What was made of something, adding arrays to some weights, is whole exactly under a
condition, as far as the sizes and places in the weights have a written form. -/
structure WholeIff (w w' : Weights) (whole short : Prop) : Prop where
  /-- The weights go on after the ones before. -/
  added : w.Extends w'
  /-- The condition. -/
  iff : Json.Short w'.offset → (whole ↔ short)

namespace WholeIff

variable {u v w : Weights} {A B P Q : Prop}

/-- No array is added. -/
theorem of_iff (h : A ↔ P) : WholeIff w w A P := ⟨.refl w, fun _ => h⟩

theorem congr (h : WholeIff u v A P) (hwhole : B ↔ A) (hshort : P ↔ Q) : WholeIff u v B Q :=
  ⟨h.added, fun hv => hwhole.trans ((h.iff hv).trans hshort)⟩

theorem short_of_extends (h : u.Extends v) (hv : Json.Short v.offset) : Json.Short u.offset := by
  refine hv.of_le ?_
  rw [u.offset_eq, v.offset_eq]
  exact h.bytes.length_le

/-- One thing after another. -/
theorem and (h : WholeIff u v A P) (h' : WholeIff v w B Q) : WholeIff u w (A ∧ B) (P ∧ Q) :=
  ⟨h.added.trans h'.added,
    fun hw => and_congr (h.iff (short_of_extends h'.added hw)) (h'.iff hw)⟩

end WholeIff

theorem whole_tagged_iff {t : Tag} {j : Json F} : (tagged t j).Whole ↔ j.Whole := by
  unfold tagged
  rw [Json.whole_object_iff, List.forall_mem_singleton]

theorem whole_integers_iff {ns : List Int} :
    (NetDocument.integers ns : Json F).Whole ↔ ∀ n ∈ ns, Json.Short n := by
  unfold NetDocument.integers
  simp only [Json.whole_array_iff, List.forall_mem_map, Json.whole_integer_iff]

theorem WeightEntry.whole_toJson_iff {e : WeightEntry} : (e.toJson : Json F).Whole ↔
    Json.Short e.offset ∧ Json.Short e.size ∧ ∀ n ∈ e.shape, Json.Short n := by
  unfold WeightEntry.toJson Json.ofNat
  simp only [Json.whole_object_iff, List.forall_mem_cons, Json.whole_integer_iff, Json.Whole.text,
    Json.Whole.bool, Json.whole_array_iff, List.forall_mem_map, true_and, List.not_mem_nil,
    false_imp_iff, implies_true, and_true]

section

variable [Interchange F]

/-- The tree of an array is whole exactly if the extents have a written form. -/
theorem wholeIff_encodeTensor (t : Tensor F) (scalar : Bool) (w : Weights) :
    WholeIff w (encodeTensor t scalar w).2 (encodeTensor t scalar w).1.Whole
      (∀ n ∈ t.shape, Json.Short n) := by
  refine ⟨w.extends_add t scalar, fun hshort => ?_⟩
  have hend : w.offset + (w.add t scalar).1.size = (w.add t scalar).2.offset := rfl
  have hoffset : Json.Short (w.add t scalar).1.offset := hshort.of_le (by
    change w.offset ≤ (w.add t scalar).2.offset
    omega)
  have hsize : Json.Short (w.add t scalar).1.size := hshort.of_le (by
    change _ ≤ (w.add t scalar).2.offset
    omega)
  unfold encodeTensor
  rw [whole_tagged_iff, WeightEntry.whole_toJson_iff]
  exact ⟨fun h => h.2.2, fun h => ⟨hoffset, hsize, h⟩⟩

/-- As many trees as there are values. -/
theorem length_encodeAll {vs : List (Value F)} {w w' : Weights} {js : List (Json F)}
    (h : encodeAll w vs = .ok (js, w')) : js.length = vs.length := by
  induction vs generalizing w js with
  | nil =>
    rw [encodeAll] at h
    cases h
    rfl
  | cons v vs ih =>
    rw [encodeAll] at h
    obtain ⟨⟨j, u⟩, hj, h⟩ := bind_eq_ok.mp h
    obtain ⟨⟨js, u'⟩, hjs, h⟩ := bind_eq_ok.mp h
    cases h
    rw [List.length_cons, List.length_cons, ih hjs]

omit [Interchange F] in
/-- An object is whole exactly if its values are. -/
theorem whole_zip_iff {keys : List String} {js : List (Json F)} (h : keys.length = js.length) :
    (Json.object (keys.zip js)).Whole ↔ ∀ j ∈ js, j.Whole := by
  have hvalues : (keys.zip js).map Prod.snd = js := List.map_snd_zip h.ge
  rw [Json.whole_object_iff, ← List.forall_mem_map (f := Prod.snd), hvalues]

mutual

/-- **The tree of a value is whole exactly if the value is short.** -/
theorem wholeIff_encode : ∀ (v : Value F) {w w' : Weights} {j : Json F},
    encode w v = .ok (j, w') → WholeIff w w' j.Whole v.Short
  | .none, _, _, _, h => by
    rw [encode] at h; cases h; exact .of_iff (iff_of_true .null trivial)
  | .flag b, _, _, _, h => by
    rw [encode] at h; cases h; exact .of_iff (iff_of_true (.bool b) trivial)
  | .integer n, _, _, _, h => by
    rw [encode] at h; cases h; exact .of_iff Json.whole_integer_iff
  | .real x, _, _, _, h => by
    rw [encode] at h; cases h; exact .of_iff (iff_of_true (.real x) trivial)
  | .text s, _, _, _, h => by
    rw [encode] at h; cases h; exact .of_iff (iff_of_true (.text s) trivial)
  | .ellipsis, _, _, _, h => by
    rw [encode] at h; cases h
    exact .of_iff (iff_of_true (whole_tagged_iff.mpr (.bool true)) trivial)
  | .scalar d x, _, _, _, h => by
    cases d with
    | float64 => rw [encode] at h; cases h; exact .of_iff (iff_of_true (.real x) trivial)
    | bool | int32 | int64 | float32 =>
      rw [encode] at h
      · cases h
        -- An element has no extents.
        exact (wholeIff_encodeTensor _ true _).congr .rfl
          (iff_of_true (by simp [Tensor.shape, Tensor.single]) trivial)
      · simp
  | .array t, _, _, _, h => by rw [encode] at h; cases h; exact wholeIff_encodeTensor t false _
  | .device t, _, _, _, h => by rw [encode] at h; cases h; exact wholeIff_encodeTensor t false _
  | .list xs, _, _, _, h => by
    rw [encode] at h
    obtain ⟨⟨js, u⟩, hjs, h⟩ := bind_eq_ok.mp h
    cases h
    exact (wholeIff_encodeAll xs hjs).congr Json.whole_array_iff Value.shortAll_iff.symm
  | .tuple xs, _, _, _, h => by
    rw [encode] at h
    obtain ⟨⟨js, u⟩, hjs, h⟩ := bind_eq_ok.mp h
    cases h
    exact (wholeIff_encodeAll xs hjs).congr (whole_tagged_iff.trans Json.whole_array_iff)
      Value.shortAll_iff.symm
  | .slice a b c, _, _, _, h => by
    rw [encode] at h
    obtain ⟨⟨start, u⟩, hstart, h⟩ := bind_eq_ok.mp h
    obtain ⟨⟨stop, u'⟩, hstop, h⟩ := bind_eq_ok.mp h
    obtain ⟨⟨step, u''⟩, hstep, h⟩ := bind_eq_ok.mp h
    cases h
    refine ((wholeIff_encode a hstart).and
      ((wholeIff_encode b hstop).and (wholeIff_encode c hstep))).congr ?_ .rfl
    rw [whole_tagged_iff, Json.whole_array_iff, List.forall_mem_cons, List.forall_mem_cons,
      List.forall_mem_singleton]
  | .dict es, _, _, _, h => by
    rw [encode] at h
    split at h
    · rename_i keys htexts
      obtain ⟨⟨js, u⟩, hjs, h⟩ := bind_eq_ok.mp h
      cases h
      have hlength : keys.length = js.length := by
        have hkeys := congrArg List.length (map_fst_of_textKeys? htexts)
        rw [encodeEntries_eq_encodeAll] at hjs
        rw [length_encodeAll hjs, List.length_map, ← List.length_map (f := Value.text), ← hkeys,
          List.length_map]
      exact (wholeIff_encodeEntries es hjs).congr
        (whole_tagged_iff.trans (whole_zip_iff hlength)) Value.shortEntries_iff.symm
    · cases h
  | .objects .., _, _, _, h => by rw [encode] at h; cases h
  | .node _, _, _, _, h => by rw [encode] at h; cases h
  | .function _, _, _, _, h => by rw [encode] at h; cases h
  | .op _, _, _, _, h => by rw [encode] at h; cases h
  | .other, _, _, _, h => by rw [encode] at h; cases h

theorem wholeIff_encodeAll : ∀ (vs : List (Value F)) {w w' : Weights} {js : List (Json F)},
    encodeAll w vs = .ok (js, w') → WholeIff w w' (∀ j ∈ js, j.Whole) (∀ v ∈ vs, v.Short)
  | [], _, _, _, h => by
    rw [encodeAll] at h
    cases h
    exact .of_iff (by simp)
  | v :: vs, _, _, _, h => by
    rw [encodeAll] at h
    obtain ⟨⟨j, u⟩, hj, h⟩ := bind_eq_ok.mp h
    obtain ⟨⟨js, u'⟩, hjs, h⟩ := bind_eq_ok.mp h
    cases h
    exact ((wholeIff_encode v hj).and (wholeIff_encodeAll vs hjs)).congr List.forall_mem_cons
      List.forall_mem_cons.symm

theorem wholeIff_encodeEntries :
    ∀ (es : List (Value F × Value F)) {w w' : Weights} {js : List (Json F)},
      encodeEntries w es = .ok (js, w') → WholeIff w w' (∀ j ∈ js, j.Whole) (∀ e ∈ es, e.2.Short)
  | [], _, _, _, h => by
    rw [encodeEntries] at h
    cases h
    exact .of_iff (by simp)
  | (k, v) :: es, _, _, _, h => by
    rw [encodeEntries] at h
    obtain ⟨⟨j, u⟩, hj, h⟩ := bind_eq_ok.mp h
    obtain ⟨⟨js, u'⟩, hjs, h⟩ := bind_eq_ok.mp h
    cases h
    exact ((wholeIff_encode v hj).and (wholeIff_encodeEntries es hjs)).congr List.forall_mem_cons
      (by rw [List.forall_mem_cons])

end

end

end Saved

/-! ### Nets that are refused -/

section

variable [Interchange F]

/-- The net's metadata and constants and the values of its parameters have trees. -/
structure CompiledNet.Encodable (c : CompiledNet F) (s : Store F) : Prop where
  /-- The values of parameters, which lie in the store. -/
  values : ∀ p ∈ c.params, ∃ v, s.get p.var = .ok v ∧ v.Savable
  /-- The metadata. -/
  shared : c.meta.Savable
  /-- The constants of instructions. -/
  constants : ∀ i ∈ c.forward ++ c.backward ++ c.test,
    (∀ v ∈ i.args, v.Savable) ∧ ∀ p ∈ i.kwargs, p.2.Savable

/-- No integer of the instruction has too many digits. -/
structure Instruction.Short (i : Instruction F) : Prop where
  /-- The constants among the arguments. -/
  args : ∀ v ∈ i.args, v.Short
  /-- The arguments by name. -/
  kwargs : ∀ p ∈ i.kwargs, p.2.Short
  /-- The slots, and the places that they fill. -/
  slots : (∀ n ∈ i.inputVars, Saved.Json.Short n) ∧ (∀ n ∈ i.inputArgPos, Saved.Json.Short n) ∧
    ∀ n ∈ i.outputVar, Saved.Json.Short n
  /-- The number of derivatives. -/
  count : ∀ n, i.derCount = some (.whole n) → Saved.Json.Short n

/-- The settings of the net's parameters have a written form. -/
def CompiledNet.SettingsWritable (c : CompiledNet F) : Prop :=
  ∀ p ∈ c.params, p.weightDecay.Writable ∧ p.learningRate.Writable

/-- The writer takes the document of the net: the settings have a written form, and no integer
has too many digits, be it a slot, a number of derivatives, part of a value or the size of the
weights. -/
structure CompiledNet.Writable (c : CompiledNet F) (s : Store F) : Prop where
  /-- The settings of parameters. -/
  settings : c.SettingsWritable
  /-- The values of parameters, which lie in the store. -/
  values : ∀ p ∈ c.params, ∀ v, s.get p.var = .ok v → v.Short
  /-- The metadata. -/
  shared : c.meta.Short
  /-- The instructions. -/
  instructions : ∀ i ∈ c.forward ++ c.backward ++ c.test, i.Short
  /-- The number of slots, and the slots of inputs and parameters. -/
  slots : Saved.Json.Short c.numVars ∧ (∀ e ∈ c.inputs, Saved.Json.Short e.2) ∧
    ∀ p ∈ c.params, Saved.Json.Short p.var
  /-- The slots of monitored nodes. -/
  monitors : ∀ e ∈ c.diagnostics, Saved.Json.Short e.var ∧ Saved.Json.Short e.der
  /-- The size of the weights. -/
  weights : ∀ j w, Saved.NetDocument.ofNet c s = .ok (j, w) → Saved.Json.Short w.offset

end

namespace Saved
namespace NetDocument

/-- Several things are whole exactly if each is. -/
theorem wholeIff_each {α : Type} {tree : Weights → α → Attempt (Json F × Weights)} {P : α → Prop}
    {as : List α} (h : ∀ a ∈ as, ∀ {w w' : Weights} {j : Json F}, tree w a = .ok (j, w') →
      WholeIff w w' j.Whole (P a)) {w w' : Weights} {js : List (Json F)}
    (hjs : each tree w as = .ok (js, w')) :
    WholeIff w w' (∀ j ∈ js, j.Whole) (∀ a ∈ as, P a) := by
  induction as generalizing w js with
  | nil =>
    rw [each] at hjs
    cases hjs
    exact .of_iff (by simp)
  | cons a as ih =>
    rw [each] at hjs
    obtain ⟨⟨j, u⟩, hj, hjs⟩ := bind_eq_ok.mp hjs
    obtain ⟨⟨js, u'⟩, hothers, hjs⟩ := bind_eq_ok.mp hjs
    cases hjs
    exact ((h a List.mem_cons_self hj).and
      (ih (fun b hb => h b (List.mem_cons_of_mem _ hb)) hothers)).congr List.forall_mem_cons
        List.forall_mem_cons.symm

section

variable [Interchange F]

/-- Arguments have trees exactly if they are savable. -/
theorem exists_encodeAll_iff {vs : List (Value F)} {w : Weights} :
    (∃ made, encodeAll w vs = .ok made) ↔ ∀ v ∈ vs, v.Savable := by
  rw [encodeAll_eq_each]
  exact exists_each_iff (t := encode) fun v _ _ => exists_encode_iff

/-- Arguments by name have a tree exactly if they are savable. -/
theorem exists_encodeNamed_iff {named : List (String × Value F)} {w : Weights} :
    (∃ made, encodeNamed w named = .ok made) ↔ ∀ p ∈ named, p.2.Savable := by
  unfold encodeNamed
  rw [exists_encode_iff]
  constructor
  · intro h p hp
    cases h with
    | dict _ hes => exact hes (.text p.1, p.2) (List.mem_map.mpr ⟨p, hp, rfl⟩)
  · intro h
    refine .dict (fun e he => ?_) fun e he => ?_
    all_goals
      obtain ⟨p, hp, rfl⟩ := List.mem_map.mp he
    · exact ⟨p.1, rfl⟩
    · exact h p hp

theorem exists_instructionJson_iff {i : Instruction F} {w : Weights} :
    (∃ made, instructionJson w i = .ok made) ↔
      (∀ v ∈ i.args, v.Savable) ∧ ∀ p ∈ i.kwargs, p.2.Savable := by
  unfold instructionJson
  constructor
  · rintro ⟨made, h⟩
    obtain ⟨⟨args, u⟩, hargs, h⟩ := bind_eq_ok.mp h
    obtain ⟨made', hkwargs, -⟩ := bind_eq_ok.mp h
    exact ⟨exists_encodeAll_iff.mp ⟨_, hargs⟩, exists_encodeNamed_iff.mp ⟨_, hkwargs⟩⟩
  · rintro ⟨hargs, hkwargs⟩
    obtain ⟨⟨args, u⟩, hargs⟩ := exists_encodeAll_iff (w := w).mpr hargs
    obtain ⟨⟨kwargs, u'⟩, hkwargs⟩ := exists_encodeNamed_iff (w := u).mpr hkwargs
    exact ⟨_, by rw [hargs, ok_bind]; dsimp only; rw [hkwargs, ok_bind]; rfl⟩

theorem exists_paramJson_iff {s : Store F} {p : ParamEntry F} {w : Weights} :
    (∃ made, paramJson s w p = .ok made) ↔ ∃ v, s.get p.var = .ok v ∧ v.Savable := by
  unfold paramJson
  constructor
  · rintro ⟨made, h⟩
    obtain ⟨v, hv, h⟩ := bind_eq_ok.mp h
    obtain ⟨made', hvalue, -⟩ := bind_eq_ok.mp h
    exact ⟨v, lift_eq_ok.mp hv, exists_encode_iff.mp ⟨_, hvalue⟩⟩
  · rintro ⟨v, hv, hsavable⟩
    obtain ⟨⟨value, u⟩, hvalue⟩ := exists_encode hsavable w
    exact ⟨_, by rw [hv]; simp only [liftM_eq_lift, Fallible.lift_ok, ok_bind, hvalue]; rfl⟩

omit [Interchange F] in
theorem whole_slotJson_iff {slot : Option Int} :
    (slotJson slot : Json F).Whole ↔ ∀ n ∈ slot, Json.Short n := by
  cases slot with
  | none => exact iff_of_true .null (by simp)
  | some n =>
    change (Json.integer n : Json F).Whole ↔ _
    rw [Json.whole_integer_iff]
    simp

omit [Interchange F] in
theorem whole_countJson_iff {count : Option (Count F)} :
    (countJson count).Whole ↔ ∀ n, count = some (.whole n) → Json.Short n := by
  match count with
  | none => exact iff_of_true .null (by simp)
  | some (.whole n) =>
    rw [countJson, Json.whole_integer_iff]
    simp
  | some (.flag b) => exact iff_of_true (.bool b) (by simp)
  | some (.real x) => exact iff_of_true (.real x) (by simp)

/-- The tree of an instruction is whole exactly if no integer has too many digits. -/
theorem wholeIff_instructionJson {i : Instruction F} {w w' : Weights} {j : Json F}
    (h : instructionJson w i = .ok (j, w')) : WholeIff w w' j.Whole i.Short := by
  unfold instructionJson at h
  obtain ⟨⟨args, u⟩, hargs, h⟩ := bind_eq_ok.mp h
  obtain ⟨⟨kwargs, u'⟩, hkwargs, h⟩ := bind_eq_ok.mp h
  cases h
  have hwholeArgs := wholeIff_encodeAll _ hargs
  have hwholeKwargs := wholeIff_encode _ hkwargs
  have hnamed : (Value.dict (i.kwargs.map fun p => (.text p.1, p.2))).Short ↔
      ∀ p ∈ i.kwargs, p.2.Short := by
    rw [Value.Short, Value.shortEntries_iff, List.forall_mem_map]
  refine ⟨hwholeArgs.added.trans hwholeKwargs.added, fun hw => ?_⟩
  have hargsIff := hwholeArgs.iff (WholeIff.short_of_extends hwholeKwargs.added hw)
  have hkwargsIff := (hwholeKwargs.iff hw).trans hnamed
  simp only [Json.whole_object_iff, List.forall_mem_cons, Json.Whole.text, Json.whole_array_iff,
    hargsIff, hkwargsIff, whole_integers_iff, whole_slotJson_iff, whole_countJson_iff, true_and,
    List.not_mem_nil, false_imp_iff, implies_true, and_true]
  constructor
  · rintro ⟨hargs, hkwargs, hinputs, hpositions, houtput, hcount⟩
    exact ⟨hargs, hkwargs, ⟨hinputs, hpositions, houtput⟩, hcount⟩
  · rintro ⟨hargs, hkwargs, ⟨hinputs, hpositions, houtput⟩, hcount⟩
    exact ⟨hargs, hkwargs, hinputs, hpositions, houtput, hcount⟩

/-- The tree of a parameter is whole exactly if the settings are writable and no integer has too
many digits. -/
theorem wholeIff_paramJson {s : Store F} {p : ParamEntry F} {w w' : Weights} {j : Json F}
    (h : paramJson s w p = .ok (j, w')) :
    WholeIff w w' j.Whole (Json.Short p.var ∧ (p.weightDecay.Writable ∧ p.learningRate.Writable) ∧
      ∀ v, s.get p.var = .ok v → v.Short) := by
  unfold paramJson at h
  obtain ⟨v, hv, h⟩ := bind_eq_ok.mp h
  obtain ⟨⟨value, u⟩, hvalue, h⟩ := bind_eq_ok.mp h
  cases h
  have hget : s.get p.var = .ok v := lift_eq_ok.mp hv
  have hshort : (∀ v', s.get p.var = .ok v' → v'.Short) ↔ v.Short := by
    rw [hget]
    simp
  have hwhole := wholeIff_encode _ hvalue
  refine ⟨hwhole.added, fun hw => ?_⟩
  simp only [Json.whole_object_iff, List.forall_mem_cons, whole_setting_iff, hwhole.iff hw, hshort,
    Json.whole_integer_iff, Json.Whole.text, true_and, List.not_mem_nil, false_imp_iff,
    implies_true, and_true, and_assoc]

/-- A net has a document exactly if it is encodable. -/
theorem exists_ofNet_iff {c : CompiledNet F} {s : Store F} :
    (∃ made, ofNet c s = .ok made) ↔ c.Encodable s := by
  have hparams : ∀ {w : Weights}, (∃ made, each (paramJson s) w c.params = .ok made) ↔
      ∀ p ∈ c.params, ∃ v, s.get p.var = .ok v ∧ v.Savable :=
    exists_each_iff (t := paramJson s) fun p _ _ => exists_paramJson_iff
  have hstream : ∀ {is : List (Instruction F)} {w : Weights},
      (∃ made, each instructionJson w is = .ok made) ↔
        ∀ i ∈ is, (∀ v ∈ i.args, v.Savable) ∧ ∀ p ∈ i.kwargs, p.2.Savable :=
    exists_each_iff (t := instructionJson) fun i _ _ => exists_instructionJson_iff
  unfold ofNet
  constructor
  · rintro ⟨made, h⟩
    obtain ⟨⟨params, w₁⟩, h₁, h⟩ := bind_eq_ok.mp h
    obtain ⟨⟨shared, w₂⟩, h₂, h⟩ := bind_eq_ok.mp h
    obtain ⟨⟨forward, w₃⟩, h₃, h⟩ := bind_eq_ok.mp h
    obtain ⟨⟨backward, w₄⟩, h₄, h⟩ := bind_eq_ok.mp h
    obtain ⟨⟨test, w₅⟩, h₅, -⟩ := bind_eq_ok.mp h
    refine ⟨hparams.mp ⟨_, h₁⟩, exists_encode_iff.mp ⟨_, h₂⟩, ?_⟩
    rw [List.forall_mem_append, List.forall_mem_append]
    exact ⟨⟨hstream.mp ⟨_, h₃⟩, hstream.mp ⟨_, h₄⟩⟩, hstream.mp ⟨_, h₅⟩⟩
  · rintro ⟨hvalues, hshared, hconstants⟩
    rw [List.forall_mem_append, List.forall_mem_append] at hconstants
    obtain ⟨⟨params, w₁⟩, h₁⟩ := hparams (w := .empty).mpr hvalues
    obtain ⟨⟨shared, w₂⟩, h₂⟩ := exists_encode_iff (w := w₁).mpr hshared
    obtain ⟨⟨forward, w₃⟩, h₃⟩ := hstream (w := w₂).mpr hconstants.1.1
    obtain ⟨⟨backward, w₄⟩, h₄⟩ := hstream (w := w₃).mpr hconstants.1.2
    obtain ⟨⟨test, w₅⟩, h₅⟩ := hstream (w := w₄).mpr hconstants.2
    simp only [h₁, h₂, h₃, h₄, h₅, ok_bind]
    exact ⟨_, rfl⟩

/-- **A net's document is an object, and it is whole exactly if the writer takes the net.** -/
theorem whole_ofNet_iff {c : CompiledNet F} {s : Store F} {j : Json F} {w : Weights}
    (h : ofNet c s = .ok (j, w)) : (∃ es, j = .object es) ∧ (j.Whole ↔ c.Writable s) := by
  have hsize : (∀ j' w', ofNet c s = .ok (j', w') → Json.Short w'.offset) ↔ Json.Short
      w.offset := by
    rw [h]
    exact ⟨fun hall => hall _ _ rfl, fun hw _ _ heq => by cases heq; exact hw⟩
  unfold ofNet at h
  obtain ⟨⟨params, w₁⟩, hparams, h⟩ := bind_eq_ok.mp h
  obtain ⟨⟨shared, w₂⟩, hshared, h⟩ := bind_eq_ok.mp h
  obtain ⟨⟨forward, w₃⟩, hforward, h⟩ := bind_eq_ok.mp h
  obtain ⟨⟨backward, w₄⟩, hbackward, h⟩ := bind_eq_ok.mp h
  obtain ⟨⟨test, w₅⟩, htest, h⟩ := bind_eq_ok.mp h
  cases h
  have hstream : ∀ {is : List (Instruction F)} {u u' : Weights} {js : List (Json F)},
      each instructionJson u is = .ok (js, u') →
        WholeIff u u' (∀ j ∈ js, j.Whole) (∀ i ∈ is, i.Short) :=
    wholeIff_each fun _ _ _ _ _ => wholeIff_instructionJson
  -- The parts that put bytes into the weights, in the order in which they are written.
  have hvalues := (wholeIff_each (fun _ _ _ _ _ => wholeIff_paramJson) hparams).and
    ((wholeIff_encode _ hshared).and
      ((hstream hforward).and ((hstream hbackward).and (hstream htest))))
  have hinputs : (inputsJson c.inputs : Json F).Whole ↔ ∀ e ∈ c.inputs, Json.Short e.2 := by
    unfold inputsJson
    simp only [Json.whole_object_iff, List.forall_mem_map, Json.whole_integer_iff]
  have hmonitors : (∀ j ∈ c.diagnostics.map (monitorJson (F := F)), j.Whole) ↔
      ∀ e ∈ c.diagnostics, Json.Short e.var ∧ Json.Short e.der := by
    simp only [List.forall_mem_map, monitorJson, Json.whole_object_iff, List.forall_mem_cons,
      Json.whole_integer_iff, Json.Whole.text, List.not_mem_nil, false_imp_iff, implies_true,
      and_true]
  have hformat : Json.Short ((formatNumber : Nat) : Int) := by decide
  refine ⟨⟨_, rfl⟩, ?_⟩
  simp only [Json.whole_object_iff, List.forall_mem_cons, hinputs, Json.whole_array_iff, hmonitors,
    Json.ofNat, Json.whole_integer_iff, hformat, true_and, List.not_mem_nil, false_imp_iff,
    implies_true, and_true]
  constructor
  · rintro ⟨hnum, hins, hps, hms, hsh, hfs, hbs, hts, hw⟩
    -- The size of the weights bounds all offsets and sizes in the document.
    obtain ⟨hps, hsh, hfs, hbs, hts⟩ := (hvalues.iff hw).mp ⟨hps, hsh, hfs, hbs, hts⟩
    refine ⟨fun p hp => (hps p hp).2.1, fun p hp => (hps p hp).2.2, hsh, ?_,
      ⟨hnum, hins, fun p hp => (hps p hp).1⟩, hms, hsize.mpr hw⟩
    rw [List.forall_mem_append, List.forall_mem_append]
    exact ⟨⟨hfs, hbs⟩, hts⟩
  · rintro ⟨hsettings, hps, hsh, his, ⟨hnum, hins, hvars⟩, hms, hw⟩
    have hw := hsize.mp hw
    rw [List.forall_mem_append, List.forall_mem_append] at his
    obtain ⟨hps, hsh, hfs, hbs, hts⟩ := (hvalues.iff hw).mpr
      ⟨fun p hp => ⟨hvars p hp, hsettings p hp, hps p hp⟩, hsh, his.1.1, his.1.2, his.2⟩
    exact ⟨hnum, hins, hps, hms, hsh, hfs, hbs, hts, hw⟩

end

end NetDocument
end Saved
end SlotGrad
