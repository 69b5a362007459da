import SlotGrad.Proofs.JsonTrees
import SlotGrad.Proofs.StoredArrays
import SlotGrad.Saved.Codec

/-!
# Values read back from documents

A value is saved as a tree, and its arrays are added to the weights; whatever else is added
later, the tree and the weights give the value back.  The one thing that is lost is the type of
a single element of double precision, which comes back as a plain real number.

## Main definitions

* `Value.Lawful` — values whose numbers are numbers of their types and whose dictionaries give each
  key once.
* `Value.saved` — what a value comes back as.
* `Weights.Extends`, `Weights.Within` — weights that go on after others, and that are the start of a
  file's bytes.

## Main results

* `Saved.encode_restores` — a value that is saved comes back.
* `Saved.encodeAll_restores`, `Saved.encodeNamed_restores` — and so do several ones, and
  arguments by name.
-/

namespace SlotGrad

variable {F : Type}

namespace Value

/-- The numbers in the value are numbers of their types, and its dictionaries give each key once. -/
inductive Lawful [Interchange F] : Value F → Prop where
  | none : Lawful .none
  | flag (b : Bool) : Lawful (.flag b)
  | integer (n : Int) : Lawful (.integer n)
  | real {x : F} (hx : Saved.IsDouble x) : Lawful (.real x)
  | text (s : String) : Lawful (.text s)
  | list {xs : List (Value F)} (hxs : ∀ x ∈ xs, Lawful x) : Lawful (.list xs)
  | tuple {xs : List (Value F)} (hxs : ∀ x ∈ xs, Lawful x) : Lawful (.tuple xs)
  | dict {es : List (Value F × Value F)} (hkeys : (es.map Prod.fst).Nodup)
    (hes : ∀ e ∈ es, Lawful e.2) : Lawful (.dict es)
  | slice {a b c : Value F} (ha : Lawful a) (hb : Lawful b) (hc : Lawful c) :
    Lawful (.slice a b c)
  | ellipsis : Lawful .ellipsis
  | array {t : Tensor F} (ht : t.Exact) : Lawful (.array t)
  | scalar {d : Dtype} {x : Elem F d} (hx : Elem.Exact d x) : Lawful (.scalar d x)
  | device {t : Tensor F} (ht : t.Exact) : Lawful (.device t)
  | objects (s : List Nat) (xs : List (Value F)) : Lawful (.objects s xs)
  | node (h : Handle) : Lawful (.node h)
  | function (f : Fn) : Lawful (.function f)
  | op (o : Op) : Lawful (.op o)
  | other : Lawful .other

mutual

/-- What the value comes back as when it is saved: a single element of double precision as a plain
number, and a tensor of the accelerator library as an array. -/
def saved : Value F → Value F
  | scalar .float64 x => real x
  | device t => array t
  | list xs => list (savedAll xs)
  | tuple xs => tuple (savedAll xs)
  | dict es => dict (savedEntries es)
  | slice a b c => slice (saved a) (saved b) (saved c)
  | v => v

/-- What several values come back as. -/
def savedAll : List (Value F) → List (Value F)
  | [] => []
  | x :: xs => saved x :: savedAll xs

/-- What several entries come back as. -/
def savedEntries : List (Value F × Value F) → List (Value F × Value F)
  | [] => []
  | (k, x) :: es => (k, saved x) :: savedEntries es

end

theorem savedAll_eq_map (xs : List (Value F)) : savedAll xs = xs.map saved := by
  induction xs with
  | nil => rfl
  | cons x xs ih => rw [savedAll, ih, List.map_cons]

theorem savedEntries_eq_map (es : List (Value F × Value F)) :
    savedEntries es = es.map fun e => (e.1, e.2.saved) := by
  induction es with
  | nil => rfl
  | cons e es ih => rw [savedEntries, ih, List.map_cons]

end Value

namespace Saved

/-! ### Weights that go on -/

namespace Weights

/-- Some weights go on after others. -/
structure Extends (w w' : Weights) : Prop where
  /-- The bytes of the others come first. -/
  bytes : w.bytes <+: w'.bytes
  /-- No array is lost. -/
  arrays : w.arrays ≤ w'.arrays

theorem Extends.refl (w : Weights) : w.Extends w := ⟨List.prefix_refl _, le_rfl⟩

theorem Extends.trans {u v w : Weights} (huv : u.Extends v) (hvw : v.Extends w) : u.Extends w :=
  ⟨huv.bytes.trans hvw.bytes, huv.arrays.trans hvw.arrays⟩

/-- The weights are the start of a file's bytes, or hold no array. -/
def Within (w : Weights) (raw : Option Bytes) : Prop :=
  0 < w.arrays → ∃ bytes, raw = some bytes ∧ w.bytes <+: bytes

/-- Weights that others go on after are the start of what the others are the start of. -/
theorem Extends.within {w w' : Weights} (h : w.Extends w') {raw : Option Bytes}
    (hw : w'.Within raw) : w.Within raw := by
  intro hpos
  obtain ⟨bytes, hraw, hprefix⟩ := hw (hpos.trans_le h.arrays)
  exact ⟨bytes, hraw, h.bytes.trans hprefix⟩

variable [Interchange F]

theorem extends_add (w : Weights) (t : Tensor F) (scalar : Bool) :
    w.Extends (w.add t scalar).2 := by
  constructor
  · rw [bytes_add]
    exact List.prefix_append _ _
  · rw [arrays_add]
    exact Nat.le_succ _

end Weights

/-! ### Trees of arrays -/

section

variable [Interchange F]

theorem doubles_integers (ns : List Int) :
    (Json.array (ns.map (Json.integer (F := F)))).Doubles := by
  apply Json.Doubles.array
  intro x hx
  obtain ⟨n, -, rfl⟩ := List.mem_map.mp hx
  exact .integer n

theorem doubles_tagged (t : Tag) {j : Json F} (hj : j.Doubles) : (tagged t j).Doubles :=
  .object (by simpa using hj)

theorem WeightEntry.doubles_toJson (e : WeightEntry) : (e.toJson : Json F).Doubles := by
  have hshape : (Json.array (e.shape.map (Json.ofNat (F := F)))).Doubles := by
    have hall := doubles_integers (F := F) (e.shape.map Int.ofNat)
    rw [List.map_map] at hall
    exact hall
  apply Json.Doubles.object
  intro p hp
  simp only [List.mem_cons, List.not_mem_nil, or_false] at hp
  rcases hp with rfl | rfl | rfl | rfl | rfl
  · exact .integer _
  · exact .integer _
  · exact .text _
  · exact hshape
  · exact .bool _

end

theorem merged_tagged (t : Tag) (j : Json F) : (tagged t j).merged = tagged t j.merged :=
  Json.merged_object (by simp)

theorem WeightEntry.merged_toJson (e : WeightEntry) : (e.toJson : Json F).merged = e.toJson := by
  have hshape : (Json.array (e.shape.map (Json.ofNat (F := F)))).merged
      = .array (e.shape.map .ofNat) := by
    rw [Json.merged_array, List.map_map]
    rfl
  unfold WeightEntry.toJson
  rw [Json.merged_object (by simp)]
  simp only [List.map_cons, List.map_nil, hshape]
  rfl

/-! ### Reading by the tag -/

section

variable [Arith F] [Interchange F] (raw : Option Bytes)

theorem decode_array (xs : List (Json F)) :
    decode raw (.array xs) = (do return .list (← decodeAll raw xs)) := by
  rw [decode]

/-- An object of a single tag is read by it. -/
theorem decode_tagged (t : Tag) (j : Json F) : decode raw (tagged t j) = decodeTagged raw t j := by
  have htag : tagged? [(t.key, j)] = some (t, j) := by
    cases t <;> rfl
  unfold tagged
  rw [decode]
  split
  · rename_i u x hu
    rw [htag] at hu
    cases hu
    rfl
  · rename_i hnone
    rw [htag] at hnone
    cases hnone

theorem decodeItems_array (xs : List (Json F)) :
    decodeItems raw (.array xs) = decodeAll raw xs := by
  rw [decodeItems]

/-- Entries are read like the members of an array, and keep their keys. -/
theorem decodeEntries_of_decodeAll {es : List (String × Json F)} {vs : List (Value F)}
    (h : decodeAll raw (es.map Prod.snd) = .ok vs) :
    decodeEntries raw es = .ok (List.zipWith (fun e v => (.text e.1, v)) es vs) := by
  induction es generalizing vs with
  | nil =>
    rw [decodeEntries]
    rfl
  | cons e es ih =>
    obtain ⟨k, j⟩ := e
    rw [List.map_cons, decodeAll] at h
    obtain ⟨v, hv, h⟩ := bind_eq_ok.mp h
    obtain ⟨us, hus, h⟩ := bind_eq_ok.mp h
    cases h
    rw [decodeEntries, hv, ok_bind, ih hus]
    rfl

end

/-! ### Saved values -/

section

variable [Arith F] [Interchange F]

/-- A tree that is written whole and gives the value back from all weights that go on after the ones
that the tree refers to. -/
structure Restores (w : Weights) (v : Value F) (j : Json F) (w' : Weights) : Prop where
  /-- The arrays of the value were added. -/
  added : w.Extends w'
  /-- Real numbers are doubles. -/
  doubles : j.Doubles
  /-- No key is given twice. -/
  merged : j.merged = j
  /-- The tree gives the value back. -/
  decode_eq : ∀ {raw : Option Bytes}, w'.Within raw → decode raw j = .ok v.saved

/-- The trees of several values, likewise. -/
structure RestoresAll (w : Weights) (vs : List (Value F)) (js : List (Json F)) (w' : Weights) :
    Prop where
  /-- The arrays of the values were added. -/
  added : w.Extends w'
  /-- There is one tree for each value. -/
  length_eq : js.length = vs.length
  /-- Real numbers are doubles. -/
  doubles : ∀ j ∈ js, j.Doubles
  /-- No key is given twice. -/
  merged : Json.mergedAll js = js
  /-- The trees give the values back. -/
  decodeAll_eq : ∀ {raw : Option Bytes}, w'.Within raw → decodeAll raw js = .ok (vs.map Value.saved)

/-- The weights within a file hold the bytes of the array that was added last. -/
theorem readArray_of_within {t : Tensor F} (ht : t.Patterned) {w : Weights} {scalar : Bool}
    {raw : Option Bytes} (hraw : (w.add t scalar).2.Within raw) :
    readArray ((w.add t scalar).1.toJson : Json F) raw
      = .ok (if scalar then Value.reduced t else .array t) := by
  obtain ⟨bytes, rfl, after, rfl⟩ := hraw (by simp)
  exact readArray_entry ht w scalar after

/-- A tensor comes back from the weights. -/
theorem encodeTensor_restores {t : Tensor F} (ht : t.Exact) {v : Value F} {scalar : Bool}
    (hv : v.saved = if scalar then Value.reduced t else .array t) (w : Weights) :
    Restores w v (encodeTensor t scalar w).1 (encodeTensor t scalar w).2 where
  added := w.extends_add t scalar
  doubles := doubles_tagged .array (WeightEntry.doubles_toJson _)
  merged := by
    change (tagged .array (w.add t scalar).1.toJson).merged = _
    rw [merged_tagged, WeightEntry.merged_toJson]
    rfl
  decode_eq hraw := by
    change decode _ (tagged .array (w.add t scalar).1.toJson) = _
    rw [decode_tagged, decodeTagged, hv]
    exact readArray_of_within ht.patterned hraw

/-- Several values come back if each of them does. -/
theorem encodeAll_restoresAll {vs : List (Value F)} {w w' : Weights} {js : List (Json F)}
    (hvs : ∀ v ∈ vs, ∀ {w w' : Weights} {j : Json F}, encode w v = .ok (j, w') → Restores w v j w')
    (h : encodeAll w vs = .ok (js, w')) : RestoresAll w vs js w' := by
  induction vs generalizing w js with
  | nil =>
    rw [encodeAll] at h
    cases h
    refine ⟨.refl _, rfl, by simp, rfl, fun _ => ?_⟩
    rw [decodeAll]
    rfl
  | cons v vs ih =>
    rw [encodeAll] at h
    obtain ⟨⟨j, u⟩, hj, h⟩ := bind_eq_ok.mp h
    obtain ⟨⟨js, u'⟩, hjs, h⟩ := bind_eq_ok.mp h
    cases h
    have hfirst := hvs v List.mem_cons_self hj
    have hothers := ih (fun x hx => hvs x (List.mem_cons_of_mem _ hx)) hjs
    refine ⟨hfirst.added.trans hothers.added, ?_, ?_, ?_, fun hraw => ?_⟩
    · rw [List.length_cons, List.length_cons, hothers.length_eq]
    · exact List.forall_mem_cons.mpr ⟨hfirst.doubles, hothers.doubles⟩
    · rw [Json.mergedAll, hfirst.merged, hothers.merged]
    · rw [decodeAll, hfirst.decode_eq (hothers.added.within hraw), ok_bind,
        hothers.decodeAll_eq hraw]
      rfl

omit [Arith F] in
/-- Entries are saved like the members of a list. -/
theorem encodeEntries_eq_encodeAll (w : Weights) (es : List (Value F × Value F)) :
    encodeEntries w es = encodeAll w (es.map Prod.snd) := by
  induction es generalizing w with
  | nil => rw [encodeEntries, List.map_nil, encodeAll]
  | cons e es ih =>
    rw [encodeEntries, List.map_cons, encodeAll]
    simp only [ih]

omit [Arith F] [Interchange F] in
/-- The keys of a dictionary that can be saved are texts. -/
theorem map_fst_of_textKeys? {es : List (Value F × Value F)} {keys : List String}
    (h : textKeys? es = some keys) : es.map Prod.fst = keys.map .text := by
  unfold textKeys? at h
  induction es generalizing keys with
  | nil =>
    cases h
    rfl
  | cons e es ih =>
    obtain ⟨k, x⟩ := e
    rw [List.mapM_cons] at h
    obtain ⟨first, hfirst, h⟩ := Option.bind_eq_some_iff.mp h
    obtain ⟨rest, hrest, h⟩ := Option.bind_eq_some_iff.mp h
    cases h
    cases k with
    | text k =>
      cases hfirst
      rw [List.map_cons, List.map_cons, ih hrest]
    | _ => cases hfirst

omit [Arith F] [Interchange F] in
/-- Entries under the texts of their keys are what a dictionary comes back as. -/
theorem zipWith_text_saved {es : List (Value F × Value F)} {keys : List String}
    (h : es.map Prod.fst = keys.map .text) {js : List (Json F)}
    (hlength : js.length = keys.length) :
    List.zipWith (fun (e : String × Json F) v => (Value.text e.1, v)) (keys.zip js)
        ((es.map Prod.snd).map Value.saved) = Value.savedEntries es := by
  rw [Value.savedEntries_eq_map]
  induction es generalizing keys js with
  | nil =>
    obtain rfl : keys = [] := List.map_eq_nil_iff.mp h.symm
    rfl
  | cons e es ih =>
    obtain ⟨k, keys, rfl⟩ := List.exists_cons_of_ne_nil (l := keys) (by rintro rfl; cases h)
    obtain ⟨j, js, rfl⟩ := List.exists_cons_of_ne_nil (l := js) (by rintro rfl; cases hlength)
    rw [List.map_cons, List.map_cons, List.cons.injEq] at h
    have hothers := ih h.2 (Nat.succ.inj hlength)
    simp only [List.map_cons, List.zip_cons_cons, List.zipWith_cons_cons, h.1] at hothers ⊢
    rw [hothers]

/-- A value without members or arrays comes back from any weights. -/
theorem restores_of_leaf {w : Weights} {v : Value F} {j : Json F} (hdoubles : j.Doubles)
    (harray : ∀ xs, j ≠ .array xs) (hobject : ∀ es, j ≠ .object es) (hvalue : j.value = v.saved) :
    Restores w v j w where
  added := .refl w
  doubles := hdoubles
  merged := by
    unfold Json.merged
    split
    · exact absurd rfl (harray _)
    · exact absurd rfl (hobject _)
    · rfl
  decode_eq _ := by
    rw [decode, hvalue]
    · exact harray
    · exact hobject

omit [Arith F] in
/-- A tensor without axes is exact if its element is. -/
theorem exact_single {d : Dtype} {x : Elem F d} (hx : Elem.Exact d x) :
    (Tensor.single d x).Exact := by
  intro y hy
  cases List.mem_singleton.mp hy
  exact hx

/-- **A value that is saved comes back.** -/
theorem encode_restores {v : Value F} (hv : v.Lawful) {w w' : Weights} {j : Json F}
    (h : encode w v = .ok (j, w')) : Restores w v j w' := by
  induction hv generalizing w w' j with
  | none | flag | integer | text =>
    rw [encode] at h
    cases h
    exact restores_of_leaf (by constructor) (by simp) (by simp) rfl
  | real hx =>
    rw [encode] at h
    cases h
    exact restores_of_leaf (.real hx) (by simp) (by simp) rfl
  -- Written under a tag, which is what tells it from the values that have a form of their own.
  | ellipsis =>
    rw [encode] at h
    cases h
    refine ⟨.refl _, doubles_tagged _ (.bool _), merged_tagged _ _, fun _ => ?_⟩
    rw [decode_tagged, decodeTagged]
    rfl
  | array ht =>
    rw [encode] at h
    cases h
    exact encodeTensor_restores ht rfl _
  | device ht =>
    rw [encode] at h
    cases h
    exact encodeTensor_restores ht rfl _
  | @scalar d x hx =>
    cases d with
    | float64 =>
      rw [encode] at h
      cases h
      exact restores_of_leaf (.real hx) (by simp) (by simp) rfl
    -- Of a single element in these types the bytes are kept, as of an array.
    | bool | int32 | int64 | float32 =>
      rw [encode] at h
      · cases h
        exact encodeTensor_restores (exact_single hx) rfl _
      · exact fun y hy => by cases hy
  | list _ ih =>
    rw [encode] at h
    obtain ⟨⟨js, u⟩, hjs, h⟩ := bind_eq_ok.mp h
    cases h
    have hall := encodeAll_restoresAll ih hjs
    refine ⟨hall.added, .array hall.doubles, ?_, fun hraw => ?_⟩
    · rw [Json.merged, hall.merged]
    · rw [decode_array, hall.decodeAll_eq hraw, Value.saved, Value.savedAll_eq_map]
      rfl
  | tuple _ ih =>
    rw [encode] at h
    obtain ⟨⟨js, u⟩, hjs, h⟩ := bind_eq_ok.mp h
    cases h
    have hall := encodeAll_restoresAll ih hjs
    refine ⟨hall.added, doubles_tagged _ (.array hall.doubles), ?_, fun hraw => ?_⟩
    · rw [merged_tagged, Json.merged, hall.merged]
    · rw [decode_tagged, decodeTagged, decodeItems_array, hall.decodeAll_eq hraw, Value.saved,
        Value.savedAll_eq_map]
      rfl
  | slice _ _ _ iha ihb ihc =>
    rw [encode] at h
    obtain ⟨⟨start, u⟩, hstart, h⟩ := bind_eq_ok.mp h
    obtain ⟨⟨stop, u'⟩, hstop, h⟩ := bind_eq_ok.mp h
    obtain ⟨⟨step, u''⟩, hstep, h⟩ := bind_eq_ok.mp h
    cases h
    have ha := iha hstart
    have hb := ihb hstop
    have hc := ihc hstep
    -- The weights grow from the start to the stop to the step, and a reader has them all.
    refine ⟨ha.added.trans (hb.added.trans hc.added), doubles_tagged _ (.array ?_), ?_,
      fun hraw => ?_⟩
    · simpa using ⟨ha.doubles, hb.doubles, hc.doubles⟩
    · simp only [merged_tagged, Json.merged, Json.mergedAll, ha.merged, hb.merged, hc.merged]
    · have hbraw := hc.added.within hraw
      rw [decode_tagged, decodeTagged, decodeItems_array]
      simp only [decodeAll, ha.decode_eq (hb.added.within hbraw), hb.decode_eq hbraw,
        hc.decode_eq hraw, ok_bind]
      rfl
  | @dict es hkeys _ ih =>
    rw [encode] at h
    split at h
    · rename_i keys htexts
      obtain ⟨⟨js, u⟩, hjs, h⟩ := bind_eq_ok.mp h
      cases h
      rw [encodeEntries_eq_encodeAll] at hjs
      have hall := encodeAll_restoresAll (fun v hv => by
        obtain ⟨e, he, rfl⟩ := List.mem_map.mp hv
        exact ih e he) hjs
      have hfst := map_fst_of_textKeys? htexts
      have hlength : js.length = keys.length := by
        rw [hall.length_eq, List.length_map, ← List.length_map (f := Prod.fst), hfst,
          List.length_map]
      have hzipfst : (keys.zip js).map Prod.fst = keys := List.map_fst_zip hlength.ge
      have hzipsnd : (keys.zip js).map Prod.snd = js := List.map_snd_zip hlength.le
      -- No two keys are the same text, so no entry of the object is lost to another.
      have hnodup : ((keys.zip js).map Prod.fst).Nodup := by
        rw [hzipfst]
        rw [hfst] at hkeys
        exact hkeys.of_map _
      refine ⟨hall.added, doubles_tagged _ (.object fun e he => ?_), ?_, fun hraw => ?_⟩
      · exact hall.doubles _ (List.of_mem_zip he).2
      · have hmap : js.map Json.merged = js := by rw [← Json.mergedAll_eq_map, hall.merged]
        rw [merged_tagged, Json.merged_object hnodup]
        nth_rewrite 2 [← hmap]
        rw [List.zip_map_right]
        rfl
      · rw [decode_tagged, decodeTagged, decodeEntries_of_decodeAll _ (by
          rw [hzipsnd]
          exact hall.decodeAll_eq hraw), zipWith_text_saved hfst hlength]
        rfl
    · cases h
  | objects | node | function | op | other =>
    rw [encode] at h
    cases h

/-- Several values that are saved come back. -/
theorem encodeAll_restores {vs : List (Value F)} (hvs : ∀ v ∈ vs, v.Lawful) {w w' : Weights}
    {js : List (Json F)} (h : encodeAll w vs = .ok (js, w')) : RestoresAll w vs js w' :=
  encodeAll_restoresAll (fun v hv _ _ _ => encode_restores (hvs v hv)) h

/-- Arguments by name that are saved are those of a dictionary. -/
theorem encodeNamed_restores {named : List (String × Value F)} (hkeys : (named.map Prod.fst).Nodup)
    (hnamed : ∀ p ∈ named, p.2.Lawful) {w w' : Weights} {j : Json F}
    (h : encodeNamed w named = .ok (j, w')) :
    Restores w (.dict (named.map fun (k, v) => (.text k, v))) j w' := by
  refine encode_restores (.dict ?_ fun e he => ?_) h
  · have hinjective : Function.Injective (Value.text : String → Value F) := fun _ _ h => by
      cases h
      rfl
    rw [List.map_map]
    have hcomp := hkeys.map hinjective
    rw [List.map_map] at hcomp
    exact hcomp
  · obtain ⟨p, hp, rfl⟩ := List.mem_map.mp he
    exact hnamed p hp

/-- Arguments by name come back from the tree of a dictionary. -/
theorem Restores.decodeNamed_eq {named : List (String × Value F)} {w w' : Weights} {j : Json F}
    (h : Restores w (.dict (named.map fun (k, v) => (.text k, v))) j w') {raw : Option Bytes}
    (hraw : w'.Within raw) :
    decodeNamed raw j = .ok (named.map fun p => (p.1, p.2.saved)) := by
  unfold decodeNamed
  rw [h.decode_eq hraw, Value.saved, Value.savedEntries_eq_map, ok_bind]
  dsimp only
  rw [mapM_eq_ok, List.forall₂_map_left_iff, List.forall₂_map_right_iff, List.forall₂_map_left_iff,
    List.forall₂_same]
  exact fun _ _ => rfl

end

end Saved
end SlotGrad
