import SlotGrad.Proofs.SavedAgain

/-!
# Weights tile their file

The bytes of arrays are written one after another, and every array has an entry that says where its
bytes start and how many they are.  Whatever is written, and in whatever order, the entries follow
each other without gaps from the start of the file to its end, and every one of them leads back to
what it was made for.  What stands before and after an array does not matter to a reader, so neither
do the sizes of other elements: an array may start anywhere.

Bytes are those of the elements in row-major order.  How an array lies in memory is not seen in
them.  The elements are those of the five types of `Dtype`.  Elements that are records of several
fields are no values of the model: the name of their type, which is all that an entry tells of it,
does not tell the fields.

## Main definitions

* `Stored`, `CompiledNet.stored` — arrays and single elements, and those of a net.
* `Weights.addEach` — the entries of several things, and the weights with their bytes.
* `Tiles` — entries that follow each other.
* `Describes` — an entry that leads back to what it was made for.

## Main results

* `Weights.tiles_addEach`, `Weights.describes_addEach` — entries follow each other, and lead back.
* `NetDocument.grows_ofNet` — the weights of a saved net are those of its arrays and elements.
* `manifest_tiles_file` — all of it, up to the end of the file.
-/

namespace SlotGrad
namespace Saved

/-! ### Things to store -/

/-- What is stored in weights: an array, or a single element that was taken out of one. -/
inductive Stored (F : Type) where
  /-- An array of any shape, also one without axes or without elements. -/
  | array (t : Tensor F)
  /-- An element of a type. -/
  | element (d : Dtype) (x : Elem F d)

namespace Stored

variable {F : Type}

/-- The elements as a tensor. -/
def tensor : Stored F → Tensor F
  | array t => t
  | element d x => ⟨d, .single x⟩

/-- Whether it is a single element. -/
def isElement : Stored F → Bool
  | array _ => false
  | element _ _ => true

/-- It as a value. -/
def value : Stored F → Value F
  | array t => .array t
  | element d x => .scalar d x

theorem value_eq [Arith F] (a : Stored F) :
    (if a.isElement then Value.reduced a.tensor else .array a.tensor) = a.value := by
  cases a <;> rfl

end Stored

end Saved

variable {F : Type}

namespace Value

open Saved (Stored)

mutual

/-- The arrays and single elements of a value, in the order in which they are written.  An element
of double precision is written as a number. -/
def stored : Value F → List (Stored F)
  | scalar .float64 _ => []
  | scalar d x => [.element d x]
  | array t => [.array t]
  | device t => [.array t]
  | list xs => storedAll xs
  | tuple xs => storedAll xs
  | dict es => storedEntries es
  | slice a b c => stored a ++ (stored b ++ stored c)
  | _ => []

/-- Those of several values. -/
def storedAll : List (Value F) → List (Stored F)
  | [] => []
  | v :: vs => stored v ++ storedAll vs

/-- Those of the values of several entries. -/
def storedEntries : List (Value F × Value F) → List (Stored F)
  | [] => []
  | (_, v) :: es => stored v ++ storedEntries es

end

end Value

/-- The arrays and elements of a parameter's value. -/
def ParamEntry.stored (s : Store F) (p : ParamEntry F) : List (Saved.Stored F) :=
  match s.get p.var with
  | .ok v => v.stored
  | .error _ => []

/-- The arrays and elements of an instruction's arguments. -/
def Instruction.stored (i : Instruction F) : List (Saved.Stored F) :=
  Value.storedAll i.args ++ Value.storedEntries (i.kwargs.map fun p => (.text p.1, p.2))

/-- The arrays and elements of a net on a store, in the order in which they are written. -/
def CompiledNet.stored (c : CompiledNet F) (s : Store F) : List (Saved.Stored F) :=
  c.params.flatMap (ParamEntry.stored s) ++ (c.meta.stored ++
    (c.forward.flatMap Instruction.stored ++
      (c.backward.flatMap Instruction.stored ++ c.test.flatMap Instruction.stored)))

namespace Saved

variable [Interchange F]

/-- The entries of several things, and the weights with their bytes added at the end. -/
def Weights.addEach (w : Weights) : List (Stored F) → List WeightEntry × Weights
  | [] => ([], w)
  | a :: as =>
    let (e, w) := w.add a.tensor a.isElement
    let (es, w) := w.addEach as
    (e :: es, w)

/-! ### Entries that follow each other -/

/-- The entries take all bytes from a first place on up to a last one, each starting where the one
before it ends. -/
inductive Tiles : Nat → List WeightEntry → Nat → Prop where
  /-- No entries take no bytes. -/
  | nil (n : Nat) : Tiles n [] n
  /-- An entry starts at the first place, and the others where it ends. -/
  | cons {e : WeightEntry} {es : List WeightEntry} {stop : Nat} :
    Tiles (e.offset + e.size) es stop → Tiles e.offset (e :: es) stop

/-- An entry tells what it was made for, and leads back to it among the bytes of a file. -/
structure Describes [Arith F] (raw : Bytes) (a : Stored F) (e : WeightEntry) : Prop where
  /-- The type of the elements. -/
  dtype : e.dtype = a.tensor.dtype
  /-- The extents. -/
  shape : e.shape = a.tensor.shape
  /-- So many bytes are taken as the type and the extents say. -/
  size : e.size = a.tensor.shape.size * a.tensor.dtype.itemSize
  /-- Single elements are told from arrays without axes. -/
  scalar : e.scalar = a.isElement
  /-- The reader gives back an array for an array, and an element for an element. -/
  read : readArray (e.toJson : Json F) (some raw) = .ok a.value

namespace Weights

@[simp] theorem addEach_nil (w : Weights) : w.addEach ([] : List (Stored F)) = ([], w) := rfl

@[simp] theorem addEach_cons (w : Weights) (a : Stored F) (as : List (Stored F)) :
    w.addEach (a :: as) = ((w.add a.tensor a.isElement).1 ::
        ((w.add a.tensor a.isElement).2.addEach as).1,
      ((w.add a.tensor a.isElement).2.addEach as).2) := rfl

/-- Things are added one after another. -/
theorem addEach_append (w : Weights) (as bs : List (Stored F)) :
    (w.addEach (as ++ bs)).2 = ((w.addEach as).2.addEach bs).2 := by
  induction as generalizing w with
  | nil => rfl
  | cons a as ih => simp [ih]

theorem extends_addEach (w : Weights) (as : List (Stored F)) : w.Extends (w.addEach as).2 := by
  induction as generalizing w with
  | nil => exact .refl w
  | cons a as ih => exact (w.extends_add a.tensor a.isElement).trans (ih _)

/-- The entries take the bytes that are added, one after another. -/
theorem tiles_addEach (w : Weights) (as : List (Stored F)) :
    Tiles w.bytes.length (w.addEach as).1 (w.addEach as).2.bytes.length := by
  induction as generalizing w with
  | nil => exact .nil _
  | cons a as ih =>
    have hrest := ih (w.add a.tensor a.isElement).2
    rw [← end_add] at hrest
    have htiles := Tiles.cons hrest
    rw [offset_add] at htiles
    exact htiles

/-- Every entry leads back to what was added. -/
theorem describes_addEach [Arith F] (w : Weights) {as : List (Stored F)}
    (has : ∀ a ∈ as, a.tensor.Patterned) {raw : Bytes}
    (hraw : (w.addEach as).2.bytes <+: raw) :
    List.Forall₂ (Describes raw) as (w.addEach as).1 := by
  induction as generalizing w with
  | nil => exact .nil
  | cons a as ih =>
    -- What is added later goes on after the bytes of the first.
    have hwithin : (w.add a.tensor a.isElement).2.Within (some raw) := fun _ =>
      ⟨raw, rfl, (extends_addEach (w.add a.tensor a.isElement).2 as).bytes.trans hraw⟩
    have hread := readArray_of_within (has a (List.mem_cons_self ..)) hwithin
    rw [a.value_eq] at hread
    exact .cons ⟨rfl, rfl, a.tensor.length_toBytes, rfl, hread⟩
      (ih _ (fun b hb => has b (List.mem_cons_of_mem _ hb)) hraw)

end Weights

/-! ### The weights of a saved net -/

/-- Some weights are others with things added. -/
def Weights.Grows (w : Weights) (items : List (Stored F)) (w' : Weights) : Prop :=
  (w.addEach items).2 = w'

theorem Weights.Grows.nil (w : Weights) : w.Grows ([] : List (Stored F)) w := rfl

theorem Weights.Grows.append {u v w : Weights} {as bs : List (Stored F)} (huv : u.Grows as v)
    (hvw : v.Grows bs w) : u.Grows (as ++ bs) w := by
  unfold Grows at huv hvw ⊢
  rw [addEach_append, huv, hvw]

theorem Weights.grows_encodeTensor (w : Weights) (a : Stored F) :
    w.Grows [a] (encodeTensor a.tensor a.isElement w).2 := rfl

mutual

/-- The tree of a value is written with its arrays and elements added to the weights. -/
theorem grows_encode : ∀ (v : Value F) {w w' : Weights} {j : Json F}, encode w v = .ok (j, w') →
    w.Grows v.stored w'
  | .none, _, _, _, h | .flag _, _, _, _, h | .integer _, _, _, _, h | .real _, _, _, _, h
  | .text _, _, _, _, h | .ellipsis, _, _, _, h => by
    cases h
    exact .nil _
  | .objects .., _, _, _, h | .node _, _, _, _, h | .function _, _, _, _, h | .op _, _, _, _, h
  | .other, _, _, _, h => by cases h
  | .scalar d x, w, _, _, h => by
    cases d with
    | float64 =>
      cases h
      exact .nil _
    | bool | int32 | int64 | float32 =>
      cases h
      exact w.grows_encodeTensor (.element _ x)
  | .array t, w, _, _, h => by
    cases h
    exact w.grows_encodeTensor (.array t)
  | .device t, w, _, _, h => by
    rw [encode] at h
    cases h
    exact w.grows_encodeTensor (.array t)
  | .list xs, _, _, _, h => by
    rw [encode] at h
    obtain ⟨⟨js, u⟩, hjs, h⟩ := bind_eq_ok.mp h
    cases h
    exact grows_encodeAll xs hjs
  | .tuple xs, _, _, _, h => by
    rw [encode] at h
    obtain ⟨⟨js, u⟩, hjs, h⟩ := bind_eq_ok.mp h
    cases h
    exact grows_encodeAll xs hjs
  -- Weights are handed on from the start to the stop and from there to the step.
  | .slice a b c, _, _, _, h => by
    rw [encode] at h
    obtain ⟨⟨start, u⟩, ha, h⟩ := bind_eq_ok.mp h
    obtain ⟨⟨stop, u'⟩, hb, h⟩ := bind_eq_ok.mp h
    obtain ⟨⟨step, u''⟩, hc, h⟩ := bind_eq_ok.mp h
    cases h
    exact (grows_encode a ha).append ((grows_encode b hb).append (grows_encode c hc))
  | .dict es, _, _, _, h => by
    rw [encode] at h
    split at h
    · obtain ⟨⟨js, u⟩, hjs, h⟩ := bind_eq_ok.mp h
      cases h
      exact grows_encodeEntries es hjs
    · cases h

theorem grows_encodeAll : ∀ (vs : List (Value F)) {w w' : Weights} {js : List (Json F)},
    encodeAll w vs = .ok (js, w') → w.Grows (Value.storedAll vs) w'
  | [], _, _, _, h => by
    cases h
    exact .nil _
  | v :: vs, _, _, _, h => by
    rw [encodeAll] at h
    obtain ⟨⟨j, u⟩, hj, h⟩ := bind_eq_ok.mp h
    obtain ⟨⟨js, u'⟩, hjs, h⟩ := bind_eq_ok.mp h
    cases h
    exact (grows_encode v hj).append (grows_encodeAll vs hjs)

theorem grows_encodeEntries : ∀ (es : List (Value F × Value F)) {w w' : Weights}
    {js : List (Json F)}, encodeEntries w es = .ok (js, w') → w.Grows (Value.storedEntries es) w'
  | [], _, _, _, h => by
    cases h
    exact .nil _
  | (_, v) :: es, _, _, _, h => by
    rw [encodeEntries] at h
    obtain ⟨⟨j, u⟩, hj, h⟩ := bind_eq_ok.mp h
    obtain ⟨⟨js, u'⟩, hjs, h⟩ := bind_eq_ok.mp h
    cases h
    exact (grows_encode v hj).append (grows_encodeEntries es hjs)

end

namespace NetDocument

theorem grows_each {α : Type} {tree : Weights → α → Attempt (Json F × Weights)}
    {items : α → List (Stored F)}
    (htree : ∀ (a : α) {w w' : Weights} {j : Json F}, tree w a = .ok (j, w') →
      w.Grows (items a) w')
    (as : List α) {w w' : Weights} {js : List (Json F)} (h : each tree w as = .ok (js, w')) :
    w.Grows (as.flatMap items) w' := by
  induction as generalizing w js with
  | nil =>
    rw [each] at h
    cases h
    exact .nil _
  | cons a as ih =>
    rw [each] at h
    obtain ⟨⟨j, u⟩, hj, h⟩ := bind_eq_ok.mp h
    obtain ⟨⟨js, u'⟩, hjs, h⟩ := bind_eq_ok.mp h
    cases h
    exact (htree a hj).append (ih hjs)

theorem grows_paramJson [Arith F] {s : Store F} (p : ParamEntry F) {w w' : Weights} {j : Json F}
    (h : paramJson s w p = .ok (j, w')) : w.Grows (p.stored s) w' := by
  unfold paramJson at h
  obtain ⟨v, hv, h⟩ := bind_eq_ok.mp h
  obtain ⟨⟨value, u⟩, hvalue, h⟩ := bind_eq_ok.mp h
  cases h
  rw [ParamEntry.stored, liftM_eq_ok.mp hv]
  exact grows_encode v hvalue

theorem grows_instructionJson [Arith F] (i : Instruction F) {w w' : Weights} {j : Json F}
    (h : instructionJson w i = .ok (j, w')) : w.Grows i.stored w' := by
  unfold instructionJson at h
  obtain ⟨⟨args, u⟩, hargs, h⟩ := bind_eq_ok.mp h
  obtain ⟨⟨kwargs, u'⟩, hkwargs, h⟩ := bind_eq_ok.mp h
  cases h
  exact (grows_encodeAll _ hargs).append (grows_encode _ hkwargs)

/-- The weights of a saved net are those of its arrays and elements, one after another, and the
document tells how many bytes they are. -/
theorem grows_ofNet [Arith F] {c : CompiledNet F} {s : Store F} {j : Json F} {w : Weights}
    (h : ofNet c s = .ok (j, w)) :
    Weights.empty.Grows (c.stored s) w ∧ j.field "weights_size" = .ok (.ofNat w.bytes.length) := by
  unfold ofNet at h
  obtain ⟨⟨params, u₁⟩, hparams, h⟩ := bind_eq_ok.mp h
  obtain ⟨⟨shared, u₂⟩, hshared, h⟩ := bind_eq_ok.mp h
  obtain ⟨⟨forward, u₃⟩, hforward, h⟩ := bind_eq_ok.mp h
  obtain ⟨⟨backward, u₄⟩, hbackward, h⟩ := bind_eq_ok.mp h
  obtain ⟨⟨test, u₅⟩, htest, h⟩ := bind_eq_ok.mp h
  cases h
  constructor
  · have hstreams := (grows_each grows_instructionJson _ hforward).append
      ((grows_each grows_instructionJson _ hbackward).append
        (grows_each grows_instructionJson _ htest))
    exact (grows_each grows_paramJson _ hparams).append ((grows_encode _ hshared).append hstreams)
  · rw [w.length_bytes]
    rfl

end NetDocument

/-- **Entries tile the weights.**  Whatever is added to no weights, the entries take all bytes
from the first to the last, one after another, and the next array would start where the bytes
end.  If all elements are those of their patterns, every entry leads back to what it was made
for, an element for an element and an array for an array.  The types of elements are those of
`Dtype`: flags, integers of 32 and 64 bits, and reals of single and double precision.

The weights of a saved net are those of its arrays and elements, in order.  The document tells how
many bytes they are, and if there are any arrays, even without elements, a save that completes
leaves these bytes as the whole weights file. -/
theorem manifest_tiles_file [Arith F] :
    (∀ items : List (Stored F),
      let written := Weights.empty.addEach items
      Tiles 0 written.1 written.2.bytes.length ∧ written.2.offset = written.2.bytes.length ∧
        ((∀ a ∈ items, a.tensor.Patterned) →
          List.Forall₂ (Describes written.2.bytes) items written.1)) ∧
      ∀ (c : CompiledNet F) (s : Store F) (j : Json F) (w : Weights),
        NetDocument.ofNet c s = .ok (j, w) →
        (Weights.empty.addEach (c.stored s)).2 = w ∧
          j.field "weights_size" = .ok (.ofNat w.bytes.length) ∧
          ∀ (p : FilePath) (d : Directory), (save c s p d).error = none → 0 < w.arrays →
            (save c s p d).state.read (p.withSuffix weightsSuffix) = .ok w.bytes := by
  constructor
  · intro items
    refine ⟨Weights.empty.tiles_addEach items, (Weights.length_bytes _).symm, fun hitems => ?_⟩
    exact Weights.empty.describes_addEach hitems (List.prefix_refl _)
  · intro c s j w hnet
    obtain ⟨hgrows, hsize⟩ := NetDocument.grows_ofNet hnet
    refine ⟨hgrows, hsize, fun p d hsave hpos => ?_⟩
    exact (read_saved hnet hsave).2.1 hpos

/-! ### A net with arrays of many kinds -/

section

/-- Three flags, an array without elements, an array without axes, two single elements, and an array
without elements at the end.  After the flags, nothing starts at a multiple of the size of its
elements. -/
def mixedItems : List (Stored ℚ) :=
  [.array ⟨.bool, Grid.ofList [true, false, true]⟩, .array ⟨.int64, ⟨[0, 2], #[], rfl⟩⟩,
    .array ⟨.float32, .single (1 / 2 : ℚ)⟩, .element .int32 (-7 : Int32),
    .element .float32 (-2 : ℚ), .array ⟨.float64, ⟨[2, 0], #[], rfl⟩⟩]

/-- A net with a parameter alone, and these things as its metadata. -/
def manyArraysNet : CompiledNet ℚ :=
  { loneNet with «meta» := .list (mixedItems.map Stored.value) }

theorem patterned_mixedItems : ∀ a ∈ mixedItems, a.tensor.Patterned := by
  have hhalf : IsSingle (1 / 2 : ℚ) := (isDouble_and_isSingle _ (by simp)).2
  have htwo : IsSingle (-2 : ℚ) := (isDouble_and_isSingle _ (by simp)).2
  intro a ha x hx
  simp only [mixedItems, List.mem_cons, List.not_mem_nil, or_false] at ha
  rcases ha with rfl | rfl | rfl | rfl | rfl | rfl
  · trivial
  · trivial
  · obtain rfl := List.mem_singleton.mp hx
    exact hhalf
  · trivial
  · obtain rfl := List.mem_singleton.mp hx
    exact htwo
  · exact absurd hx List.not_mem_nil

/-- The bytes of the things, and where each of them starts and how many bytes it takes. -/
theorem written_mixedItems :
    (Weights.empty.addEach mixedItems).2.bytes
        = [1, 0, 1, 0, 0, 0, 63, 249, 255, 255, 255, 0, 0, 0, 192] ∧
      (Weights.empty.addEach mixedItems).1.map (fun e => (e.offset, e.size))
        = [(0, 3), (3, 0), (3, 4), (7, 4), (11, 4), (15, 0)] := by
  decide +kernel

theorem encodable_manyArraysNet : manyArraysNet.Encodable (loneStore 3) := by
  refine ⟨List.forall_mem_singleton.mpr ⟨_, rfl, .real 3⟩, .list ?_, fun i hi => by cases hi⟩
  intro v hv
  obtain ⟨a, -, rfl⟩ := List.mem_map.mp hv
  cases a with
  | array t => exact .array t
  | element d x => exact .scalar d x

theorem writable_manyArraysNet : manyArraysNet.Writable (loneStore 3) where
  settings := List.forall_mem_singleton.mpr ⟨.integer (by decide), .integer (by decide)⟩
  values := List.forall_mem_singleton.mpr fun v hv => by
    cases hv
    trivial
  shared := Value.shortAll_iff.mpr fun v hv => by
    obtain ⟨a, ha, rfl⟩ := List.mem_map.mp hv
    simp only [mixedItems, List.mem_cons, List.not_mem_nil, or_false] at ha
    rcases ha with rfl | rfl | rfl | rfl | rfl | rfl
    · exact List.forall_mem_singleton.mpr (by decide)
    · exact List.forall_mem_cons.mpr ⟨by decide, List.forall_mem_singleton.mpr (by decide)⟩
    · exact List.forall_mem_nil _
    · trivial
    · trivial
    · exact List.forall_mem_cons.mpr ⟨by decide, List.forall_mem_singleton.mpr (by decide)⟩
  instructions i hi := by cases hi
  slots := by decide
  monitors := by decide
  weights j w hnet := by
    cases hnet
    decide

theorem manifest_tiles_file_mixed :
    manyArraysNet.stored (loneStore 3) = mixedItems ∧
      Tiles 0 (Weights.empty.addEach mixedItems).1 15 ∧
      List.Forall₂ (Describes (Weights.empty.addEach mixedItems).2.bytes) mixedItems
        (Weights.empty.addEach mixedItems).1 ∧
      (∃ j, NetDocument.ofNet manyArraysNet (loneStore 3)
          = .ok (j, (Weights.empty.addEach mixedItems).2) ∧
        j.field "weights_size" = .ok (.ofNat 15)) ∧
      (save manyArraysNet (loneStore 3) ["m"] .empty).error = none ∧
      (save manyArraysNet (loneStore 3) ["m"] .empty).state.read ["", "m.weights"]
        = .ok [1, 0, 1, 0, 0, 0, 63, 249, 255, 255, 255, 0, 0, 0, 192] := by
  obtain ⟨hbytes, -⟩ := written_mixedItems
  obtain ⟨htiles, -, hdescribes⟩ := (manifest_tiles_file (F := ℚ)).1 mixedItems
  obtain ⟨⟨j, w⟩, hnet⟩ := NetDocument.exists_ofNet_iff.mpr encodable_manyArraysNet
  obtain ⟨hwritten, hsize, hfile⟩ := manifest_tiles_file.2 _ _ _ _ hnet
  have hstored : manyArraysNet.stored (loneStore 3) = mixedItems := rfl
  rw [hstored] at hwritten
  subst hwritten
  have hsave : (save manyArraysNet (loneStore 3) ["m"] .empty).error = none := by
    apply save_of_writable encodable_manyArraysNet writable_manyArraysNet
    · rw [mixedNet_places.1]
      exact ⟨_, Directory.locate_name Directory.lt_room_empty (by unfold FileName; decide)⟩
    · rw [mixedNet_places.2.1]
      exact ⟨_, Directory.locate_name Directory.lt_room_empty (by unfold FileName; decide)⟩
  have hread := hfile ["m"] .empty hsave (by decide)
  rw [hbytes] at htiles hsize hread
  rw [mixedNet_places.2.1] at hread
  exact ⟨hstored, htiles, hdescribes patterned_mixedItems, ⟨j, hnet, hsize⟩, hsave, hread⟩

end

end Saved
end SlotGrad
