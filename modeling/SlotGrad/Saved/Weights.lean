import SlotGrad.Saved.Bytes
import SlotGrad.Saved.Json.Basic
import SlotGrad.Value.Restructure

/-!
# Weights

Arrays are saved outside the readable document, one after another in a file of bytes.  The document
holds an entry for each: where its bytes start, how many they are, the type and the extents of the
array, and whether it is a single element taken out of one.

## Main definitions

* `Weights`, `Weights.add` — the bytes of arrays written so far, and adding an array.
* `WeightEntry` — the entry of an array.
* `readArray` — the array of an entry.

## Main results

* `Weights.offset_add`, `Weights.end_add` — entries follow each other without gaps.
-/

namespace SlotGrad

/-- The code of an element type: byte order, sort and size. -/
def Dtype.code : Dtype → String
  | .bool => "|b1"
  | .int32 => "<i4"
  | .int64 => "<i8"
  | .float32 => "<f4"
  | .float64 => "<f8"

/-- The texts that name an element type in a document. -/
def Dtype.codes : Dtype → List String
  | .bool => ["|b1", "b1", "?", "bool"]
  | .int32 => ["<i4", "=i4", "i4", "i", "int32", "intc"]
  | .int64 => ["<i8", "=i8", "i8", "l", "q", "p", "int64", "int", "intp", "long", "longlong"]
  | .float32 => ["<f4", "=f4", "f4", "f", "float32", "single"]
  | .float64 => ["<f8", "=f8", "f8", "d", "float64", "float", "double"]

/-- All element types. -/
def Dtype.all : List Dtype := [.bool, .int32, .int64, .float32, .float64]

/-- The element type of a text. -/
def Dtype.ofCode? (s : String) : Option Dtype := Dtype.all.find? fun d => d.codes.contains s

@[simp] theorem Dtype.ofCode?_code (d : Dtype) : Dtype.ofCode? d.code = some d := by
  cases d <;> decide

namespace Saved

/-- The arrays written so far, and where the next one starts. -/
structure Weights where
  /-- The bytes of each array, in the order in which the arrays were added. -/
  blobs : List Bytes
  /-- Where the next array starts. -/
  offset : Nat
  /-- It starts where the others end. -/
  offset_eq : offset = blobs.flatten.length

/-- Where and how an array is stored. -/
structure WeightEntry where
  /-- Where its bytes start. -/
  offset : Nat
  /-- How many they are. -/
  size : Nat
  /-- The element type. -/
  dtype : Dtype
  /-- The extents. -/
  shape : Shape
  /-- Whether it is a single element taken out of an array. -/
  scalar : Bool
  deriving Repr, DecidableEq

namespace Weights

/-- No arrays. -/
def empty : Weights := ⟨[], 0, rfl⟩

/-- The bytes of all arrays, one after another. -/
def bytes (w : Weights) : Bytes := w.blobs.flatten

/-- How many arrays there are. -/
def arrays (w : Weights) : Nat := w.blobs.length

theorem length_bytes (w : Weights) : w.bytes.length = w.offset := w.offset_eq.symm

variable {F : Type} [Interchange F]

/-- Add the bytes of a tensor at the end. -/
def add (w : Weights) (t : Tensor F) (scalar : Bool) : WeightEntry × Weights :=
  let raw := t.toBytes
  (⟨w.offset, raw.length, t.dtype, t.shape, scalar⟩,
    ⟨w.blobs ++ [raw], w.offset + raw.length, by simp [w.offset_eq]⟩)

@[simp] theorem bytes_add (w : Weights) (t : Tensor F) (scalar : Bool) :
    (w.add t scalar).2.bytes = w.bytes ++ t.toBytes := by
  simp [add, bytes]

@[simp] theorem arrays_add (w : Weights) (t : Tensor F) (scalar : Bool) :
    (w.add t scalar).2.arrays = w.arrays + 1 := by
  simp [add, arrays]

/-- An array starts where the ones before it end. -/
theorem offset_add (w : Weights) (t : Tensor F) (scalar : Bool) :
    (w.add t scalar).1.offset = w.bytes.length := w.length_bytes.symm

/-- After an array is added, it is the last of the bytes. -/
theorem end_add (w : Weights) (t : Tensor F) (scalar : Bool) :
    (w.add t scalar).1.offset + (w.add t scalar).1.size = (w.add t scalar).2.bytes.length := by
  rw [offset_add, bytes_add, List.length_append]
  rfl

end Weights

/-- An entry as it stands in a document. -/
def WeightEntry.toJson {F : Type} (e : WeightEntry) : Json F :=
  .object [("offset", .ofNat e.offset), ("size", .ofNat e.size), ("dtype", .text (e.dtype.code)),
    ("shape", .array (e.shape.map .ofNat)), ("scalar", .bool e.scalar)]

/-! ### Reading -/

/-- The element types that a document can name. -/
inductive StoredType where
  /-- Elements of a type. -/
  | elements (d : Dtype)
  /-- Objects, which have no bytes. -/
  | objects
  deriving DecidableEq, Repr

section

variable {F : Type}

/-- The texts that name objects. -/
def objectCodes : List String := ["O", "|O", "object"]

/-- The element type that a document names; doubles if it names none. -/
def storedType (j : Json F) : Fallible StoredType :=
  match j with
  | .null => .ok (.elements .float64)
  | .text s =>
    match Dtype.ofCode? s with
    | some d => .ok (.elements d)
    | none => if objectCodes.contains s then .ok .objects else .error .wrongKind
  | _ => .error .wrongKind

/-- The bytes that a reader may take: as many elements as are asked for or, for a negative number,
all that there are. -/
def elementCount (d : Dtype) (available : Nat) (asked : Int) : Fallible Nat :=
  if asked < 0 then
    if available % d.itemSize ≠ 0 then .error .badValue else .ok (available / d.itemSize)
  else if available < asked.toNat * d.itemSize then .error .badValue
  else .ok asked.toNat

/-- The shape of `size` members that the extents of a document write; one of them may be open. -/
def storedShape (size : Nat) (extents : List Int) : Fallible Shape :=
  let known := (extents.filter (0 ≤ ·)).map Int.toNat
  match extents.length - known.length with
  | 0 => if Shape.size known = size then .ok known else .error .badValue
  | 1 =>
    let n := Shape.size known
    if n = 0 ∨ size % n ≠ 0 then .error .badValue
    else .ok (extents.map fun e => if e < 0 then size / n else e.toNat)
  | _ => .error .badValue

variable [Arith F] [Interchange F]

/-- The array of bytes from an offset on. -/
def arrayAt (d : Dtype) (extents : List Int) (offset : Int) (raw : Bytes) :
    Fallible (Tensor F) := do
  if offset < 0 ∨ (raw.length : Int) < offset then throw .badValue
  let rest := raw.drop offset.toNat
  -- Extents multiply as they stand, so an open one asks for a negative number of elements.
  let count ← elementCount d rest.length (extents.foldl (· * ·) 1)
  let s ← storedShape count extents
  let g ← Fallible.ofOption .badValue ((Grid.ofList (Elem.listOfBytes d count rest)).reshape? s)
  return ⟨d, g⟩

/-- The array that an entry of a document describes. -/
def readArray (entry : Json F) (raw : Option Bytes) : Attempt (Value F) := do
  let some raw := raw | throw .missingWeights
  let stored ← storedType (← entry.field "dtype")
  let extents ← (do (← (← entry.field "shape").items).mapM Json.asInt : Fallible (List Int))
  let offset ← (← entry.field "offset").asInt
  match stored with
  | .objects => throw (.fault .badValue)
  | .elements d =>
    let t ← arrayAt d extents offset raw
    return if (← entry.field "scalar").isTruthy then Value.reduced t else .array t

end

end Saved
end SlotGrad
