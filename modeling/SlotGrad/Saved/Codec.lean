import SlotGrad.Saved.Json.Printer
import SlotGrad.Saved.Weights

/-!
# Values in documents

Constants, parameter values and metadata are saved as JSON where JSON has a form for them.  All
others are objects of a single tag: tuples, slices, the ellipsis, dictionaries, and arrays, whose
elements are stored as weights.  Dictionaries are always tagged, so that their keys cannot be taken
for tags.

Values may be nested to any depth.  The bound that the stack of a machine sets is left out, here and
where trees are written and read.

## Main definitions

* `Tag` — the tags.
* `encode` — the tree of a value, and the weights with its arrays added.
* `decode` — the value of a tree.
* `setting` — the tree of a number setting, which is written without tags.
-/

namespace SlotGrad
namespace Saved

/-- The tags of saved values. -/
inductive Tag where
  /-- A tuple: its members. -/
  | tuple
  /-- A slice: its start, stop and step. -/
  | slice
  /-- The ellipsis. -/
  | ellipsis
  /-- A dictionary: its entries. -/
  | dict
  /-- An array: where it is stored. -/
  | array
  deriving DecidableEq, Repr

namespace Tag

/-- The key of a tag. -/
def key : Tag → String
  | tuple => "__tuple__"
  | slice => "__slice__"
  | ellipsis => "__ellipsis__"
  | dict => "__dict__"
  | array => "__array__"

/-- All tags; an object with several is read by the first of them. -/
def all : List Tag := [tuple, slice, ellipsis, dict, array]

end Tag

variable {F : Type}

/-- An object of a single tag. -/
def tagged (t : Tag) (j : Json F) : Json F := .object [(t.key, j)]

/-! ### Writing -/

/-- The keys of a dictionary whose keys are all texts. -/
def textKeys? (es : List (Value F × Value F)) : Option (List String) :=
  es.mapM fun
    | (.text k, _) => some k
    | _ => none

section

variable [Interchange F]

/-- The tree of a tensor, which is added to the weights. -/
def encodeTensor (t : Tensor F) (scalar : Bool) (w : Weights) : Json F × Weights :=
  let (entry, w) := w.add t scalar
  (tagged .array entry.toJson, w)

mutual

/-- The tree of a value, and the weights with its arrays added. -/
def encode (w : Weights) : Value F → Attempt (Json F × Weights)
  | .none => .ok (.null, w)
  | .flag b => .ok (.bool b, w)
  | .integer n => .ok (.integer n, w)
  | .real x => .ok (.real x, w)
  | .text s => .ok (.text s, w)
  -- An element of double precision is as good as a real number, and is saved as one.
  | .scalar .float64 x => .ok (.real x, w)
  | .scalar d x => .ok (encodeTensor (.single d x) true w)
  | .array t => .ok (encodeTensor t false w)
  | .device t => .ok (encodeTensor t false w)
  | .objects .. => .error .unsavableObjects
  | .tuple xs => do
    let (js, w) ← encodeAll w xs
    return (tagged .tuple (.array js), w)
  | .list xs => do
    let (js, w) ← encodeAll w xs
    return (.array js, w)
  | .slice a b c => do
    let (start, w) ← encode w a
    let (stop, w) ← encode w b
    let (step, w) ← encode w c
    return (tagged .slice (.array [start, stop, step]), w)
  | .ellipsis => .ok (tagged .ellipsis (.bool true), w)
  | .dict es =>
    match textKeys? es with
    | some keys => do
      let (js, w) ← encodeEntries w es
      return (tagged .dict (.object (keys.zip js)), w)
    | none => .error .unsavableKeys
  | .node h => .error (.unsavable h.kind.name)
  | .function f => .error (.unsavable (Value.function f : Value F).kindName)
  | .op o => .error (.unsavable (Value.op o : Value F).kindName)
  | .other => .error (.unsavable (Value.other : Value F).kindName)

/-- The trees of several values, one after another. -/
def encodeAll (w : Weights) : List (Value F) → Attempt (List (Json F) × Weights)
  | [] => .ok ([], w)
  | x :: xs => do
    let (j, w) ← encode w x
    let (js, w) ← encodeAll w xs
    return (j :: js, w)

/-- The trees of the values of several entries. -/
def encodeEntries (w : Weights) : List (Value F × Value F) → Attempt (List (Json F) × Weights)
  | [] => .ok ([], w)
  | (_, x) :: es => do
    let (j, w) ← encode w x
    let (js, w) ← encodeEntries w es
    return (j :: js, w)

end

/-- The tree of arguments by name: a dictionary. -/
def encodeNamed (w : Weights) (named : List (String × Value F)) : Attempt (Json F × Weights) :=
  encode w (.dict (named.map fun (k, v) => (.text k, v)))

end

/-! ### Reading -/

/-- The first tag of an object's entries, with what it tags. -/
def tagged? (es : List (String × Json F)) : Option (Tag × Json F) :=
  Tag.all.findSome? fun t => (es.lookup t.key).map fun j => (t, j)

theorem sizeOf_lookup {es : List (String × Json F)} {k : String} {j : Json F}
    (h : es.lookup k = some j) : sizeOf j < sizeOf es := by
  induction es with
  | nil => simp at h
  | cons e es ih =>
    obtain ⟨l, x⟩ := e
    rw [List.lookup_cons] at h
    split at h
    · cases h
      simp
      omega
    · have := ih h
      simp
      omega

theorem sizeOf_tagged? {es : List (String × Json F)} {t : Tag} {j : Json F}
    (h : tagged? es = some (t, j)) : sizeOf j < sizeOf es := by
  unfold tagged? at h
  obtain ⟨u, _, hu⟩ := List.exists_of_findSome?_eq_some h
  simp only [Option.map_eq_some_iff, Prod.mk.injEq] at hu
  obtain ⟨x, hx, _, rfl⟩ := hu
  exact sizeOf_lookup hx

/-- A slice of one, two or three bounds: a single one is the stop. -/
def sliceOf (vs : List (Value F)) : Fallible (Value F) :=
  match vs with
  | [b] => .ok (.slice .none b .none)
  | [a, b] => .ok (.slice a b .none)
  | [a, b, c] => .ok (.slice a b c)
  | _ => .error .wrongKind

variable [Arith F] [Interchange F] (raw : Option Bytes)

mutual

/-- The value of a tree. -/
def decode (j : Json F) : Attempt (Value F) :=
  match j with
  | .array xs => do return .list (← decodeAll xs)
  | .object es =>
    match h : tagged? es with
    | some (t, x) =>
      have : sizeOf x < sizeOf es := sizeOf_tagged? h
      decodeTagged t x
    | none => .error (.unknownTag (Json.object es).value.shown)
  | j => .ok j.value
termination_by (sizeOf j, 0)

/-- The value of what a tag tags. -/
def decodeTagged (t : Tag) (j : Json F) : Attempt (Value F) :=
  match t with
  | .tuple => do return .tuple (← decodeItems j)
  | .slice => do sliceOf (← decodeItems j)
  | .ellipsis => .ok .ellipsis
  | .dict =>
    match j with
    | .object es => do return .dict (← decodeEntries es)
    | _ => .error (.fault .missingMember)
  | .array => readArray j raw
termination_by (sizeOf j, 2)

/-- The values of the members of a tree. -/
def decodeItems (j : Json F) : Attempt (List (Value F)) :=
  match j with
  | .array xs => decodeAll xs
  | j => do return (← j.items).map Json.value
termination_by (sizeOf j, 1)

/-- The values of several trees. -/
def decodeAll (js : List (Json F)) : Attempt (List (Value F)) :=
  match js with
  | [] => .ok []
  | j :: js => do
    let v ← decode j
    let vs ← decodeAll js
    return v :: vs
termination_by (sizeOf js, 0)

/-- The keys and values of several entries. -/
def decodeEntries (es : List (String × Json F)) : Attempt (List (Value F × Value F)) :=
  match es with
  | [] => .ok []
  | (k, j) :: es => do
    let v ← decode j
    let vs ← decodeEntries es
    return (.text k, v) :: vs
termination_by (sizeOf es, 0)

end

/-- Arguments by name from their tree: a dictionary. -/
def decodeNamed (j : Json F) : Attempt (List (String × Value F)) := do
  match ← decode raw j with
  | .dict es => es.mapM fun
    | (.text k, v) => .ok (k, v)
    | _ => .error (.fault .wrongKind)
  | _ => throw (.fault .wrongKind)

/-! ### Settings -/

/-- The class of a value that has no written form, in messages. -/
def className : Value F → String
  | .array _ => "numpy.ndarray"
  | .objects .. => "numpy.ndarray"
  | .scalar d _ => "numpy." ++ d.name
  | .device _ => "torch.Tensor"
  | .node h => "autonet.ir." ++ h.kind.name
  | .op _ => "autonet.ops.OpDef"
  | .other => "__main__.Opaque"
  | v => v.kindName

/-- The text of a key; an integer must not have too many digits. -/
def settingKey (k : Value F) : Fallible String :=
  match k with
  | .text s => .ok s
  | .real x => .ok (Json.numberText x)
  | .scalar .float64 x => .ok (Json.numberText x)
  | .flag b => .ok (if b then "true" else "false")
  | .none => .ok "null"
  | .integer n => if Json.Short n then .ok (toString n) else .error .badValue
  | _ => .error .wrongKind

mutual

/-- The tree of a number setting of a parameter, which is any value. -/
def setting : Value F → Json F
  | .none => .null
  | .flag b => .bool b
  | .integer n => .integer n
  | .real x => .real x
  | .text s => .text s
  | .scalar .float64 x => .real x
  | .scalar .float32 x => .real x
  | .scalar .int32 n => .integer (Int32.toInt n)
  | .scalar .int64 n => .integer (Int64.toInt n)
  | .list xs => .array (settings xs)
  | .tuple xs => .array (settings xs)
  | .dict es => settingEntries [] es
  | v => .refused (.unwritable ("<class '" ++ className v ++ "'>"))

/-- The trees of several settings. -/
def settings : List (Value F) → List (Json F)
  | [] => []
  | x :: xs => setting x :: settings xs

/-- The object of the entries of a dictionary, after those already made. -/
def settingEntries (done : List (String × Json F)) : List (Value F × Value F) → Json F
  | [] => .object done
  | (k, x) :: es =>
    match settingKey k with
    | .ok s => settingEntries (done ++ [(s, setting x)]) es
    | .error f => .cut done (.fault f)

end

end Saved
end SlotGrad
