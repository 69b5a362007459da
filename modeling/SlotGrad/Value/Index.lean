import SlotGrad.Value.Restructure

/-!
# Indices

The values that can index an array, and reading, replacing and adding at an index.  A tuple is an
index with one pick for each member; any other value is an index of a single pick.

## Main definitions

* `Value.picks` — the picks of an index.
* `Value.getAt` — the part of a value at an index.
* `Tensor.addAtIndex` — adding values into the part at an index.
-/

namespace SlotGrad

namespace Value

variable {F : Type} [Arith F]

/-- A bound of a run of coordinates. -/
def bound (v : Value F) : Fallible (Option Int) :=
  match v with
  | none => .ok Option.none
  | v => do return some (← v.asPlace)

/-- The pick of an array of coordinates or flags.  An integer without axes is one coordinate. -/
def pickOfTensor (t : Tensor F) : Fallible Pick :=
  if t.dtype = .bool then .ok (.mask (t.grid.map (Elem.isTrue t.dtype)))
  else if t.dtype.isInteger then
    if t.rank = 0 then .ok (.coordinate (t.toInts).first) else .ok (.gather t.toInts)
  else .error .outOfRange

/-- The pick of a sequence: its members as coordinates or flags.  An empty sequence picks
nothing. -/
def pickOfSequence (v : Value F) : Fallible Pick := do
  match ← v.contents with
  | .numbers t =>
    if t.size = 0 ∧ t.dtype = .float64 then return .gather (t.grid.map fun _ => 0)
    pickOfTensor t
  | _ => throw .outOfRange

/-- The pick that a member of an index stands for. -/
def pick (v : Value F) : Fallible Pick :=
  match v with
  | integer n => .ok (.coordinate n)
  | flag b => .ok (.mask (.single b))
  | none => .ok .newAxis
  | ellipsis => .ok .rest
  | slice a b c => do return .run (← a.bound) (← b.bound) (← c.bound)
  | list xs => pickOfSequence (list xs)
  | tuple xs => pickOfSequence (tuple xs)
  | array t => pickOfTensor t
  | scalar d x => pickOfTensor (.single d x)
  | device t => pickOfTensor t
  | _ => .error .outOfRange

/-- The picks of an index. -/
def picks (index : Value F) : Fallible (List Pick) :=
  match index with
  | tuple vs => vs.mapM pick
  | v => do return [← v.pick]

/-- The part of a value at an index; a part that is a single member is taken out. -/
def getAt (v index : Value F) : Fallible (Value F) := do
  let c ← v.contents
  let sel ← Selection.resolve (← index.picks) c.shape
  let part ← c.select sel
  return if sel.isElement ∧ sel.shape = [] then reducedContents part else ofContents part

/-- The element type that results for several values: tensors count with theirs, plain numbers
with their sort, and the absent value as a double. -/
def commonDtype (a b : Value F) : Fallible Dtype := do
  let operand (v : Value F) : Fallible (Operand F) :=
    match v.weak?, v.solid?, v with
    | some w, _, _ => .ok (.weak w)
    | Option.none, some t, _ => .ok (.solid t)
    | Option.none, Option.none, none => .ok (.solid (.zeros [] .float64))
    | _, _, _ => .error .wrongKind
  return (← operand a).meetDtype (← operand b)

end Value

namespace Tensor

variable {F : Type} [Arith F]

/-- Add the numbers of `values`, stretched to the selected part, into the part of a tensor that a
selection names.  The sum is formed in the common type and stored in the tensor's own, which must
be able to hold it. -/
def addAtSelection (t : Tensor F) (sel : Selection) (values : Tensor F) : Fallible (Tensor F) := do
  let d := t.dtype.common values.dtype
  if !d.storesInto t.dtype then throw .wrongKind
  let vs ← values.broadcastTo sel.shape
  let vs := vs.gridAs d
  let step (old : Elem F t.dtype) (v : Elem F d) : Elem F t.dtype :=
    Elem.convert d t.dtype (Elem.add d (Elem.convert t.dtype d old) v)
  let positions := Shape.indices sel.shape
  let g := positions.foldl
    (fun (acc : Grid (Elem F t.dtype)) i => acc.update (sel.source i) fun old => step old (vs.at i))
    t.grid
  return ⟨t.dtype, g⟩

/-- Add a value into the part of a tensor at an index. -/
def addAtIndex (t : Tensor F) (index dy : Value F) : Fallible (Tensor F) := do
  let sel ← Selection.resolve (← index.picks) t.shape
  match ← dy.contents with
  | .numbers values => t.addAtSelection sel values
  | _ => throw .wrongKind

/-- Replace the elements of a selected part by those of a tensor of the part's shape. -/
def assignAt (t : Tensor F) (sel : Selection) (values : Tensor F) : Tensor F :=
  let vs := values.gridAs t.dtype
  ⟨t.dtype, (Shape.indices sel.shape).foldl
    (fun acc i => acc.update (sel.source i) fun _ => vs.at i) t.grid⟩

end Tensor
end SlotGrad
