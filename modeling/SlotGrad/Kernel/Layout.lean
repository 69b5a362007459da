import SlotGrad.Kernel.Stretch
import SlotGrad.Value.Index

/-!
# Kernels that move members about

Matrix products, reshaping, indexing and joining.  The adjoint of a join cuts the output's
derivative into one part for each operand; the adjoint of indexing adds it into zeros at the index.

## Main definitions

* `Kernel.mtimes`, `Kernel.reshape`, `Kernel.slice`, `Kernel.cat`, `Kernel.roots` and their
  adjoints.
-/

namespace SlotGrad
namespace Kernel

variable {F : Type} [Arith F]

/-! ### Matrix products -/

/-- The matrix product of two values. -/
def mtimes (a b : Value F) : Fallible (Value F) := do
  match ← a.contents, ← b.contents with
  | .numbers s, .numbers t => return Value.reduced (← s.product t)
  | .texts _, _ => throw .wrongKind
  | _, .texts _ => throw .wrongKind
  | c, d => if c.shape = [] ∨ d.shape = [] then throw .badValue else throw .wrongKind

/-- The value with its last two axes exchanged. -/
def transpose (v : Value F) : Fallible (Value F) := do
  match ← v.contents with
  | .numbers t => return .array (← t.swapLast)
  | c => if c.shape.length < 2 then throw .badValue else throw .wrongKind

/-- Each factor takes the output's derivative times the other factor, transposed. -/
def mtimesAdjoint (a b dy : Value F) : Fallible (Value F) := do
  let da ← mtimes dy (← transpose b)
  let db ← mtimes (← transpose a) dy
  return .tuple [← unbroadcast da a, ← unbroadcast db b]

/-! ### Reshaping -/

/-- The extents that a shape argument writes, one of which may be left open by a negative
number. -/
def extents (shape : Value F) : Fallible (List Int) :=
  match shape with
  | .list vs => vs.mapM Value.asInteger
  | .tuple vs => vs.mapM Value.asInteger
  | .array t =>
    if t.rank = 0 then do return [← (Value.array t).asInteger]
    else if t.rank = 1 ∧ (t.dtype.isInteger ∨ t.size = 0) then .ok t.toInts.toList
    else .error .wrongKind
  | v => do return [← v.asInteger]

/-- The shape of `size` members that extents write.  At most one is open, and it is the one that
makes the sizes agree. -/
def closeShape (size : Nat) (extents : List Int) : Fallible Shape :=
  let known := (extents.filter (0 ≤ ·)).map Int.toNat
  match extents.length - known.length with
  | 0 => .ok known
  | 1 =>
    let n := Shape.size known
    if n = 0 ∨ size % n ≠ 0 then .error .badValue
    else .ok (extents.map fun e => if e < 0 then size / n else e.toNat)
  | _ => .error .badValue

/-- The value under the shape of the given extents.  An element of a tensor stays one as long as
it has no axes. -/
def reshapeTo (x : Value F) (s : List Int) : Fallible (Value F) := do
  let c ← x.contents
  let result ← c.reshape (← closeShape (Shape.size c.shape) s)
  return if x.isScalar ∧ result.shape = [] then Value.reducedContents result
    else Value.ofContents result

/-- The same members under another shape; the absent shape changes nothing. -/
def reshape (x shape : Value F) : Fallible (Value F) :=
  match shape with
  | .none => if x.isScalar then .ok x else do return Value.ofContents (← x.contents)
  | s => do reshapeTo x (← extents s)

/-- The output's derivative under the operand's shape. -/
def reshapeAdjoint (x _shape dy : Value F) : Fallible (Value F) := do
  reshapeTo dy ((← x.shape).map Int.ofNat)

/-! ### Indexing -/

/-- The part at an index. -/
def slice (x index : Value F) : Fallible (Value F) := x.getAt index

/-- The output's derivative added into zeros at the index.  The backward pass normally adds it
straight into the source's derivative and never builds this. -/
def sliceAdjoint (x index dy : Value F) : Fallible (Value F) := do
  let zeros : Tensor F := .zeros (← x.shape) (← x.commonDtype dy)
  return .array (← zeros.addAtIndex index dy)

/-! ### Joining -/

/-- The contents of several values. -/
def allContents (xs : List (Value F)) : Fallible (List (Contents F)) := xs.mapM Value.contents

/-- The places between consecutive runs of the given sizes. -/
def cuttingPoints (sizes : List Nat) : List Nat :=
  ((List.range sizes.length).drop 1).map fun k => (sizes.take k).foldl (· + ·) 0

/-- Each part under the shape of the value it belongs to. -/
def reshapeParts (parts : List (Contents F)) (xs : List (Value F)) : Fallible (List (Value F)) :=
  (parts.zip xs).mapM fun (part, x) => do
    return Value.ofContents (← part.reshape (← x.shape))

/-- The values one after another along an axis, values without axes as vectors of one member.
Without an axis the members of all of them make one vector. -/
def cat (axis : Value F) (xs : List (Value F)) : Fallible (Value F) := do
  let cs := (← allContents xs).map Contents.atLeastVector
  match axis with
  | .none => return Value.ofContents (← Contents.join 0 (cs.map Contents.flatten))
  | axis =>
    let n ← axis.asInteger
    let k ← Value.axisOf ((cs.head?.map fun c => c.shape.length).getD 0) n
    return Value.ofContents (← Contents.join k cs)

/-- A scalar derivative goes to every part; any other is cut along the axis at the places where
the parts were joined. -/
def catAdjoint (axis : Value F) (rest : List (Value F)) : Fallible (Value F) := do
  let dy ← Fallible.ofOption .badValue rest.getLast?
  let xs := rest.dropLast
  let c ← dy.contents
  if c.shape = [] then
    return .tuple (.none :: (← xs.mapM (unbroadcast dy)))
  let extentAlong (v : Value F) : Fallible Nat := do
    let s := (← v.contents).atLeastVector.shape
    let k ← Fallible.ofOption .outOfRange (Shape.axis? s.length (← axis.asPlace))
    return s.getD k 0
  -- The derivative does not tell where the operands were joined; their own extents do.
  let sizes ← xs.mapM extentAlong
  let k ← Fallible.ofOption .outOfRange (Shape.axis? c.shape.length (← axis.asPlace))
  return .tuple (.none :: (← reshapeParts (c.cut k (cuttingPoints sizes)) xs))

/-- The members of all values as one vector. -/
def roots (xs : List (Value F)) : Fallible (Value F) := do
  return Value.ofContents (← Contents.join 0 ((← allContents xs).map Contents.flatten))

/-- A scalar derivative goes to every part; any other is cut where the parts were joined. -/
def rootsAdjoint (rest : List (Value F)) : Fallible (Value F) := do
  let dy ← Fallible.ofOption .badValue rest.getLast?
  let xs := rest.dropLast
  let c ← dy.contents
  if c.shape = [] then return .tuple (← xs.mapM (unbroadcast dy))
  let sizes ← xs.mapM Value.size
  return .tuple (← reshapeParts (c.flatten.cut 0 (cuttingPoints sizes)) xs)

end Kernel
end SlotGrad
