import SlotGrad.Array.Dtype
import SlotGrad.Array.Join
import SlotGrad.Array.Product
import SlotGrad.Array.Select

/-!
# Tensors

A tensor is a grid together with the type of its elements.  Operations on several tensors convert
them to a common type first; operations on shape alone keep the type.

## Main definitions

* `Tensor` — a grid with its element type.
* `Tensor.convert` — all elements in another type.
* `Tensor.binary`, `Tensor.unary` — elementwise operations.
* `Tensor.sum`, `Tensor.greatest` — reductions along axes.
* `Tensor.product`, `Tensor.join`, `Tensor.reshape`, `Tensor.broadcastTo` — structural operations.
-/

namespace SlotGrad

/-- A grid of elements of one type. -/
structure Tensor (F : Type) where
  /-- The element type. -/
  dtype : Dtype
  /-- The elements. -/
  grid : Grid (Elem F dtype)

namespace Tensor

variable {F : Type} [Arith F]

/-- The extents of the tensor. -/
def shape (t : Tensor F) : Shape := t.grid.shape

/-- The number of axes. -/
def rank (t : Tensor F) : Nat := t.grid.shape.length

/-- The number of elements. -/
def size (t : Tensor F) : Nat := t.grid.size

/-- The tensor without axes that holds one element. -/
def single (d : Dtype) (x : Elem F d) : Tensor F := ⟨d, .single x⟩

/-- The tensor of zeros. -/
def zeros (s : Shape) (d : Dtype) : Tensor F := ⟨d, .full s (Elem.zero d)⟩

/-- The tensor with all elements converted to another type. -/
def convert (t : Tensor F) (d : Dtype) : Tensor F :=
  if t.dtype = d then t else ⟨d, t.grid.map (Elem.convert t.dtype d)⟩

/-- The elements converted to a given type. -/
def gridAs (t : Tensor F) (d : Dtype) : Grid (Elem F d) :=
  if h : t.dtype = d then h ▸ t.grid else t.grid.map (Elem.convert t.dtype d)

@[simp] theorem gridAs_self (d : Dtype) (g : Grid (Elem F d)) :
    gridAs (⟨d, g⟩ : Tensor F) d = g := by
  simp [gridAs]

/-- The elements as integers, towards zero. -/
def toInts (t : Tensor F) : Grid Int := t.grid.map (Elem.toInt t.dtype)

/-- The elements as real numbers. -/
def toReals (t : Tensor F) : Grid F := t.grid.map (Elem.toReal t.dtype)

/-! ### Elementwise operations -/

/-- An operation on two elements of any one type. -/
abbrev ElementOp (F : Type) := (d : Dtype) → Elem F d → Elem F d → Elem F d

/-- Combine two tensors elementwise in the type `d` over their common shape. -/
def binary (op : ElementOp F) (d : Dtype) (a b : Tensor F) : Fallible (Tensor F) :=
  match Grid.zipWith? (op d) (a.gridAs d) (b.gridAs d) with
  | some g => .ok ⟨d, g⟩
  | none => .error .badValue

/-- Apply a function on elements of the type `d` to every element. -/
def unary (f : (d : Dtype) → Elem F d → Elem F d) (d : Dtype) (a : Tensor F) : Tensor F :=
  ⟨d, (a.gridAs d).map (f d)⟩

/-! ### Structure -/

/-- The tensor stretched to a shape. -/
def broadcastTo (t : Tensor F) (s : Shape) : Fallible (Tensor F) :=
  match t.grid.broadcastTo? s with
  | some g => .ok ⟨t.dtype, g⟩
  | none => .error .badValue

/-- The same elements under another shape. -/
def reshape (t : Tensor F) (s : Shape) : Fallible (Tensor F) :=
  match t.grid.reshape? s with
  | some g => .ok ⟨t.dtype, g⟩
  | none => .error .badValue

/-- The elements as a vector. -/
def flatten (t : Tensor F) : Tensor F := ⟨t.dtype, t.grid.flatten⟩

/-- The tensor with the last two of at least two axes exchanged. -/
def swapLast (t : Tensor F) : Fallible (Tensor F) :=
  if t.rank < 2 then .error .badValue else .ok ⟨t.dtype, t.grid.swapLast⟩

/-- A vector of one element for a tensor without axes; any other tensor is unchanged. -/
def atLeastVector (t : Tensor F) : Tensor F :=
  if t.rank = 0 then t.flatten else t

/-- New axes of extent one at the given places of the result, in increasing order. -/
def insertAxes (t : Tensor F) (places : List Nat) : Tensor F :=
  ⟨t.dtype, places.foldl (fun g k => g.insertAxis k) t.grid⟩

/-- The common type of several tensors. -/
def commonDtype (ts : List (Tensor F)) : Dtype :=
  ts.foldl (fun d t => d.common t.dtype) .bool

/-- The tensors one after another along axis `k`, in their common type. -/
def join (k : Nat) (ts : List (Tensor F)) : Fallible (Tensor F) :=
  let d := commonDtype ts
  match Grid.join? k (ts.map fun t => t.gridAs d) with
  | some g => .ok ⟨d, g⟩
  | none => .error .badValue

/-- The runs of layers along axis `k` between cutting points. -/
def cut (k : Nat) (points : List Nat) (t : Tensor F) : List (Tensor F) :=
  (t.grid.cut k points).map fun g => ⟨t.dtype, g⟩

/-- The part of a tensor that a selection reads. -/
def select (t : Tensor F) (sel : Selection) : Tensor F := ⟨t.dtype, t.grid.select sel⟩

/-- The matrix product in the common type. -/
def product (a b : Tensor F) : Fallible (Tensor F) :=
  let d := a.dtype.common b.dtype
  if a.rank = 0 ∨ b.rank = 0 then .error .badValue
  else match Grid.product? (Elem.mul d) (Elem.add d) (Elem.zero d) (a.gridAs d) (b.gridAs d) with
    | some g => .ok ⟨d, g⟩
    | none => .error .badValue

/-! ### Reductions -/

/-- The type in which sums are kept: flags and integers are summed as 64-bit integers. -/
def sumDtype (d : Dtype) : Dtype := if d.isReal then d else .int64

/-- The sum in type `d` along the given axes, in increasing order, starting from zero. -/
def sumAs (d : Dtype) (axes : List Nat) (t : Tensor F) : Tensor F :=
  let g := t.gridAs d
  if axes.isEmpty then ⟨d, g.map (Elem.add d (Elem.zero d))⟩
  else ⟨d, g.foldAxes axes (Elem.add d) (Elem.zero d)⟩

/-- The sum along the given axes, in increasing order. -/
def sum (axes : List Nat) (t : Tensor F) : Tensor F := t.sumAs (sumDtype t.dtype) axes

/-- The sum along the given axes, each left in place with extent one. -/
def sumKeep (axes : List Nat) (t : Tensor F) : Tensor F := (t.sum axes).insertAxes axes

/-- The greatest element along axis `k`, which stays with extent one. -/
def greatestKeep (k : Nat) (t : Tensor F) : Fallible (Tensor F) :=
  match t.grid.foldAxisFromFirst? k (Elem.maximum t.dtype) with
  | some g => .ok ⟨t.dtype, g.insertAxis k⟩
  | none => .error .badValue

end Tensor
end SlotGrad
