import SlotGrad.Kernel.Stretch

/-!
# Reductions

Sums and means along axes.  The derivative of a reduction is the output's derivative stretched
back along the axes that were reduced.

## Main definitions

* `Value.total`, `Value.average`, `Value.greatestAlongLast` — reductions of any value.
* `Kernel.sum`, `Kernel.mean` and their adjoints.
-/

namespace SlotGrad

namespace Value

variable {F : Type} [Arith F]

/-- The members of an array of objects added up from the first one on. -/
def totalOfObjects (xs : List (Value F)) : Fallible (Value F) :=
  match xs with
  | [] => .ok (integer 0)
  | x :: xs => xs.foldlM (fun acc y => operateMembers .add acc y) x

/-- The sum along the axes that an axis argument names. -/
def total (x axis : Value F) : Fallible (Value F) := do
  match ← x.contents with
  | .numbers t =>
    let ks ← axis.axes t.rank
    return reduced (t.sum ks)
  | .texts _ => throw .wrongKind
  | .objects g =>
    let ks ← axis.axes g.rank
    if ks.length ≠ g.rank then throw .wrongKind
    totalOfObjects g.toList

/-- The number of members that an axis argument of a mean gathers into one: the product of the
named extents. -/
def gatheredCount (s : Shape) (axis : Value F) : Fallible Nat :=
  match axis with
  | none => .ok s.size
  | tuple vs => do
    let ks ← vs.mapM fun v => do axisOf s.length (← v.asPlace)
    return (ks.map fun k => s.getD k 0).foldl (· * ·) 1
  | v => do return s.getD (← axisOf s.length (← v.asPlace)) 0

/-- The element type of a mean. -/
def meanDtype (d : Dtype) : Dtype := d.toReal

/-- The mean along the axes that an axis argument names; of no members, not a number. -/
def average (x axis : Value F) : Fallible (Value F) := do
  let c ← x.contents
  let count ← gatheredCount c.shape axis
  match c with
  | .numbers t =>
    let d := meanDtype t.dtype
    let ks ← axis.axes t.rank
    let divisor : Tensor F := .single d (Elem.convert .float64 d (Arith.ofInt count))
    return reduced (← Tensor.binary Elem.div d (t.sumAs d ks) divisor)
  | .texts _ => throw .wrongKind
  | .objects g => (← totalOfObjects g.toList).div (integer count)

/-- The greatest member along the last axis, which stays with extent one. -/
def greatestAlongLast (x : Value F) : Fallible (Value F) := do
  match ← x.contents with
  | .numbers t =>
    if t.rank = 0 then return reduced t
    return reduced (← t.greatestKeep (t.rank - 1))
  | .texts _ => throw .wrongKind
  | .objects g =>
    match g.toList with
    | [x] => return x
    | _ => throw .wrongKind

/-- The sum along the last axis, which stays with extent one. -/
def totalAlongLast (x : Value F) : Fallible (Value F) := do
  match ← x.contents with
  | .numbers t =>
    if t.rank = 0 then return reduced (t.sum [])
    return reduced (t.sumKeep [t.rank - 1])
  | _ => throw .wrongKind

end Value

namespace Kernel

variable {F : Type} [Arith F]

/-- The sum along axes. -/
def sum (x axis : Value F) : Fallible (Value F) := x.total axis

/-- Every summand takes the output's derivative. -/
def sumAdjoint (x dy axis : Value F) : Fallible (Value F) := expandReduced dy x axis

/-- The mean along axes. -/
def mean (x axis : Value F) : Fallible (Value F) := x.average axis

/-- Every member takes its share of the output's derivative. -/
def meanAdjoint (x dy axis : Value F) : Fallible (Value F) := do
  let result ← x.average axis
  let count := (← x.size) / max (← result.size) 1
  (← expandReduced dy x axis).div (.integer count)

end Kernel
end SlotGrad
