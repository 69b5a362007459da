import SlotGrad.Value.Restructure

/-!
# Stretching derivatives and shrinking them back

Elementwise kernels stretch their operands to a common shape, and reductions shrink theirs.  A
derivative goes the other way: what was stretched is summed back, and what was shrunk is stretched
back.

## Main definitions

* `Tensor.unbroadcast` — a derivative reduced to the shape of the operand it belongs to.
* `unbroadcast` — the same on values.
* `expandReduced` — the derivative of a reduction stretched to the shape of what was reduced.
-/

namespace SlotGrad

namespace Tensor

variable {F : Type} [Arith F]

/-- The axes of a common shape that an operand of shape `s` lacks. -/
def leadingAxes (common s : Shape) : List Nat := List.range (common.length - s.length)

/-- The axes on which an operand of shape `s` has extent one and a derivative of shape `t` has
another. -/
def stretchedAxes (s t : Shape) : List Nat :=
  (List.range s.length).filter fun k => s.getD k 0 = 1 ∧ t.getD k 0 ≠ 1

/-- Reduce a derivative to the shape of the operand it belongs to.  The derivative is stretched to
the common shape first, in case it is the smaller one; then the axes the operand lacks are summed
away and those on which it has extent one are summed in place. -/
def unbroadcast (der : Tensor F) (s : Shape) : Fallible (Tensor F) :=
  if der.shape = s then .ok der
  else do
    let common ← Fallible.ofOption .badValue (Shape.broadcast? der.shape s)
    let wide ← der.broadcastTo common
    let lead := leadingAxes common s
    -- Axes are looked up after the leading ones are gone, so places agree with those of `s`.
    let own := if lead.isEmpty then wide else wide.sum lead
    let stretched := stretchedAxes s own.shape
    let kept := if stretched.isEmpty then own else own.sumKeep stretched
    kept.reshape s

end Tensor

variable {F : Type} [Arith F]

/-- Reduce a derivative to the shape of the operand `like` that it belongs to. -/
def unbroadcast (der like : Value F) : Fallible (Value F) := do
  let s ← like.shape
  match ← der.contents with
  | .numbers t =>
    let result ← t.unbroadcast s
    let summedAway := s = [] ∧ t.shape ≠ []
    return if summedAway then Value.reduced result else .array result
  | c =>
    let common ← Fallible.ofOption .badValue (Shape.broadcast? c.shape s)
    if c.shape ≠ s ∧ common ≠ s then throw .wrongKind
    return Value.ofContents (← c.broadcastTo common)

/-- The axes of the result of giving `places` new axes to a value of rank `rank`. -/
def newAxes (rank : Nat) (places : List (Value F)) : Fallible (List Nat) := do
  let total := rank + places.length
  let ks ← places.mapM fun v => do Value.axisOf total (← v.asPlace)
  if ks.eraseDups.length ≠ ks.length then throw .badValue
  return Value.sortAxes ks

/-- Stretch the derivative of a reduction along `axis` to the shape of `x`, which was reduced. -/
def expandReduced (dy x axis : Value F) : Fallible (Value F) := do
  let c ← dy.contents
  let c ← (if axis.isNone ∨ c.shape = [] then pure c
    else do c.insertAxes (← newAxes c.shape.length axis.places) : Fallible (Contents F))
  return Value.ofContents (← c.broadcastTo (← x.shape))

end SlotGrad
