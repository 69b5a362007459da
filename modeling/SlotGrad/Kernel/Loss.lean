import SlotGrad.Kernel.Elementwise
import SlotGrad.Kernel.Reduction
import SlotGrad.Value.Index

/-!
# Losses

The squared distance, and the cross-entropy of row-wise softmax scores against class labels.

## Main definitions

* `Kernel.l2loss`, `Kernel.softmaxloss` and their adjoints.
-/

namespace SlotGrad
namespace Kernel

variable {F : Type} [Arith F]

/-! ### Squared distance -/

/-- Half the sum of squared differences. -/
def l2loss (x target : Value F) : Fallible (Value F) := do
  let diff ← x.sub target
  (Value.real (Arith.ofRatio 1 2)).mul (← (← diff.mul diff).total .none)

/-- The difference times the output's derivative, and its negative for the target. -/
def l2lossAdjoint (x target dy : Value F) : Fallible (Value F) := do
  let diff ← x.sub target
  return .tuple [← dy.mul diff, ← (← dy.negate).mul diff]

/-! ### Cross-entropy -/

/-- The integer that a label stands for. -/
def labelOfMember (v : Value F) : Fallible Int :=
  match v.weak? with
  | some (.real x) =>
    if Arith.isFinite x then .ok (Arith.truncate x)
    else if Arith.isNaN x then .error .badValue else .error .overflow
  | some w => Fallible.ofOption .wrongKind w.toInt?
  | none => .error .wrongKind

/-- The labels as machine integers; real labels are cut to their integral part. -/
def labels (v : Value F) : Fallible (Grid Int) := do
  match ← v.contents with
  | .numbers t => return t.toInts
  | .texts _ => throw .badValue
  | .objects g =>
    let ns ← g.toList.mapM labelOfMember
    -- All members are read before any is found too large.
    if ns.any fun n => !fitsInt64 n then throw .overflow
    Fallible.ofOption .badValue ((Grid.ofList ns).reshape? g.shape)

/-- The scores less the greatest of their row. -/
def shifted (x : Value F) : Fallible (Value F) := do
  x.sub (← x.greatestAlongLast)

/-- The index that pairs row numbers with labels. -/
def labelPicks (x labelValues : Value F) : Fallible (List Pick) := do
  let rows ← Fallible.ofOption .outOfRange (← x.shape).head?
  let ls ← labels labelValues
  return [.gather (Grid.ofList ((List.range rows).map Int.ofNat)),
    if ls.rank = 0 then .coordinate ls.first else .gather ls]

/-- The summed cross-entropy of row-wise softmax scores against labels. -/
def softmaxloss (x labelValues : Value F) : Fallible (Value F) := do
  let s ← shifted x
  let normalizer ← (← (← exponential s).totalAlongLast).mapReal Arith.log
  let logProbs ← s.sub normalizer
  let picks ← labelPicks x labelValues
  let c ← logProbs.contents
  let chosen ← c.select (← Selection.resolve picks c.shape)
  (← (Value.ofContents chosen).total .none).negate

/-- The softmax of each row, less one at its label, times the output's derivative; the labels have
no derivative. -/
def softmaxlossAdjoint (x labelValues dy : Value F) : Fallible (Value F) := do
  let e ← exponential (← shifted x)
  let probs ← e.div (← e.totalAlongLast)
  let picks ← labelPicks x labelValues
  match ← probs.contents with
  | .numbers t =>
    let sel ← Selection.resolve picks t.shape
    let part := t.select sel
    let lowered ← Tensor.binary Elem.sub t.dtype part (.single t.dtype (Elem.one t.dtype))
    return .tuple [← dy.mul (.array (t.assignAt sel lowered)), .none]
  | _ => throw .wrongKind

end Kernel
end SlotGrad
