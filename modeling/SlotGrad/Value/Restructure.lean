import SlotGrad.Value.Arithmetic

/-!
# Extents, axes and structure of values

Operations that move members about without computing with them, on any value read as an array, and
the values that such operations take as arguments: axis numbers, axis tuples and shapes.

## Main definitions

* `Value.asInteger`, `Value.asPlace` — an integer argument, with flags refused or counted.
* `Value.axes` — the axes that an axis argument names.
* `Contents.restructure` — one operation on the grid of members, whatever they are.
* `Contents.reshape`, `Contents.broadcastTo`, `Contents.flatten`, `Contents.join`, `Contents.cut`.
-/

namespace SlotGrad

namespace Value

variable {F : Type} [Arith F]

/-! ### Integer arguments -/

/-- The integer that a tensor of one integer element holds. -/
def wholeOfTensor? (t : Tensor F) : Option Int :=
  if t.dtype.isInteger ∧ t.rank = 0 then some (t.toInts).first else Option.none

/-- An integer argument that must not be a flag. -/
def asInteger (v : Value F) : Fallible Int :=
  match v.weak?, v.solid? with
  | some (.integer n), _ => .ok n
  | Option.none, some t => Fallible.ofOption .wrongKind (wholeOfTensor? t)
  | _, _ => .error .wrongKind

/-- An integer argument for which a flag counts as zero or one. -/
def asPlace (v : Value F) : Fallible Int :=
  match v with
  | flag b => .ok (if b then 1 else 0)
  | v => v.asInteger

/-! ### Axis arguments -/

/-- The axis with the given number among `rank` axes. -/
def axisOf (rank : Nat) (n : Int) : Fallible Nat :=
  Fallible.ofOption .badValue (Shape.axis? rank n)

/-- Add an axis to those already named; naming one twice is outside the domain. -/
def addAxis (rank : Nat) (named : List Nat) (v : Value F) : Fallible (List Nat) := do
  let k ← axisOf rank (← v.asInteger)
  if k ∈ named then throw .badValue
  return named ++ [k]

/-- The axes in increasing order. -/
def sortAxes (axes : List Nat) : List Nat := axes.mergeSort (· ≤ ·)

/-- The axes that the axis argument of a reduction names: all of them if it is absent, those of a
tuple, or one.  A value without axes can be reduced along its first or last axis. -/
def axes (rank : Nat) (v : Value F) : Fallible (List Nat) :=
  match v with
  | none => .ok (List.range rank)
  | tuple vs => do return sortAxes (← vs.foldlM (addAxis rank) [])
  | v => do
    let n ← v.asInteger
    if rank = 0 ∧ (n = 0 ∨ n = -1) then return []
    return [← axisOf rank n]

/-- The places named by an argument that is one place or a sequence of places. -/
def places (v : Value F) : List (Value F) := (v.members?).getD [v]

end Value

/-! ### Structure of contents -/

namespace Contents

variable {F : Type} [Arith F]

/-- Apply one operation to the grid of members, whatever the members are. -/
def restructure (f : {α : Type} → [Inhabited α] → Grid α → Option (Grid α)) (c : Contents F) :
    Fallible (Contents F) :=
  match c with
  | numbers t => do return numbers ⟨t.dtype, ← Fallible.ofOption .badValue (f t.grid)⟩
  | texts g => do return texts (← Fallible.ofOption .badValue (f g))
  | objects g => do return objects (← Fallible.ofOption .badValue (f g))

/-- The same members under another shape. -/
def reshape (s : Shape) (c : Contents F) : Fallible (Contents F) :=
  c.restructure fun g => g.reshape? s

/-- The members stretched to a shape. -/
def broadcastTo (s : Shape) (c : Contents F) : Fallible (Contents F) :=
  c.restructure fun g => g.broadcastTo? s

/-- The members as a vector. -/
def flatten (c : Contents F) : Contents F :=
  match c with
  | numbers t => numbers t.flatten
  | texts g => texts g.flatten
  | objects g => objects g.flatten

/-- A vector of one member for contents without axes; any other contents are unchanged. -/
def atLeastVector (c : Contents F) : Contents F :=
  if c.shape = [] then c.flatten else c

/-- New axes of extent one at the given places of the result, in increasing order. -/
def insertAxes (places : List Nat) (c : Contents F) : Fallible (Contents F) :=
  c.restructure fun g => some (places.foldl (fun g k => g.insertAxis k) g)

/-- The part that a selection reads. -/
def select (sel : Selection) (c : Contents F) : Fallible (Contents F) :=
  c.restructure fun g => some (g.select sel)

/-- Contents one after another along axis `k`: numbers in their common type, and otherwise
objects. -/
def join (k : Nat) (cs : List (Contents F)) : Fallible (Contents F) :=
  let ts := cs.filterMap tensor?
  if ts.length = cs.length then do return numbers (← Tensor.join k ts)
  else match Grid.join? k (cs.map toObjects) with
    | some g => .ok (objects g)
    | none => .error .badValue

/-- The runs of layers along axis `k` between cutting points. -/
def cut (k : Nat) (points : List Nat) (c : Contents F) : List (Contents F) :=
  match c with
  | numbers t => (t.cut k points).map numbers
  | texts g => (g.cut k points).map texts
  | objects g => (g.cut k points).map objects

end Contents
end SlotGrad
