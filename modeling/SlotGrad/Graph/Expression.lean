import SlotGrad.Graph.Node

/-!
# Expressions of nodes

Nodes are combined by arithmetic operators and by indexing.  Each expression is a layer over one
of the built-in ops, which is looked up by name.  An operator applies as soon as one operand is a
node; the other may be any constant, except that an array on the left takes the operator for
itself.

## Main definitions

* `Expression.Sign` — the operators.
* `Expression.layerOf` — the op name and the arguments of an expression.
* `Expression.build?` — the layer of an expression.
-/

namespace SlotGrad
namespace Expression

variable {F : Type} [Arith F]

/-- The operators that nodes have. -/
inductive Sign where
  /-- Addition. -/
  | add
  /-- Subtraction. -/
  | sub
  /-- Multiplication. -/
  | mul
  /-- Division. -/
  | div
  /-- The matrix product. -/
  | matmul
  /-- Exponentiation. -/
  | pow
  /-- Negation. -/
  | neg
  /-- Indexing. -/
  | index
  deriving DecidableEq, Repr

/-- The op that an operator with two operands stands for. -/
def Sign.op? : Sign → Option Builtin
  | add => some .plus
  | sub => some .minus
  | mul => some .times
  | div => some .rdivide
  | matmul => some .mtimes
  | _ => none

/-- Whether a constant is the number two. -/
def isTwo (v : Value F) : Bool :=
  match v with
  | .integer n => n == 2
  | .real x => Arith.same x (Arith.ofInt 2)
  | .scalar .float64 x => Arith.same x (Arith.ofInt 2)
  | _ => false

/-- A constant on the left of an operator.  An array with axes combines with the node as with any
object, which makes no node; one without axes gives its element as a plain number. -/
def leftConstant (sign : Sign) (v : Value F) : Fallible (Value F) :=
  let refused : Fault := if sign = .matmul then .badValue else .wrongKind
  match v with
  | .array t =>
    if t.rank = 0 ∧ sign ≠ .matmul then .ok (Value.ofElem t.dtype t.grid.first) else .error refused
  | .objects .. => .error refused
  | .scalar d x => .ok (if sign = .matmul then v else Value.ofElem d x)
  | v => .ok v

/-- The index of an indexing layer: a tuple with a member for each axis. -/
def asIndex (v : Value F) : Value F :=
  match v with
  | .tuple _ => v
  | v => .tuple [v]

/-- The op and the arguments of the layer that an expression stands for. -/
def layerOf (sign : Sign) (operands : List (Value F)) : Fallible (Builtin × List (Value F)) :=
  match sign, operands with
  | .neg, [.node h] => .ok (.times, [.node h, .real (Arith.ofInt (-1))])
  | .index, [.node h, i] => .ok (.slice, [.node h, asIndex i])
  | .pow, [.node h, p] => .ok (if isTwo p then (.square, [.node h]) else (.power, [.node h, p]))
  | sign, [a, b] =>
    match sign.op?, a.node?, b.node? with
    | some op, some _, _ => .ok (op, [a, b])
    | some op, none, some _ => do return (op, [← leftConstant sign a, b])
    | _, _, _ => .error .wrongKind
  | _, _ => .error .wrongKind

/-- The layer of an expression. -/
def build? (r : Registry) (id : Nat) (source : String) (sign : Sign) (operands : List (Value F)) :
    Attempt (Node F) := do
  let (op, args) ← layerOf sign operands
  Node.layer? r id ⟨none, none, .none, source⟩ (.text op.name) .none args [] (.ok .same) [] none

end Expression
end SlotGrad
