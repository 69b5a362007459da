import SlotGrad.Kernel.Elementwise
import SlotGrad.Kernel.Reduction
import SlotGrad.Kernel.Layout
import SlotGrad.Kernel.Loss

/-!
# The built-in ops

The kernels as functions of argument lists.  A function has named parameters; some take any number
of further arguments, and reductions take their axis by name only.

## Main definitions

* `Arguments`, `Arguments.bind` — positional and named arguments, and their assignment to
  parameters.
* `Builtin` — the built-in ops.
* `Builtin.forwardCall`, `Builtin.adjointCall` — what their two functions compute.
* `Builtin.call?` — the built-in function that a reference stands for.
-/

namespace SlotGrad

/-- The arguments of a call. -/
structure Arguments (F : Type) where
  /-- Arguments by position. -/
  positional : List (Value F)
  /-- Arguments by name. -/
  named : List (String × Value F)

namespace Arguments

variable {F : Type}

/-- The value given for a parameter: by position or by name, and not by both. -/
def lookup (a : Arguments F) (position : Nat) (name : String) : Fallible (Value F) :=
  match a.positional[position]?, a.named.lookup name with
  | some v, none => .ok v
  | none, some v => .ok v
  | _, _ => .error .wrongKind

/-- The arguments assigned to parameters of the given names.  Every parameter takes exactly one,
and none is left over. -/
def bind (a : Arguments F) (names : List String) : Fallible (List (Value F)) :=
  if names.length < a.positional.length ∨ a.named.any (fun p => !names.contains p.1) then
    .error .wrongKind
  else (names.zipIdx).mapM fun (name, k) => a.lookup k name

/-- The arguments without the one of the given name, and that one or the absent value. -/
def takeNamed (a : Arguments F) (name : String) : Arguments F × Value F :=
  (⟨a.positional, a.named.filter fun p => p.1 != name⟩, (a.named.lookup name).getD .none)

/-- The arguments of a function that takes any number of them and none by name. -/
def unnamed (a : Arguments F) : Fallible (List (Value F)) :=
  if a.named.isEmpty then .ok a.positional else .error .wrongKind

/-- The arguments of a function with one parameter of its own and any number of further
arguments. -/
def headed (a : Arguments F) (name : String) : Fallible (Value F × List (Value F)) := do
  if a.named.any fun p => p.1 != name then throw .wrongKind
  return (← a.lookup 0 name, a.positional.drop 1)

variable [Arith F]

/-- Call a function of one parameter. -/
def call1 (a : Arguments F) (p : String) (f : Value F → Fallible (Value F)) :
    Fallible (Value F) := do
  match ← a.bind [p] with
  | [x] => f x
  | _ => throw .wrongKind

/-- Call a function of two parameters. -/
def call2 (a : Arguments F) (p q : String) (f : Value F → Value F → Fallible (Value F)) :
    Fallible (Value F) := do
  match ← a.bind [p, q] with
  | [x, y] => f x y
  | _ => throw .wrongKind

/-- Call a function of three parameters. -/
def call3 (a : Arguments F) (p q r : String)
    (f : Value F → Value F → Value F → Fallible (Value F)) : Fallible (Value F) := do
  match ← a.bind [p, q, r] with
  | [x, y, z] => f x y z
  | _ => throw .wrongKind

end Arguments

/-- The built-in ops. -/
inductive Builtin where
  /-- Sum of two operands. -/
  | plus
  /-- Difference of two operands. -/
  | minus
  /-- Product of two operands. -/
  | times
  /-- Quotient of two operands. -/
  | rdivide
  /-- Power. -/
  | power
  /-- Matrix product. -/
  | mtimes
  /-- Square. -/
  | square
  /-- Exponential function. -/
  | exp
  /-- Natural logarithm. -/
  | log
  /-- Positive part. -/
  | relu
  /-- Logistic function. -/
  | sigmoid
  /-- Hyperbolic tangent. -/
  | tanh
  /-- Identity. -/
  | deal
  /-- Sum along axes. -/
  | sum
  /-- Mean along axes. -/
  | mean
  /-- Change of shape. -/
  | reshape
  /-- Part at an index. -/
  | slice
  /-- Join along an axis. -/
  | cat
  /-- Join of flattened values. -/
  | roots
  /-- Half the squared distance. -/
  | l2loss
  /-- Cross-entropy of softmax scores. -/
  | softmaxloss
  deriving DecidableEq, Repr, Inhabited

namespace Builtin

/-- All built-in ops, in the order of their registration. -/
def all : List Builtin :=
  [plus, minus, times, rdivide, power, mtimes, square, exp, log, relu, sigmoid, tanh, deal, sum,
   mean, reshape, slice, cat, roots, l2loss, softmaxloss]

/-- The name of a built-in op. -/
def name : Builtin → String
  | plus => "plus"
  | minus => "minus"
  | times => "times"
  | rdivide => "rdivide"
  | power => "power"
  | mtimes => "mtimes"
  | square => "square"
  | exp => "exp"
  | log => "log"
  | relu => "relu"
  | sigmoid => "sigmoid"
  | tanh => "tanh"
  | deal => "deal"
  | sum => "sum"
  | mean => "mean"
  | reshape => "reshape"
  | slice => "slice"
  | cat => "cat"
  | roots => "roots"
  | l2loss => "l2loss"
  | softmaxloss => "softmaxloss"

/-- The forward function of a built-in op. -/
def forward (b : Builtin) : Fn := .plain (Fn.mark ++ b.name)

/-- The adjoint of a built-in op. -/
def adjoint (b : Builtin) : Fn := .plain ("_" ++ b.name ++ "_der")

/-- The op as it is registered at the outset; indexing alone is a sparse update. -/
def op (b : Builtin) : Op :=
  ⟨b.name, b.forward, some b.adjoint, b = slice, all.idxOf b⟩

variable {F : Type} [Arith F]

/-- What the forward function of a built-in op computes. -/
def forwardCall (b : Builtin) (a : Arguments F) : Fallible (Value F) :=
  match b with
  | plus => a.call2 "a" "b" Kernel.plus
  | minus => a.call2 "a" "b" Kernel.minus
  | times => a.call2 "a" "b" Kernel.times
  | rdivide => a.call2 "a" "b" Kernel.rdivide
  | power => a.call2 "x" "p" Kernel.power
  | mtimes => a.call2 "a" "b" Kernel.mtimes
  | square => a.call1 "x" Kernel.square
  | exp => a.call1 "x" Kernel.exponential
  | log => a.call1 "x" Kernel.logarithm
  | relu => a.call1 "x" Kernel.relu
  | sigmoid => a.call1 "x" Kernel.sigmoid
  | tanh => a.call1 "x" Kernel.hyperbolicTangent
  | deal => a.call1 "x" Kernel.deal
  | sum => let (a, axis) := a.takeNamed "axis"; a.call1 "x" fun x => Kernel.sum x axis
  | mean => let (a, axis) := a.takeNamed "axis"; a.call1 "x" fun x => Kernel.mean x axis
  | reshape => a.call2 "x" "shape" Kernel.reshape
  | slice => a.call2 "x" "index" Kernel.slice
  | cat => do
    let (axis, xs) ← a.headed "axis"
    Kernel.cat axis xs
  | roots => do Kernel.roots (← a.unnamed)
  | l2loss => a.call2 "x" "target" Kernel.l2loss
  | softmaxloss => a.call2 "x" "labels" Kernel.softmaxloss

/-- What the adjoint of a built-in op computes. -/
def adjointCall (b : Builtin) (a : Arguments F) : Fallible (Value F) :=
  match b with
  | plus => a.call3 "a" "b" "dy" Kernel.plusAdjoint
  | minus => a.call3 "a" "b" "dy" Kernel.minusAdjoint
  | times => a.call3 "a" "b" "dy" Kernel.timesAdjoint
  | rdivide => a.call3 "a" "b" "dy" Kernel.rdivideAdjoint
  | power => a.call3 "x" "p" "dy" Kernel.powerAdjoint
  | mtimes => a.call3 "a" "b" "dy" Kernel.mtimesAdjoint
  | square => a.call2 "x" "dy" Kernel.squareAdjoint
  | exp => a.call2 "x" "dy" Kernel.exponentialAdjoint
  | log => a.call2 "x" "dy" Kernel.logarithmAdjoint
  | relu => a.call2 "x" "dy" Kernel.reluAdjoint
  | sigmoid => a.call2 "x" "dy" Kernel.sigmoidAdjoint
  | tanh => a.call2 "x" "dy" Kernel.hyperbolicTangentAdjoint
  | deal => a.call2 "x" "dy" Kernel.dealAdjoint
  | sum =>
    let (a, axis) := a.takeNamed "axis"
    a.call2 "x" "dy" fun x dy => Kernel.sumAdjoint x dy axis
  | mean =>
    let (a, axis) := a.takeNamed "axis"
    a.call2 "x" "dy" fun x dy => Kernel.meanAdjoint x dy axis
  | reshape => a.call3 "x" "shape" "dy" Kernel.reshapeAdjoint
  | slice => a.call3 "x" "index" "dy" Kernel.sliceAdjoint
  | cat => do
    let (axis, rest) ← a.headed "axis"
    Kernel.catAdjoint axis rest
  | roots => do Kernel.rootsAdjoint (← a.unnamed)
  | l2loss => a.call3 "x" "target" "dy" Kernel.l2lossAdjoint
  | softmaxloss => a.call3 "x" "labels" "dy" Kernel.softmaxlossAdjoint

/-- What the built-in function under a key computes, if there is one. -/
def call? (f : Fn) : Option (Arguments F → Fallible (Value F)) :=
  match all.find? fun b => b.forward.key == f.key with
  | some b => some b.forwardCall
  | none => (all.find? fun b => b.adjoint.key == f.key).map adjointCall

end Builtin
end SlotGrad
