import SlotGrad.Registry

/-!
# Nodes

A net is defined by a graph of nodes.  An input is a placeholder for data, a parameter is a
learnable value, and a layer is an op applied to arguments.  An argument that is a node stands for
that node's output; anything else is a constant.

## Main definitions

* `Node`, `Node.kind`, `Node.deps` — the nodes, their kinds, and the nodes that one reads.
* `Graph` — all nodes that were built, in the order of building.
* `Node.param?`, `Node.layer?` — checked construction of parameters and layers.
-/

namespace SlotGrad

/-- How a solver is to train a parameter. -/
inductive TrainMethod where
  /-- By the gradient. -/
  | gradient
  /-- By averaging. -/
  | average
  /-- Not at all. -/
  | none
  deriving DecidableEq, Repr, Inhabited

namespace TrainMethod

/-- The name of a training method. -/
def name : TrainMethod → String
  | gradient => "gradient"
  | average => "average"
  | none => "none"

/-- The training method of a name. -/
def ofName? (s : String) : Option TrainMethod :=
  [gradient, average, none].find? fun m => m.name == s

end TrainMethod

/-- A number of derivatives, as the user wrote it. -/
inductive Count (F : Type) where
  /-- A whole number. -/
  | whole (n : Int)
  /-- A flag, which counts as zero or one. -/
  | flag (b : Bool)
  /-- A real number, which counts nothing but may be compared. -/
  | real (x : F)
  deriving Inhabited

/-- The op of a layer in inference mode. -/
inductive TestOp where
  /-- The layer's own op. -/
  | same
  /-- No op: the first argument is passed through. -/
  | passThrough
  /-- Another op. -/
  | other (op : Op)
  deriving DecidableEq, Repr, Inhabited

/-- The arguments of a layer in inference mode. -/
inductive TestArgs (F : Type) where
  /-- The layer's own arguments, also those by name. -/
  | same
  /-- Other arguments by position. -/
  | other (args : List (Value F))
  deriving Inhabited

/-- An op applied to arguments. -/
structure Application (F : Type) where
  /-- The op. -/
  op : Op
  /-- The arguments by position: nodes and constants. -/
  args : List (Value F)
  /-- The arguments by name: constants. -/
  kwargs : List (String × Value F)
  /-- The op in inference mode. -/
  testOp : TestOp
  /-- The arguments by position in inference mode. -/
  testArgs : TestArgs F
  /-- The arguments by name that go with other arguments in inference mode. -/
  testKwargs : List (String × Value F)
  /-- How many derivatives the adjoint returns; otherwise it is inferred. -/
  derCount : Option (Count F)
  deriving Inhabited

/-- A learnable value with its training settings. -/
structure Learnable (F : Type) where
  /-- The initial value. -/
  value : Value F
  /-- The weight decay. -/
  weightDecay : Value F
  /-- The learning rate. -/
  learningRate : Value F
  /-- How to train it. -/
  trainMethod : TrainMethod

/-- What a node is. -/
inductive Role (F : Type) where
  /-- A placeholder for data. -/
  | input
  /-- A learnable value. -/
  | param (p : Learnable F)
  /-- An op applied to arguments. -/
  | layer (a : Application F)

/-- What all nodes have beside their role. -/
structure Label (F : Type) where
  /-- The explicit name. -/
  name : Option String
  /-- Whether the node is monitored; the compiler decides if it is open. -/
  diagnostics : Option Bool
  /-- Metadata to attach to the compiled net. -/
  «meta» : Value F
  /-- Where the node was built. -/
  source : String

/-- A node of the graph. -/
structure Node (F : Type) where
  /-- The place of the node among all nodes that were built. -/
  id : Nat
  /-- Name, monitoring, metadata and source. -/
  label : Label F
  /-- What the node is. -/
  role : Role F

namespace Node

variable {F : Type}

/-- The kind of a node. -/
def kind (n : Node F) : NodeKind :=
  match n.role with
  | .input => .input
  | .param _ => .param
  | .layer _ => .layer

/-- The op application of a layer. -/
def application? (n : Node F) : Option (Application F) :=
  match n.role with
  | .layer a => some a
  | _ => none

/-- How a node appears in messages. -/
def shown (n : Node F) : String :=
  let name := n.label.name.getD "?"
  match n.role with
  | .input => "Input(" ++ name ++ ")"
  | .param _ => "Param(" ++ name ++ ")"
  | .layer a => "Layer(" ++ a.op.name ++ ", " ++ name ++ ")"

/-- The reference to a node. -/
def handle (n : Node F) : Handle := ⟨n.id, n.kind, n.shown⟩

/-- The nodes among some arguments, in order. -/
def handles (args : List (Value F)) : List Handle := args.filterMap Value.node?

/-- The nodes that a node reads, in the order of its arguments: first those of normal mode, then
those named for inference mode only. -/
def deps (n : Node F) : List Handle :=
  match n.role with
  | .layer a => handles a.args ++ (match a.testArgs with
    | .same => []
    | .other args => handles args)
  | _ => []

/-! ### Construction -/

/-- A parameter, whose training method is given by name. -/
def param? (id : Nat) (label : Label F) (value weightDecay learningRate : Value F)
    (trainMethod : String) : Attempt (Node F) :=
  match TrainMethod.ofName? trainMethod with
  | some m => .ok ⟨id, label, .param ⟨value, weightDecay, learningRate, m⟩⟩
  | none => .error (.unknownTrainMethod trainMethod)

/-- The mark for passing the first argument through in inference mode. -/
def passThroughMark : String := "none"

/-- The mark for using a layer's own arguments in inference mode. -/
def sameMark : String := "same"

/-- The inference-mode op that a value stands for. -/
def testOp? (r : Registry) (v : Value F) : Attempt TestOp :=
  match v with
  | .none => .ok .same
  | .text s => if s = passThroughMark then .ok .passThrough else do return .other (← r.resolve v)
  | v => do return .other (← r.resolve v)

/-- The inference-mode arguments that a text stands for. -/
def testArgs? (s : String) : Attempt (TestArgs F) :=
  if s = sameMark then .ok .same else .error (.badTestArgs s)

/-- A layer, whose ops are given by values that refer to them. -/
def layer? (r : Registry) (id : Nat) (label : Label F) (op testOp : Value F)
    (args : List (Value F)) (kwargs : List (String × Value F)) (testArgs : Attempt (TestArgs F))
    (testKwargs : List (String × Value F)) (derCount : Option (Count F)) : Attempt (Node F) := do
  let op ← r.resolve op
  let testOp ← testOp? r testOp
  return ⟨id, label, .layer ⟨op, args, kwargs, testOp, ← testArgs, testKwargs, derCount⟩⟩

end Node

/-- All nodes that were built, in the order of building: the node at place `k` has identity `k`. -/
abbrev Graph (F : Type) := Array (Node F)

/-- The node that a handle refers to. -/
def Graph.node? {F : Type} (g : Graph F) (h : Handle) : Option (Node F) := g[h.id]?

end SlotGrad
