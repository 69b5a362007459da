/-!
# References to functions, ops and nodes

Graphs, compiled nets and saved files refer to functions, they never contain them.  A function is
known by its key; what it computes is an interpretation of keys, which evaluation is given
separately.  An op pairs a forward function with the adjoint that carries derivatives back.  An
argument that is a node refers to it by a handle, which says which node it is and how it is shown.

## Main definitions

* `Fn` — a reference to a function.
* `Fn.opName` — the op name that a function's identifier suggests.
* `Op` — a forward function, its adjoint, and how the backward pass treats it.
* `NodeKind`, `Handle` — the kinds of nodes, and a reference to a node.
-/

namespace SlotGrad

/-- A reference to a function. -/
structure Fn where
  /-- What tells functions apart. -/
  key : String
  /-- The identifier the function was defined under. -/
  identifier : String
  /-- How the function appears in messages. -/
  shown : String
  deriving DecidableEq, Repr, Inhabited

/-- The mark that identifiers of op functions start with. -/
def Fn.mark : String := "nn_"

/-- The op name that an identifier suggests: the identifier without the leading mark. -/
def Fn.opName (f : Fn) : String :=
  let cs := f.identifier.toList
  if Fn.mark.toList.isPrefixOf cs then String.ofList (cs.drop Fn.mark.length) else f.identifier

/-- A plain function known by its identifier. -/
def Fn.plain (identifier : String) : Fn :=
  ⟨identifier, identifier, "<function " ++ identifier ++ ">"⟩

/-- An op: everything the compiler and the engine need to know about a kind of layer. -/
structure Op where
  /-- The name it is registered and saved under. -/
  name : String
  /-- Computes the output from the arguments. -/
  forward : Fn
  /-- Computes the derivatives of the arguments from the derivative of the output. -/
  adjoint : Option Fn
  /-- Whether the backward pass adds the output's derivative at an index of the source instead of
  calling the adjoint. -/
  scatter : Bool
  /-- Tells successive registrations under one name apart. -/
  stamp : Nat
  deriving DecidableEq, Repr, Inhabited

/-- The kinds of graph nodes. -/
inductive NodeKind where
  /-- A placeholder for data. -/
  | input
  /-- A learnable value. -/
  | param
  /-- An op applied to arguments. -/
  | layer
  deriving DecidableEq, Repr, Inhabited

namespace NodeKind

/-- The stem of names made for nodes of the kind. -/
def stem : NodeKind → String
  | input => "input"
  | param => "param"
  | layer => "layer"

/-- The name of the kind in messages. -/
def name : NodeKind → String
  | input => "Input"
  | param => "Param"
  | layer => "Layer"

end NodeKind

/-- A reference to a node. -/
structure Handle where
  /-- The place of the node among all nodes that were built. -/
  id : Nat
  /-- The node's kind. -/
  kind : NodeKind
  /-- How the node appears in messages. -/
  shown : String
  deriving DecidableEq, Repr, Inhabited

end SlotGrad
