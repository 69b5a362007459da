import SlotGrad.Graph.Order
import SlotGrad.Text.Tally

/-!
# Names of nodes

Every node of an ordered list compiles under a name.  Explicit names are kept.  The others are made
from left to right: an input is numbered among the unnamed inputs; a layer is numbered among the
layers of its op, and names its own unnamed parameters by their place among its arguments.
Whatever is left is numbered among the nodes of its kind.

## Main definitions

* `position?` — the place of a node in a list.
* `Naming`, `Naming.visit` — the names given so far, and the naming of one node.
* `assignNames` — the names of all nodes of a list.
-/

namespace SlotGrad

variable {F : Type}

/-- The place of a node in a list; of several, the last one. -/
def position? (nodes : List (Node F)) (id : Nat) : Option Nat :=
  ((nodes.zipIdx).filter fun p => p.1.id == id).getLast?.map Prod.snd

/-- The names given so far. -/
structure Naming where
  /-- The names by place; open ones are still to be made. -/
  names : Array (Option String)
  /-- The unnamed inputs so far. -/
  inputs : Nat
  /-- The layers so far, by op. -/
  layers : Tally String

namespace Naming

/-- Whether the node at a place has no name yet. -/
def isOpen (s : Naming) (place : Nat) : Bool := (s.names[place]?).join.isNone

/-- Give a name to the node at a place. -/
def set (s : Naming) (place : Nat) (name : String) : Naming :=
  { s with names := s.names.setIfInBounds place (some name) }

/-- Name an unnamed parameter by its place among a layer's arguments. -/
def visitArgument (nodes : List (Node F)) (layer : String) (s : Naming)
    (arg : Value F × Nat) : Fallible Naming :=
  match arg.1 with
  | .node h =>
    if h.kind = .param then
      match position? nodes h.id with
      | some j =>
        .ok (if s.isOpen j then s.set j (layer ++ "_p" ++ toString (arg.2 + 1)) else s)
      | none => .error .missingKey
    else .ok s
  | _ => .ok s

/-- Name the node at a place and, if it is an unnamed layer, its unnamed parameters. -/
def visit (nodes : List (Node F)) (s : Naming) (entry : Node F × Nat) : Fallible Naming :=
  let (n, place) := entry
  match n.role with
  | .input =>
    if s.isOpen place then
      .ok ({ s with inputs := s.inputs + 1 }.set place ("input" ++ toString (s.inputs + 1)))
    else .ok s
  | .param _ => .ok s
  | .layer a =>
    -- Named layers count as well: their numbers are left out.
    let s := { s with layers := s.layers.bump a.op.name }
    if s.isOpen place then
      let name := a.op.name ++ toString (s.layers.count a.op.name)
      (a.args.zipIdx).foldlM (visitArgument nodes name) (s.set place name)
    else .ok s

/-- The names of a list of nodes, in which the open ones are numbered among the nodes of their
kind. -/
def close (nodes : List (Node F)) (s : Naming) : List String :=
  (nodes.zipIdx).map fun (n, place) =>
    match (s.names[place]?).join with
    | some name => name
    | none => n.kind.stem ++ toString (((nodes.take (place + 1)).map Node.kind).count n.kind)

end Naming

/-- The names of all nodes of a list. -/
def assignNames (nodes : List (Node F)) : Fallible (List String) := do
  let explicit := (nodes.map fun n => n.label.name).toArray
  let s ← (nodes.zipIdx).foldlM (Naming.visit nodes) ⟨explicit, 0, []⟩
  return s.close nodes

end SlotGrad
