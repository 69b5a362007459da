import SlotGrad.Graph.Node
import SlotGrad.Value.Sequence

/-!
# Dependency order

A list of nodes is in dependency order if every node comes after the nodes it reads.  Such a list
is made from roots by a depth-first walk that finishes a node after its dependencies, visited in
the order of its arguments.  The order is determined by the graph; names and slots depend on it.

The walk keeps a stack of the nodes it is inside of, each with the dependencies still to visit, and
the identities not yet reached; it ends because every step either reaches a new identity or
shortens the stack's lists.

## Main definitions

* `Graph.orderFrom` — the nodes reachable from roots, in dependency order.
* `Graph.handlesOf` — the nodes that a value names as roots.
* `violations` — the places where a list is not in dependency order.
-/

namespace SlotGrad

variable {F : Type}

namespace Graph

/-- The dependencies of the node with a given identity. -/
def depsOf (g : Graph F) (id : Nat) : List Nat :=
  match g[id]? with
  | some n => n.deps.map Handle.id
  | none => []

/-- What is left of a walk: for each node that the walk is inside of, the dependencies still to
visit. -/
abbrev Trail := List (Nat × List Nat)

/-- The steps that a trail still takes if no further identity is reached. -/
def Trail.weight : Trail → Nat
  | [] => 0
  | (_, ds) :: rest => ds.length + 1 + Trail.weight rest

/-- Finish the walk: the identities that are left, and the finished nodes, latest first. -/
def walk (g : Graph F) (trail : Trail) (unreached finished : List Nat) : List Nat × List Nat :=
  match trail with
  | [] => (unreached, finished)
  -- Nothing is left to visit below this node, so it comes after all that it reads.
  | (id, []) :: rest => walk g rest unreached (id :: finished)
  | (id, d :: ds) :: rest =>
    -- A dependency counts as reached when the walk enters it, so a cycle ends the walk too.
    if d ∈ unreached then
      walk g ((d, g.depsOf d) :: (id, ds) :: rest) (unreached.erase d) finished
    else walk g ((id, ds) :: rest) unreached finished
termination_by (unreached.length, trail.weight)
decreasing_by
  · right; simp [Trail.weight]
  · left
    have := List.length_erase_of_mem ‹d ∈ unreached›
    have := List.length_pos_of_mem ‹d ∈ unreached›
    omega
  · right; simp [Trail.weight]

/-- Walk from one root, unless it has been reached already. -/
def walkFrom (g : Graph F) (state : List Nat × List Nat) (root : Nat) : List Nat × List Nat :=
  let (unreached, finished) := state
  if root ∈ unreached then walk g [(root, g.depsOf root)] (unreached.erase root) finished
  else (unreached, finished)

/-- The identities reachable from roots, in dependency order. -/
def orderIds (g : Graph F) (roots : List Nat) : List Nat :=
  (roots.foldl (walkFrom g) (List.range g.size, [])).2.reverse

/-- The nodes reachable from roots, in dependency order. -/
def orderFrom (g : Graph F) (roots : List Handle) : List (Node F) :=
  (g.orderIds (roots.map Handle.id)).filterMap fun id => g[id]?

/-- The node that a value is; any other value has none of a node's members. -/
def handleOf (v : Value F) : Fallible Handle := Fallible.ofOption .missingMember v.node?

variable [Arith F]

/-- The nodes that a value names as roots: itself, or its members. -/
def handlesOf (v : Value F) : Fallible (List Handle) :=
  match v with
  | .node h => .ok [h]
  | v => do (← v.items).mapM handleOf

/-- The nodes that a list of values names, in order. -/
def nodesOf (g : Graph F) (vs : List (Value F)) : Fallible (List (Node F)) := do
  return (← vs.mapM handleOf).filterMap g.node?

end Graph

/-- The complaints about the node at one place: a line for each dependency not seen before. -/
def violationsAt (seen : List Nat) (place : Nat) (n : Node F) : List String :=
  (n.deps.filter fun d => !seen.contains d.id).map fun d =>
    "Node " ++ toString place ++ " (" ++ n.shown ++ ") reads " ++ d.shown
      ++ ", which does not appear before it"

/-- The places where a list of nodes is not in dependency order, one line each. -/
def violations (nodes : List (Node F)) : List String :=
  (nodes.zipIdx).flatMap fun (n, place) =>
    violationsAt ((nodes.take place).map Node.id) place n

end SlotGrad
