import SlotGrad.Graph.Order
import SlotGrad.Monitor.History
import SlotGrad.Net
import SlotGrad.Saved.Directory
import SlotGrad.Validation.Check

/-!
# Workspaces

A workspace holds what a program works with: the registered ops and checks, the nodes that were
built, compiled graphs and stores, nets and histories by name, and files.  Nets refer to their
compiled graph and their store by place, so that several of them can share one.

A computation in a workspace may end in an error; what it changed before stays.

## Main definitions

* `Workspace`, `NetEntry` — the workspace, and what it keeps of a net.
* `Work` — computations in a workspace.
* `Work.net`, `Work.storeAt`, `Work.changeStore` — access to nets and stores.
* `Work.addNode`, `Work.registerOp`, `Work.registerCheck` — additions.
-/

namespace SlotGrad

/-- Things by name; of two with one name the earlier one counts. -/
abbrev Named (α : Type) := List (String × α)

/-- Things by name with another one for a name. -/
def Named.put {α : Type} (entries : Named α) (name : String) (a : α) : Named α :=
  (name, a) :: entries.filter fun e => e.1 != name

@[simp] theorem Named.lookup_put {α : Type} (entries : Named α) (name : String) (a : α) :
    (entries.put name a).lookup name = some a := by
  simp [Named.put]

/-- What a workspace keeps of a net. -/
structure NetEntry where
  /-- The place of the compiled graph. -/
  compiled : Nat
  /-- The place of the store. -/
  store : Nat
  /-- The completed instructions of the latest evaluation, if they were recorded. -/
  profile : Option (List Entry)
  deriving Inhabited

/-- What a program works with. -/
structure Workspace (F : Type) where
  /-- The registered ops. -/
  registry : Registry
  /-- The registered checks. -/
  checks : Checks F
  /-- The nodes that were built. -/
  graph : Graph F
  /-- The compiled graphs. -/
  compiled : Array (CompiledNet F)
  /-- The stores. -/
  stores : Array (Store F)
  /-- The nets by name. -/
  nets : Named NetEntry
  /-- The places of stores that have a name of their own. -/
  standalone : Named Nat
  /-- Contents of slots that were kept under a name. -/
  kept : Named (Value F)
  /-- The histories by name. -/
  histories : Named (History F)
  /-- The files. -/
  files : Saved.Directory

/-- A computation in a workspace, which keeps what it changed also when it ends in an error. -/
abbrev Work (F α : Type) := ExceptT Error (StateM (Workspace F)) α

namespace Work

variable {F α : Type}

/-- End in a fault. -/
def refuse (f : Fault) : Work F α := throw (.fault f)

/-- The answer of a computation, or the error that it ended in. -/
def observe (x : Work F α) : Work F (Attempt α) := ExceptT.mk (Except.ok <$> x.run)

/-- The thing of a name. -/
def named (entries : Named α) (name : String) : Work F α :=
  match entries.lookup name with
  | some a => pure a
  | none => refuse .missingKey

/-- The member of an array at a place that something refers to. -/
def member (xs : Array α) (k : Nat) : Work F α :=
  match xs[k]? with
  | some x => pure x
  | none => refuse .missingKey

/-! ### Nodes, ops and checks -/

/-- The node of a number; a negative number counts from the end. -/
def node (n : Int) : Work F (Node F) := do
  let g := (← get).graph
  match locate? g.size n with
  | some k => member g k
  | none => refuse .outOfRange

/-- Build a node at the next place. -/
def addNode (build : Registry → Nat → Attempt (Node F)) : Work F (Node F) := do
  let w ← get
  let n ← build w.registry w.graph.size
  set { w with graph := w.graph.push n }
  return n

/-- The nodes that the members of a value are. -/
def nodesOf [Arith F] (v : Value F) : Work F (List (Node F)) := do
  return ← (← get).graph.nodesOf (← v.items)

/-- The registered op of a name. -/
def op (name : String) : Work F Op := do
  match (← get).registry.find? name with
  | some o => return o
  | none => refuse .missingKey

/-- Register an op. -/
def registerOp (forward : Fn) (adjoint : Option Fn) (name : Option String) (scatter : Bool) :
    Work F Op := do
  let w ← get
  let (op, registry) ← w.registry.register forward adjoint name scatter
  set { w with registry := registry }
  return op

/-- Register a check; answers all checks. -/
def registerCheck (c : Check F) : Work F (Checks F) := do
  let w ← get
  let checks ← w.checks.register c
  set { w with checks := checks }
  return checks

/-! ### Compiled graphs and stores -/

/-- What is kept of the net of a name. -/
def entry (name : String) : Work F NetEntry := do named (← get).nets name

/-- The compiled graph at a place. -/
def compiledAt (k : Nat) : Work F (CompiledNet F) := do member (← get).compiled k

/-- The compiled graph of the net of a name. -/
def compiledOf (name : String) : Work F (CompiledNet F) := do compiledAt (← entry name).compiled

/-- The store at a place. -/
def storeAt (k : Nat) : Work F (Store F) := do member (← get).stores k

/-- The net of a name. -/
def net (name : String) : Work F (Net F) := do
  let n ← entry name
  return ⟨← compiledAt n.compiled, ← storeAt n.store, n.profile⟩

/-- Keep a store in the place of another. -/
def setStore (k : Nat) (s : Store F) : Work F Unit :=
  modify fun w => { w with stores := w.stores.setIfInBounds k s }

/-- Keep a new store; answers its place. -/
def addStore (s : Store F) : Work F Nat :=
  modifyGet fun w => (w.stores.size, { w with stores := w.stores.push s })

/-- Keep a new compiled graph; answers its place. -/
def addCompiled (c : CompiledNet F) : Work F Nat :=
  modifyGet fun w => (w.compiled.size, { w with compiled := w.compiled.push c })

/-- Keep a net under a name. -/
def setEntry (name : String) (n : NetEntry) : Work F Unit :=
  modify fun w => { w with nets := w.nets.put name n }

/-- Keep a new compiled graph and a new store as the net of a name. -/
def addNet (name : String) (c : CompiledNet F) (s : Store F) : Work F Unit := do
  setEntry name ⟨← addCompiled c, ← addStore s, none⟩

/-- Keep a new store under a name of its own. -/
def addStandalone (name : String) (s : Store F) : Work F Unit := do
  let k ← addStore s
  modify fun w => { w with standalone := w.standalone.put name k }

/-- End in an error, if there is one. -/
def finish (e : Option Error) : Work F Unit :=
  match e with
  | some e => throw e
  | none => pure ()

/-- Change the store at a place; what was changed before an error stays. -/
def changeStore (k : Nat) (change : Store F → Outcome (Store F)) : Work F Unit := do
  let done := change (← storeAt k)
  setStore k done.state
  finish done.error

/-- Change the store of a net, given its compiled graph. -/
def changeNet (name : String) (change : CompiledNet F → Store F → Outcome (Store F)) :
    Work F Unit := do
  let n ← entry name
  changeStore n.store (change (← compiledAt n.compiled))

end Work
end SlotGrad
