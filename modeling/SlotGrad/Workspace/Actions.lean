import SlotGrad.Kernel.Extra
import SlotGrad.Program.Edit
import SlotGrad.Saved.File
import SlotGrad.Validation.NetChecks
import SlotGrad.Validation.GraphChecks
import SlotGrad.Workspace.Basic

/-!
# Work on nets

What a program does with the nets of its workspace: compile, evaluate, train, copy, monitor, save
and load them.

## Main definitions

* `Workspace.initial` — the workspace at the outset.
* `Work.compile`, `Work.clone`, `Work.wrap`, `Work.editNet` — making and changing nets.
* `Work.eval`, `Work.evaluateAt`, `Work.train` — evaluation.
* `Work.updateHistory` — monitoring.
* `Work.saveNet`, `Work.loadNet` — files.
-/

namespace SlotGrad

variable {F : Type} [Arith F] [Interchange F]

/-- The workspace at the outset: the built-in ops and checks, and nothing else. -/
def Workspace.initial : Workspace F :=
  ⟨.builtin, .builtin, #[], #[], #[], [], [], [], [], .empty⟩

namespace Work

/-! ### Making and changing nets -/

/-- What is to be compiled. -/
inductive Sources (F : Type) where
  /-- The graph under some roots; `source` is where the layer that joins them is built. -/
  | roots (source : String) (roots : List (Value F))
  /-- Listed nodes, and the ones among them that count as roots if they are given. -/
  | listed (nodes : List (Value F)) (roots : Option (List (Value F)))

/-- Compile a net and keep it under a name. -/
def compile (name : String) (sources : Sources F) (options : Options F) :
    Work F (Compilation F) := do
  let w ← get
  let done ← match sources with
    | .roots source roots => compileRoots w.checks w.graph source roots options
    | .listed nodes roots => compileListed w.checks w.graph nodes roots options
  addNet name done.net done.store
  return done

/-- A net of the same compiled graph and a copy of the store. -/
def clone (name copy : String) : Work F Unit := do
  let n ← entry name
  let made ← (← net name).clone
  setEntry copy ⟨n.compiled, ← addStore made.store, none⟩

/-- A net of the compiled graph of a net and the store at a place, both shared. -/
def wrap (name : String) (k : Nat) (wrapped : String) : Work F Unit := do
  let n ← entry name
  let _ ← Net.ofCompiled? (← compiledAt n.compiled) (← storeAt k)
  setEntry wrapped ⟨n.compiled, k, none⟩

/-- Edit the compiled graph of a net, which other nets may share. -/
def editNet (name : String) (place : EditPlace F) (v : Value F) : Work F Unit := do
  let n ← entry name
  let c ← (← compiledAt n.compiled).edit place v
  modify fun w => { w with compiled := w.compiled.setIfInBounds n.compiled c }

/-- Move the contents of the store at a place to the device of a name. -/
def moveStore (k : Nat) (device : String) : Work F Unit := do
  setStore k (← (← storeAt k).moveTo device)

/-! ### Evaluation -/

/-- The name of the program's own net. -/
def ownNet : String := "n"

/-- What the program's own net holds in its first slot; while it is evaluated itself, nothing can
be read. -/
def ownValue (busy : Option String) : Work F (Value F) := do
  let n ← net ownNet
  if busy = some ownNet then throw .storeBusy
  n.store.get 0

/-- What functions compute while the net of a name, if any, is evaluated. -/
def calls (busy : Option String) : Work F (Calls F) := do
  let stored ← observe (ownValue busy)
  return fun f a =>
    match Builtin.call? f, Extra.ofKey? f.key with
    | some g, _ => (g a).lift
    | none, some e => e.call stored a
    | none, none => .error (.fault .wrongKind)

/-- Evaluate the net of a name; answers the root's value. -/
def eval (name : String) (mode : Attempt Mode) (o : EvalOptions F) (profiled : Bool) :
    Work F (Value F) := do
  let n ← entry name
  let call ← calls (some name)
  let done := (← net name).run call (← mode) o profiled
  setStore n.store done.state.store
  setEntry name { n with profile := done.state.lastProfile }
  finish done.error
  done.state.rootValue

/-- Evaluate the compiled graph of a net on the store at a place; answers the state of the run and
the error that stopped it, if one did. -/
def evaluateAt (name : String) (k : Nat) (mode : Attempt Mode) (o : EvalOptions F)
    (profiled : Bool) : Work F (Outcome (RunState F)) := do
  let start : RunState F := ⟨← storeAt k, [], if profiled then some [] else none⟩
  let c ← compiledOf name
  let call ← calls none
  let done : Outcome (RunState F) := match mode with
    | .ok mode => evaluate call c mode o start
    | .error e => .stopped start e
  setStore k done.state.store
  return done

/-- Call a function. -/
def call (f : Fn) (a : Arguments F) : Work F (Value F) := do
  let call ← calls none
  call f a

/-- The value of a parameter after a step against its derivative. -/
def descended (s : Store F) (rate : Value F) (p : ParamEntry F) : Fallible (Value F) := do
  let old ← s.get p.var
  old.sub (← (← rate.mul p.learningRate).mul (← s.der p.var))

/-- Move every parameter of a net against its derivative. -/
def descend (name : String) (rate : Value F) : Work F Unit :=
  changeNet name fun c s =>
    runAll (fun p s => match descended s rate p with
      | .ok v => s.write p.var v
      | .error f => .stopped s (.fault f)) c.params s

/-- Evaluate a net and descend, several times; answers the root's values. -/
def train (name : String) (rate : Value F) : Nat → Work F (List (Value F))
  | 0 => return []
  | steps + 1 => do
    let loss ← eval name (.ok .normal) ⟨.real (Arith.ofInt 1), false⟩ false
    descend name rate
    return loss :: (← train name rate steps)

/-! ### Monitoring and files -/

/-- Keep a history under a name. -/
def setHistory (name : String) (h : History F) : Work F Unit :=
  modify fun w => { w with histories := w.histories.put name h }

/-- The history of a name. -/
def history (name : String) : Work F (History F) := do named (← get).histories name

/-- Add what the monitored slots of a net hold to a history. -/
def updateHistory (name netName : String) : Work F Unit := do
  let h ← history name
  let n ← net netName
  let done := h.update (← snapshot n.compiled n.store)
  setHistory name done.state
  finish done.error

/-- Keep the content of a slot under a name. -/
def keep (name : String) (k : Nat) (slot : Int) : Work F Unit := do
  let v ← (← storeAt k).get slot
  modify fun w => { w with kept := w.kept.put name v }

/-- Change the files; what was changed before an error stays. -/
def changeFiles (change : Saved.Directory → Outcome Saved.Directory) :
    Work F Saved.Directory := do
  let done := change (← get).files
  modify fun w => { w with files := done.state }
  finish done.error
  return done.state

/-- Save a net. -/
def saveNet (name : String) (path : Saved.FilePath) : Work F Saved.Directory := do
  let n ← net name
  changeFiles (Saved.save n.compiled n.store path)

/-- Load a net and keep it under a name. -/
def loadNet (name : String) (path : Saved.FilePath) : Work F (Net F) := do
  let w ← get
  let (c, s) ← Saved.load w.registry path w.files
  let n ← Net.ofCompiled? c s
  addNet name n.compiled n.store
  return n

end Work
end SlotGrad
