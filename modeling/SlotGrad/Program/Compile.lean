import SlotGrad.Validation.NetChecks

/-!
# Compilation

An ordered list of nodes is compiled into instruction streams over slots: the node at place `k`
owns the value slot `2 * k` and the derivative slot after it.  Every layer gives one instruction in
each stream.  The forward stream keeps the order of the nodes and the backward stream reverses it.
The stream of inference mode keeps the order; there, layers may run another op or none at all, and
a layer without an op still passes its first argument on, so that every value slot is written.

A backward instruction calls the adjoint with the forward arguments and the derivative of the
layer's output.  The derivative stands before the first text among the arguments, where the
configuration starts, or at the end.

## Main definitions

* `Template.ofArgs` — arguments split into constants and bindings.
* `forwardInstruction`, `backwardInstruction`, `testInstruction` — the instructions of a layer.
* `Options`, `compileNodes` — compile an ordered list of nodes.
* `compileRoots` — order the graph under some roots and compile it.
-/

namespace SlotGrad

/-! ### Argument templates -/

/-- Arguments split into a template of constants and the bindings of its open places. -/
structure Template (F : Type) where
  /-- The constants; the absent value stands at every open place. -/
  args : List (Value F)
  /-- The slots that fill open places. -/
  vars : List Int
  /-- The open places. -/
  positions : List Int

namespace Template

variable {F : Type}

/-- Add an argument at the end of a template. -/
def push (slotOf : Handle → Option Nat) (t : Template F) (arg : Value F) :
    Fallible (Template F) :=
  match arg with
  | .node h =>
    match slotOf h with
    | some slot =>
      .ok ⟨t.args ++ [.none], t.vars ++ [(slot : Int)], t.positions ++ [(t.args.length : Int)]⟩
    | none => .error .missingKey
  | v => .ok { t with args := t.args ++ [v] }

/-- Arguments split into constants and bindings of value slots. -/
def ofArgs (slotOf : Handle → Option Nat) (args : List (Value F)) : Fallible (Template F) :=
  args.foldlM (push slotOf) ⟨[], [], []⟩

end Template

/-! ### Instructions of a layer -/

/-- A layer at its place: what its instructions take from it. -/
structure Placed (F : Type) where
  /-- The place of the layer among the compiled nodes. -/
  place : Nat
  /-- Its name. -/
  name : String
  /-- Where it was built. -/
  source : String
  /-- The op and its arguments. -/
  layer : Application F

section

variable {F : Type} (slotOf : Handle → Option Nat)

/-- The call of a layer's op that writes the layer's value slot. -/
def callInstruction (p : Placed F) (op : Op) (args : List (Value F))
    (kwargs : List (String × Value F)) : Fallible (Instruction F) := do
  let t ← Template.ofArgs slotOf args
  return ⟨op, Instruction.forwardKind, p.name, p.source, t.args, kwargs, t.vars, t.positions,
    some (valueSlot p.place : Nat), none⟩

/-- The forward instruction of a layer. -/
def forwardInstruction (p : Placed F) : Fallible (Instruction F) :=
  callInstruction slotOf p p.layer.op p.layer.args p.layer.kwargs

/-- Where the derivative of the output stands among the arguments of an adjoint. -/
def seedPlace (args : List (Value F)) : Nat := args.findIdx Value.isText

/-- The place of an argument after the derivative of the output was put in. -/
def shifted (insertAt : Nat) (p : Int) : Int := if (insertAt : Int) ≤ p then p + 1 else p

/-- The derivatives that an adjoint is taken to return: one for each argument up to the last one
that is a node. -/
def inferredCount (positions : List Int) : Int :=
  match positions with
  | [] => 0
  | p :: ps => ps.foldl max p + 1

/-- The backward instruction of a layer. -/
def backwardInstruction (p : Placed F) : Fallible (Instruction F) := do
  let t ← Template.ofArgs slotOf p.layer.args
  let insertAt := seedPlace t.args
  return ⟨p.layer.op, Instruction.backwardKind, p.name, p.source, t.args.insertIdx insertAt .none,
    p.layer.kwargs, t.vars ++ [derSlot (valueSlot p.place : Nat)],
    t.positions.map (shifted insertAt) ++ [(insertAt : Int)], none,
    some (p.layer.derCount.getD (.whole (inferredCount t.positions)))⟩

/-- The arguments of a layer in inference mode, by position and by name. -/
def testArguments (a : Application F) : List (Value F) × List (String × Value F) :=
  match a.testArgs with
  | .same => (a.args, a.kwargs)
  | .other args => (args, a.testKwargs)

/-- The instruction of a layer in inference mode. -/
def testInstruction (p : Placed F) : Fallible (Instruction F) :=
  let (args, kwargs) := testArguments p.layer
  match p.layer.testOp with
  | .same => callInstruction slotOf p p.layer.op args kwargs
  | .passThrough => callInstruction slotOf p Builtin.deal.op (args.take 1) []
  | .other op => callInstruction slotOf p op args kwargs

end

/-! ### Nets -/

/-- How a net is compiled. -/
structure Options (F : Type) where
  /-- The metadata given beside the nodes' own. -/
  «meta» : Value F
  /-- Whether roots are monitored unless they say otherwise. -/
  diagnoseRoots : Bool
  /-- How strict validation is, by name. -/
  validation : String

/-- The least serious finding at which compilation fails. -/
def threshold? (validation : String) : Attempt Severity :=
  if validation = "strict" then .ok .warning
  else if validation = "normal" then .ok .error
  else .error (.unknownStrictness validation)

section

variable {F : Type}

/-- The layers among placed nodes with their places and names. -/
def placedLayers (nodes : List (Node F)) (names : List String) : List (Placed F) :=
  ((nodes.zip names).zipIdx).filterMap fun ((n, name), k) =>
    n.application?.map fun a => ⟨k, name, n.label.source, a⟩

/-- The inputs: names and value slots.  Validation has made sure that the names differ. -/
def inputSlots (nodes : List (Node F)) (names : List String) : List (String × Int) :=
  ((nodes.zip names).zipIdx).filterMap fun ((n, name), k) =>
    if n.kind = .input then some (name, ((valueSlot k : Nat) : Int)) else none

/-- The parameters with their value slots and values. -/
def paramSlots (nodes : List (Node F)) (names : List String) : List (ParamEntry F × Value F) :=
  ((nodes.zip names).zipIdx).filterMap fun ((n, name), k) =>
    match n.role with
    | .param p => some (⟨(valueSlot k : Nat), name, p.weightDecay, p.learningRate,
        n.label.source, p.trainMethod.name⟩, p.value)
    | _ => none

/-- Whether a node is monitored. -/
def isMonitored (diagnoseRoots : Bool) (roots : List Handle) (n : Node F) : Bool :=
  n.label.diagnostics.getD (diagnoseRoots && roots.any fun h => h.id == n.id)

/-- The monitored nodes with their slots. -/
def monitorEntries (diagnoseRoots : Bool) (roots : List Handle) (nodes : List (Node F))
    (names : List String) : List MonitorEntry :=
  ((nodes.zip names).zipIdx).filterMap fun ((n, name), k) =>
    if isMonitored diagnoseRoots roots n then
      some ⟨(valueSlot k : Nat), derSlot (valueSlot k : Nat), name⟩
    else none

/-- The metadata of a net: what is given beside the nodes, or the first node's that has any. -/
def sharedMeta (given : Value F) (nodes : List (Node F)) : Value F :=
  if given.isNone then
    ((nodes.map fun n => n.label.meta).find? fun v => !v.isNone).getD .none
  else given

/-- The store with parameter values filled in. -/
def initialStore (pairs : Nat) (params : List (ParamEntry F × Value F)) : Store F :=
  params.foldl (fun s p => s.setAt p.1.var.toNat p.2) (.unset pairs)

variable [Arith F] [Interchange F]

/-- The product of compilation: the net, its first store, and what validation found. -/
structure Compilation (F : Type) where
  /-- The net. -/
  net : CompiledNet F
  /-- The store with parameter values. -/
  store : Store F
  /-- The findings. -/
  findings : List Finding

/-- The compiled net of named nodes.  `known` tells the nodes that can be referred to later. -/
def assemble (known : Node F → Bool) (nodes : List (Node F)) (names : List String)
    (roots : List Handle) (options : Options F) : Fallible (CompiledNet F) := do
  let slotOf (h : Handle) := (position? nodes h.id).map valueSlot
  let layers := placedLayers nodes names
  return {
    forward := ← layers.mapM (forwardInstruction slotOf)
    backward := ← layers.reverse.mapM (backwardInstruction slotOf)
    test := ← layers.mapM (testInstruction slotOf)
    inputs := inputSlots nodes names
    params := (paramSlots nodes names).map Prod.fst
    diagnostics := monitorEntries options.diagnoseRoots roots nodes names
    numVars := 2 * nodes.length
    «meta» := sharedMeta options.meta nodes
    names := names
    nodes := nodes.map fun n => if known n then some n.handle else none }

/-- Compile an ordered list of nodes, of which the last one is the root. -/
def compileNodes (checks : Checks F) (known : Node F → Bool) (nodes : List (Node F))
    (roots : Option (List Handle)) (options : Options F) : Attempt (Compilation F) := do
  let some last := nodes.getLast? | throw .noNodes
  let roots := roots.getD [last.handle]
  let threshold ← threshold? options.validation
  let names ← assignNames nodes
  -- The listing is checked before anything is made of it, the net after all of it is made.
  let early ← checks.runOnListing (some threshold) ⟨nodes, names, options.meta⟩
  let net ← assemble known nodes names roots options
  let late ← checks.runOnNet (some threshold) net
  return ⟨net, initialStore nodes.length (paramSlots nodes names), early ++ late⟩

/-- Compile a list of values that are to be nodes in dependency order. -/
def compileListed (checks : Checks F) (g : Graph F) (nodes : List (Value F))
    (roots : Option (List (Value F))) (options : Options F) : Attempt (Compilation F) := do
  if nodes.isEmpty then throw .noNodes
  let _ ← threshold? options.validation
  let listed ← g.nodesOf nodes
  compileNodes checks (fun _ => true) listed (roots.map Node.handles) options

/-- The layer that joins several roots into one vector. -/
def joiningLayer (g : Graph F) (source : String) (roots : List (Value F)) : Node F :=
  ⟨g.size, ⟨none, none, .none, source⟩,
    .layer ⟨Builtin.roots.op, roots, [], .same, .same, [], none⟩⟩

/-- Order the graph under some roots and compile it.  Several roots are flattened and joined into
one vector by a layer of the compiler's own; the given roots are the ones monitored. -/
def compileRoots (checks : Checks F) (g : Graph F) (source : String) (roots : List (Value F))
    (options : Options F) : Attempt (Compilation F) := do
  let given := roots.filterMap Value.node?
  let known (n : Node F) : Bool := n.id < g.size
  match roots with
  | [] => throw .noRoots
  | [root] =>
    compileNodes checks known (g.orderFrom (← Graph.handlesOf root)) (some given) options
  | roots =>
    -- The joining layer is not among the nodes that were built, so no handle refers to it later.
    let joined := joiningLayer g source roots
    let wide : Graph F := g.push joined
    compileNodes checks known (wide.orderFrom [joined.handle]) (some given) options

/-- What is printed about a compilation: the summary, a blank line and the findings. -/
def Compilation.report (c : Compilation F) : String :=
  String.join (([c.net.summary, ""] ++ c.findings.map Finding.line).map (· ++ "\n"))

end

end SlotGrad
