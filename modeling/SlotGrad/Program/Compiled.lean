import SlotGrad.Program.Instruction
import SlotGrad.Text.Tally

/-!
# Compiled nets

A compiled net holds all that is needed to evaluate a graph on a store: three streams of
instructions, the slots of inputs, parameters and monitored nodes, and the number of slots.

## Main definitions

* `CompiledNet` with `ParamEntry` and `MonitorEntry` — compiled nets.
* `CompiledNet.varIndex` — the value slot of a node.
* `CompiledNet.newStore` — an unset store of the net's size.
* `CompiledNet.summary` — a summary for reading.
-/

namespace SlotGrad

/-- A learnable parameter's slot and training settings. -/
structure ParamEntry (F : Type) where
  /-- The value slot. -/
  var : Int
  /-- The name. -/
  name : String
  /-- The weight decay. -/
  weightDecay : Value F
  /-- The learning rate. -/
  learningRate : Value F
  /-- Where the parameter was built. -/
  source : String
  /-- How to train it, by name. -/
  trainMethod : String
  deriving Inhabited

/-- A monitored node. -/
structure MonitorEntry where
  /-- The value slot. -/
  var : Int
  /-- The derivative slot. -/
  der : Int
  /-- The name. -/
  name : String
  deriving Inhabited, DecidableEq, Repr

/-- Named slots with another slot for a name: in its place, or after all others. -/
def putSlot (slots : List (String × Int)) (name : String) (slot : Int) : List (String × Int) :=
  if slots.any fun e => e.1 == name then
    slots.map fun e => if e.1 == name then (name, slot) else e
  else slots ++ [(name, slot)]

/-- All that is needed to evaluate a graph on a store. -/
structure CompiledNet (F : Type) where
  /-- The forward stream. -/
  forward : List (Instruction F)
  /-- The backward stream. -/
  backward : List (Instruction F)
  /-- The stream of inference mode. -/
  test : List (Instruction F)
  /-- The value slots of inputs by name. -/
  inputs : List (String × Int)
  /-- The parameters. -/
  params : List (ParamEntry F)
  /-- The monitored nodes. -/
  diagnostics : List MonitorEntry
  /-- The number of slots. -/
  numVars : Int
  /-- The shared metadata. -/
  «meta» : Value F
  /-- The names of nodes by place; none after loading. -/
  names : List String
  /-- The nodes by place, except those that the compiler made; none after loading. -/
  nodes : List (Option Handle)
  deriving Inhabited

namespace CompiledNet

variable {F : Type}

/-- The places of a node among the compiled ones. -/
def placesOf (c : CompiledNet F) (h : Handle) : List Nat :=
  ((c.nodes.zipIdx).filter fun p => (p.1.map Handle.id) == some h.id).map Prod.snd

/-- The value slot of a node. -/
def varIndex (c : CompiledNet F) (h : Handle) : Attempt Int :=
  match (c.placesOf h).getLast? with
  | some k => .ok (valueSlot k : Nat)
  | none => .error (.notInNet h.shown)

/-- The value slots of the parameters. -/
def paramVars (c : CompiledNet F) : List Int := c.params.map ParamEntry.var

/-- An unset store of the net's size. -/
def newStore (c : CompiledNet F) : Attempt (Store F) := Store.create? c.numVars

/-- The named streams. -/
def streams (c : CompiledNet F) : List (String × List (Instruction F)) :=
  [("forward", c.forward), ("backward", c.backward), ("test", c.test)]

/-! ### Summary -/

/-- A line of a summary that is left out if it lists nothing. -/
def listing (title : String) (members : List String) : List String :=
  if members.isEmpty then [] else [title ++ ", ".intercalate members]

/-- A name with its slot. -/
def slotText (name : String) (var : Int) : String := name ++ " [" ++ toString var ++ "]"

/-- The layers whose op in inference mode is another one. -/
def overridden (c : CompiledNet F) : List String :=
  ((c.forward.zip c.test).filter fun (f, t) => t.op != f.op).map fun p => p.2.name

/-- The header of a summary: how many nodes, slots, inputs, parameters and layers. -/
def header (c : CompiledNet F) : String :=
  "Net: " ++ toString (c.numVars.fdiv 2) ++ " nodes, " ++ toString c.numVars ++ " slots ("
    ++ toString c.inputs.length ++ " inputs, " ++ toString c.params.length ++ " params, "
    ++ toString c.forward.length ++ " layers)"

/-- How often each op occurs in the forward stream, most frequent first. -/
def opCounts (c : CompiledNet F) : List String :=
  (Tally.ofList (c.forward.map fun i => i.op.name)).byCount.map fun (name, n) =>
    name ++ ": " ++ toString n

/-- A summary of the net for reading. -/
def summary (c : CompiledNet F) : String :=
  "\n".intercalate <|
    [c.header, "  Ops:     " ++ ", ".intercalate c.opCounts]
    ++ listing "  Inputs:  " (c.inputs.map fun p => slotText p.1 p.2)
    ++ listing "  Params:  " (c.params.map fun p => slotText p.name p.var)
    ++ listing "  Monitor: " (c.diagnostics.map MonitorEntry.name)
    ++ listing "  Inference overrides: " c.overridden

end CompiledNet
end SlotGrad
