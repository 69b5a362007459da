import SlotGrad.Program.Compiled
import SlotGrad.Registry
import SlotGrad.Saved.Codec

/-!
# Nets as documents

A net is saved as one JSON document with its streams, registries and parameter values, and the
bytes of all arrays.  Ops are saved by name and looked up again when the document is read.

## Main definitions

* `NetDocument.ofNet` — the document and the weights of a net on a store.
* `NetDocument.read` — the net and the store of a document.
-/

namespace SlotGrad
namespace Saved
namespace NetDocument

variable {F : Type}

/-- The number of the format. -/
def formatNumber : Nat := 1

/-! ### Writing -/

section

/-- A list of integers. -/
def integers (ns : List Int) : Json F := .array (ns.map .integer)

/-- A number of derivatives. -/
def countJson : Option (Count F) → Json F
  | some (.whole n) => .integer n
  | some (.flag b) => .bool b
  | some (.real x) => .real x
  | none => .null

/-- A slot that may be missing. -/
def slotJson (slot : Option Int) : Json F := (slot.map .integer).getD .null

/-- A monitored node. -/
def monitorJson (e : MonitorEntry) : Json F :=
  .object [("var", .integer e.var), ("der", .integer e.der), ("name", .text e.name)]

/-- The inputs with their slots. -/
def inputsJson (inputs : List (String × Int)) : Json F :=
  .object (inputs.map fun (k, v) => (k, .integer v))

variable [Arith F] [Interchange F]

/-- A parameter with its value. -/
def paramJson (s : Store F) (w : Weights) (p : ParamEntry F) : Attempt (Json F × Weights) := do
  let (value, w) ← encode w (← s.get p.var)
  return (.object [("var", .integer p.var), ("name", .text p.name),
    ("weight_decay", setting p.weightDecay), ("learning_rate", setting p.learningRate),
    ("source", .text p.source), ("train_method", .text p.trainMethod), ("value", value)], w)

/-- An instruction. -/
def instructionJson (w : Weights) (i : Instruction F) : Attempt (Json F × Weights) := do
  let (args, w) ← encodeAll w i.args
  let (kwargs, w) ← encodeNamed w i.kwargs
  return (.object [("op", .text i.op.name), ("kind", .text i.kind), ("name", .text i.name),
    ("source", .text i.source), ("args", .array args), ("kwargs", kwargs),
    ("input_vars", integers i.inputVars), ("input_arg_pos", integers i.inputArgPos),
    ("output_var", slotJson i.outputVar), ("num_input_der", countJson i.derCount)], w)

/-- The trees of several things, one after another. -/
def each {α : Type} (tree : Weights → α → Attempt (Json F × Weights)) (w : Weights) :
    List α → Attempt (List (Json F) × Weights)
  | [] => .ok ([], w)
  | a :: as => do
    let (j, w) ← tree w a
    let (js, w) ← each tree w as
    return (j :: js, w)

/-- The document and the weights of a net on a store, of which only parameter values are saved. -/
def ofNet (c : CompiledNet F) (s : Store F) : Attempt (Json F × Weights) := do
  let (params, w) ← each (paramJson s) .empty c.params
  let (shared, w) ← encode w c.meta
  let (forward, w) ← each instructionJson w c.forward
  let (backward, w) ← each instructionJson w c.backward
  let (test, w) ← each instructionJson w c.test
  return (.object [("format", .ofNat formatNumber), ("num_vars", .integer c.numVars),
    ("inputs", inputsJson c.inputs), ("params", .array params),
    ("diagnostics", .array (c.diagnostics.map monitorJson)), ("meta", shared),
    ("forward", .array forward), ("backward", .array backward), ("test", .array test),
    ("weights_size", .ofNat w.offset)], w)

end

/-! ### Reading -/

/-- A list of integers. -/
def readIntegers (j : Json F) : Fallible (List Int) := do (← j.items).mapM Json.asInt

/-- A number of derivatives. -/
def readCount (j : Json F) : Fallible (Option (Count F)) :=
  match j with
  | .null => .ok none
  | .integer n => .ok (some (.whole n))
  | .bool b => .ok (some (.flag b))
  | .real x => .ok (some (.real x))
  | _ => .error .wrongKind

/-- A slot that may be missing. -/
def readSlot (j : Json F) : Fallible (Option Int) :=
  match j with
  | .null => .ok none
  | j => do return some (← j.asInt)

/-- A monitored node, which has three fields and no other. -/
def readMonitor (j : Json F) : Fallible MonitorEntry :=
  match j with
  | .object es =>
    if es.length = 3 then
      match es.lookup "var", es.lookup "der", es.lookup "name" with
      | some var, some der, some name => do return ⟨← var.asInt, ← der.asInt, ← name.asText⟩
      | _, _, _ => .error .wrongKind
    else .error .wrongKind
  | _ => .error .wrongKind

/-- Read one more input from a pair of a name and a slot. -/
def readInput (read : List (String × Int)) (j : Json F) : Fallible (List (String × Int)) := do
  match ← j.items with
  | [name, slot] => return putSlot read (← name.asText) (← slot.asInt)
  | _ => throw .badValue

/-- The inputs with their slots: an object, or a list of pairs of which the last for a name
counts. -/
def readInputs (j : Json F) : Fallible (List (String × Int)) :=
  match j with
  | .object es => es.mapM fun (k, v) => do return (k, ← v.asInt)
  | j => do (← j.items).foldlM readInput []

/-- Whether a tree equals the number of the format. -/
def isFormat [Arith F] (j : Json F) : Bool :=
  match j with
  | .integer n => n == formatNumber
  | .bool b => b
  | .real x => Arith.same x (Arith.ofInt formatNumber)
  | _ => false

variable [Arith F] [Interchange F]

/-- Whether a real number is an even whole one. -/
def isEven (x : F) : Bool :=
  Arith.same x (Arith.ofInt (2 * Arith.truncate (Arith.div x (Arith.ofInt 2))))

/-- The number of slots, for which a store is made. -/
def readStore (j : Json F) : Attempt (Int × Store F) :=
  match j with
  | .real x =>
    if isEven x then .error (.fault .wrongKind) else .error (.oddStoreSize (numeral x))
  | .bool true => .error (.oddStoreSize (flagName true))
  | j => do
    let n ← j.asInt
    return (n, ← Store.create? n)

/-- Read a parameter and put its value into the store. -/
def readParam (raw : Option Bytes) (read : List (ParamEntry F) × Store F) (j : Json F) :
    Attempt (List (ParamEntry F) × Store F) := do
  let var ← j.field "var"
  let name ← j.field "name"
  let weightDecay ← j.field "weight_decay"
  let learningRate ← j.field "learning_rate"
  let source ← j.field "source"
  let trainMethod ← j.field "train_method"
  let value ← decode raw (← j.field "value")
  let slot ← var.asInt
  let store ← read.2.set slot value
  let entry : ParamEntry F := ⟨slot, ← name.asText, weightDecay.value, learningRate.value,
    ← source.asText, ← trainMethod.asText⟩
  return (read.1 ++ [entry], store)

/-- Read an instruction. -/
def readInstruction (r : Registry) (raw : Option Bytes) (j : Json F) :
    Attempt (Instruction F) := do
  let op ← r.resolve (← j.field "op").value
  let kind ← j.field "kind"
  let name ← j.field "name"
  let source ← j.field "source"
  let args ← (← (← j.field "args").items).mapM (decode raw)
  let kwargs ← decodeNamed raw (← j.field "kwargs")
  let inputVars ← readIntegers (← j.field "input_vars")
  let inputArgPos ← readIntegers (← j.field "input_arg_pos")
  let outputVar ← readSlot (← j.field "output_var")
  let derCount ← readCount (← j.field "num_input_der")
  return ⟨op, ← kind.asText, ← name.asText, ← source.asText, args, kwargs, inputVars,
    inputArgPos, outputVar, derCount⟩

/-- Read a stream. -/
def readStream (r : Registry) (raw : Option Bytes) (j : Json F) :
    Attempt (List (Instruction F)) := do
  (← j.items).mapM (readInstruction r raw)

/-- The format of a document; only objects have one. -/
def format (j : Json F) : Fallible (Json F) := do
  return ((← j.entries).lookup "format").getD .null

/-- The net and the store of a document. -/
def read (r : Registry) (raw : Option Bytes) (j : Json F) :
    Attempt (CompiledNet F × Store F) := do
  let number ← format j
  if !isFormat number then throw (.unknownFormat number.value.shown)
  let (numVars, store) ← readStore (← j.field "num_vars")
  let (params, store) ← (← (← j.field "params").items).foldlM (readParam raw) ([], store)
  let forward ← readStream r raw (← j.field "forward")
  let backward ← readStream r raw (← j.field "backward")
  let test ← readStream r raw (← j.field "test")
  let inputs ← readInputs (← j.field "inputs")
  let monitors ← (do (← (← j.field "diagnostics").items).mapM readMonitor :
    Fallible (List MonitorEntry))
  let shared ← decode raw (← j.field "meta")
  return ({ forward, backward, test, inputs, params, diagnostics := monitors, numVars,
            «meta» := shared, names := [], nodes := [] }, store)

end NetDocument
end Saved
end SlotGrad
