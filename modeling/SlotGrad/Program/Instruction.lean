import SlotGrad.Graph.Node
import SlotGrad.Store
import SlotGrad.Value.Shown

/-!
# Instructions

A compiled net runs streams of instructions.  An instruction is one call of an op's forward
function or adjoint.  Its arguments are a template of constants with open places, and bindings say
which slot fills which place when the instruction runs.

Instructions also come from files and from hand editing, so their slots and places are integers
that nothing bounds; running or checking an instruction finds out.

## Main definitions

* `Instruction`, `Instruction.function?` — an instruction and the function it calls.
* `Instruction.bind` — the argument template filled from a store.
* `Instruction.signature` — what tells instructions apart, constants by how they are shown.
* `Count.value`, `Count.isActive` — a number of derivatives as a value and as a condition.
-/

namespace SlotGrad

namespace Count

variable {F : Type} [Arith F]

/-- A number of derivatives as a value. -/
def value : Count F → Value F
  | whole n => .integer n
  | flag b => .flag b
  | real x => .real x

/-- Whether any derivatives are asked for. -/
def isActive : Count F → Bool
  | whole n => n != 0
  | flag b => b
  | real x => !Arith.same x (Arith.ofInt 0)

/-- The number of derivatives that are taken from the adjoint's result; a real number is no such
number. -/
def taken : Count F → Fallible Int
  | whole n => .ok n
  | flag b => .ok (if b then 1 else 0)
  | real _ => .error .wrongKind

end Count

/-- One call of an op, with its arguments bound to slots. -/
structure Instruction (F : Type) where
  /-- The op. -/
  op : Op
  /-- Whether the op runs forward or backward, by name. -/
  kind : String
  /-- The layer's name. -/
  name : String
  /-- Where the layer was built. -/
  source : String
  /-- The argument template; the absent value stands at every open place. -/
  args : List (Value F)
  /-- The arguments by name. -/
  kwargs : List (String × Value F)
  /-- The slots that fill open places. -/
  inputVars : List Int
  /-- The places that they fill. -/
  inputArgPos : List Int
  /-- The slot that a forward result goes to. -/
  outputVar : Option Int
  /-- The derivatives that the adjoint returns. -/
  derCount : Option (Count F)
  deriving Inhabited

namespace Instruction

variable {F : Type}

/-- The name of the forward direction. -/
def forwardKind : String := "forward"

/-- The name of the backward direction. -/
def backwardKind : String := "backward"

/-- Whether the instruction belongs to the backward pass. -/
def isBackward (i : Instruction F) : Bool := i.kind == backwardKind

/-- The function that the instruction calls: the adjoint in the backward pass, which an op may
lack, and otherwise the forward function. -/
def function? (i : Instruction F) : Option Fn :=
  if i.isBackward then i.op.adjoint else some i.op.forward

/-- Fill one place of an argument list. -/
def fill (args : List (Value F)) (pos : Int) (v : Value F) : Fallible (List (Value F)) :=
  match locate? args.length pos with
  | some k => .ok (args.set k v)
  | none => .error .outOfRange

/-- Fill one place of an argument list from a slot. -/
def fillFrom (s : Store F) (args : List (Value F)) (b : Int × Int) : Fallible (List (Value F)) := do
  fill args b.2 (← s.get b.1)

/-- The slots and the places that they fill, in order. -/
def bindings (i : Instruction F) : List (Int × Int) := i.inputVars.zip i.inputArgPos

/-- The argument template filled with the current contents of slots. -/
def bind (i : Instruction F) (s : Store F) : Fallible (List (Value F)) :=
  i.bindings.foldlM (fillFrom s) i.args

variable [Arith F] [Interchange F]

/-- A list of integers as a tuple. -/
def integers (ns : List Int) : Value F := .tuple (ns.map .integer)

/-- Arguments by name as pairs of names and shown values, in the order of names. -/
def shownKwargs (kwargs : List (String × Value F)) : Value F :=
  let pairs := (kwargs.map fun (k, v) => (k, v.shown)).mergeSort fun p q => p.1 ≤ q.1
  .tuple (pairs.map fun (k, v) => .tuple [.text k, .text v])

/-- What tells instructions apart: all fields, constants by how they are shown. -/
def signature (i : Instruction F) : Value F :=
  .tuple [.text i.op.name, .text i.kind, .text i.name, .text i.source,
    .tuple (i.args.map fun v => .text v.shown), shownKwargs i.kwargs,
    integers i.inputVars, integers i.inputArgPos,
    (i.outputVar.map .integer).getD .none, (i.derCount.map Count.value).getD .none]

end Instruction
end SlotGrad
