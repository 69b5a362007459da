import SlotGrad.Program.Compiled
import SlotGrad.Run.Mode
import SlotGrad.Run.Profile
import SlotGrad.Value.Index

/-!
# The engine

The engine runs the streams of a compiled net on a store.  The forward stream writes each result
to its output slot.  Before the backward stream, every derivative slot is reset and the seed is
written to the root's; then each instruction adds the derivatives of its arguments into their
slots, so that a node read by several layers sums one contribution from each.

An indexing layer does not call an adjoint: the derivative of its output is added straight into the
indexed part of the source's derivative, which is made at full size only once.  A slot is *owned*
by a pass when the pass made its content, and only then is the content changed in place.

An error stops a run and leaves the store as it was at that point.

## Main definitions

* `Calls` — what functions compute.
* `RunState` — the state of a run: the store, the owned slots, and the profile if one is kept.
* `forwardStep`, `scatterStep`, `adjointStep`, `backwardStep` — one instruction.
* `evaluate` — a whole evaluation.
-/

namespace SlotGrad

/-- What functions compute from their arguments. -/
abbrev Calls (F : Type) := Fn → Arguments F → Attempt (Value F)

/-- The state of a run. -/
structure RunState (F : Type) where
  /-- The store. -/
  store : Store F
  /-- The slots whose content this pass made. -/
  owned : List Int
  /-- The completed instructions, if they are recorded. -/
  profile : Option (List Entry)

namespace RunState

variable {F : Type}

/-- Record a completed instruction. -/
def record (index : Nat) (stage : Stage) (i : Instruction F) (r : RunState F) : RunState F :=
  { r with profile := r.profile.map (· ++ [⟨index, i.name, i.op.name, stage⟩]) }

/-- The run with another store and one more owned slot. -/
def put (r : RunState F) (slot : Int) (s : Store F) : RunState F :=
  { r with store := s, owned := slot :: r.owned }

end RunState

section

variable {F : Type} [Arith F]

/-! ### Forward -/

/-- The result of an instruction on the current contents of slots. -/
def callOn (call : Calls F) (i : Instruction F) (s : Store F) : Attempt (Value F) := do
  let args ← i.bind s
  match i.function? with
  | some f => call f ⟨args, i.kwargs⟩
  | none => throw (.fault .wrongKind)

/-- Write a result to the output slot of an instruction, which must have one. -/
def writeOutput (i : Instruction F) (s : Store F) (v : Value F) : Fallible (Store F) :=
  match i.outputVar with
  | some slot => s.set slot v
  | none => .error .wrongKind

/-- Run one instruction of a forward or inference stream. -/
def forwardStep (call : Calls F) (stage : Stage) (p : Instruction F × Nat) (r : RunState F) :
    Outcome (RunState F) :=
  .attempt r <| do
    let v ← callOn call p.1 r.store
    let s ← writeOutput p.1 r.store v
    return RunState.record p.2 stage p.1 { r with store := s }

/-! ### Backward -/

/-- The three arguments of a sparse update: the source, the index and the derivative of the
output. -/
def scatterArguments (args : List (Value F)) : Fallible (Value F × Value F × Value F) :=
  match args with
  | source :: index :: dy :: _ => .ok (source, index, dy)
  | _ => .error .outOfRange

/-- The content that a sparse update adds into: zeros if there is no derivative yet, a copy at full
size if the content is not the pass's own or of another shape, and otherwise the content itself. -/
def scatterTarget (owned : Bool) (current source dy : Value F) : Fallible (Value F) := do
  if current.isNone || Store.isZeroValue current then
    return .array (.zeros (← source.shape) (← source.commonDtype dy))
  let full ← source.shape
  if owned && (← current.shape) == full then return current
  let wide ← (← current.contents).broadcastTo full
  let d ← current.commonDtype dy
  match wide, current.weak? with
  | .numbers t, _ => return .array (t.convert d)
  -- An integer that no element type of integers holds may still be a real number.
  | _, some w => return .array ⟨d, .full full (← w.toElem d)⟩
  | _, none => throw .wrongKind

/-- Add a derivative into an array at an index. -/
def addInto (target index dy : Value F) : Fallible (Value F) :=
  match target with
  | .array t => do return .array (← t.addAtIndex index dy)
  | _ => .error .wrongKind

/-- Run a sparse update: add the derivative of the output into the source's derivative. -/
def scatterStep (i : Instruction F) (args : List (Value F)) (r : RunState F) :
    Outcome (RunState F) :=
  let prepared : Fallible (Int × Value F × Value F × Value F) := do
    let (source, index, dy) ← scatterArguments args
    let slot := derSlot (← Fallible.ofOption .outOfRange i.inputVars.head?)
    let current ← r.store.get slot
    let target ← scatterTarget (r.owned.contains slot) current source dy
    return (slot, target, index, dy)
  match prepared with
  | .error f => .stopped r (.fault f)
  | .ok (slot, target, index, dy) =>
    let change (v : Value F) (r : RunState F) : Outcome (RunState F) :=
      .attempt r <| do return r.put slot (← r.store.set slot v)
    -- The slot is prepared even if the addition then fails.
    (change target r).andThen fun r =>
      match addInto target index dy with
      | .error f => .stopped r (.fault f)
      | .ok v => change v r

/-- The results of an adjoint: the members of a tuple, or a single one. -/
def resultsOf (v : Value F) : List (Value F) :=
  match v with
  | .tuple vs => vs
  | v => [v]

/-- The first results, or without a number of last ones if the count is negative. -/
def takeResults (n : Int) (vs : List (Value F)) : List (Value F) :=
  if 0 ≤ n then vs.take n.toNat else vs.take (vs.length - n.natAbs)

/-- The result at a place, if there is one: none behind the end, and counted from the end if the
place is negative. -/
def resultAt (out : List (Value F)) (pos : Int) : Fallible (Option (Value F)) :=
  if (out.length : Int) ≤ pos then .ok none
  else match locate? out.length pos with
    | some k => .ok (out[k]?)
    | none => .error .outOfRange

/-- Add one result of an adjoint into the derivative of the operand that it belongs to. -/
def contribute (out : List (Value F)) (b : Int × Int) (r : RunState F) : Outcome (RunState F) :=
  .attempt r <| do
    match ← resultAt out b.2 with
    | none => return r
    | some v =>
      if v.isNone then return r
      let slot := derSlot b.1
      return r.put slot (← r.store.accumulate slot v)

/-- The operands of a backward instruction with their places: all bindings but the last, which is
the layer's own derivative. -/
def operands (i : Instruction F) : List (Int × Int) :=
  i.inputVars.dropLast.zip i.inputArgPos.dropLast

/-- Call an adjoint and add its results into the derivatives of the operands. -/
def adjointStep (call : Calls F) (i : Instruction F) (count : Count F) (args : List (Value F))
    (r : RunState F) : Outcome (RunState F) :=
  let results : Attempt (List (Value F)) := do
    let some f := i.function? | throw (.noAdjoint i.op.name i.name i.source)
    let out ← call f ⟨args, i.kwargs⟩
    return takeResults (← count.taken) (resultsOf out)
  match results with
  | .error e => .stopped r e
  -- Contributions made before one that fails stay in the store.
  | .ok out => runAll (contribute out) (operands i) r

/-- Run one instruction of the backward stream. -/
def backwardStep (call : Calls F) (p : Instruction F × Nat) (r : RunState F) :
    Outcome (RunState F) :=
  let (i, k) := p
  -- The arguments are bound also where nothing is computed, so a bad slot is found in any case.
  let worked : Outcome (RunState F) :=
    match i.bind r.store with
    | .error f => .stopped r (.fault f)
    | .ok args =>
      if i.op.scatter then scatterStep i args r
      else match i.derCount with
        | some c => if c.isActive then adjointStep call i c args r else .done r
        | none => .done r
  worked.andThen fun r => .done (r.record k .backward i)

/-! ### Evaluation -/

/-- Run a forward or inference stream. -/
def runForward (call : Calls F) (stage : Stage) (stream : List (Instruction F)) :
    RunState F → Outcome (RunState F) :=
  runAll (forwardStep call stage) stream.zipIdx

/-- Run the backward stream.  It owns no slot at the start. -/
def runBackward (call : Calls F) (stream : List (Instruction F)) (r : RunState F) :
    Outcome (RunState F) :=
  runAll (backwardStep call) stream.zipIdx { r with owned := [] }

/-- Whether a value is no seed: the absent value, or an array or sequence without members. -/
def isEmptySeed (v : Value F) : Bool :=
  match v with
  | .none => true
  | .array t => t.shape.contains 0
  | .device t => t.shape.contains 0
  | .objects s _ => s.contains 0
  | .list xs => xs.isEmpty
  | .tuple xs => xs.isEmpty
  | _ => false

/-- How a net is evaluated. -/
structure EvalOptions (F : Type) where
  /-- The derivative of the objective with respect to the root's value. -/
  seed : Value F
  /-- Whether parameter derivatives are added to those already there. -/
  accumulate : Bool

/-- The derivative slots that a reset leaves alone. -/
def keptSlots (c : CompiledNet F) (o : EvalOptions F) : List Int :=
  if o.accumulate then c.paramVars.map derSlot else []

/-- Reset the derivatives and write the seed to the root's derivative, which is the last slot. -/
def seedDers (c : CompiledNet F) (o : EvalOptions F) (r : RunState F) : Outcome (RunState F) :=
  let s := r.store.resetDers (keptSlots c o)
  .attempt { r with store := s } <| do
    return { r with store := ← s.set (s.size - 1 : Int) o.seed }

/-- Refuse an evaluation that cannot start: normal mode without a seed, or a store of another
size than the net's. -/
def checkRequest (c : CompiledNet F) (mode : Mode) (o : EvalOptions F) (s : Store F) :
    Attempt Unit := do
  if mode = .normal ∧ isEmptySeed o.seed then throw .emptySeed
  if (s.size : Int) ≠ c.numVars then throw (.storeSize s.size c.numVars)

/-- Evaluate a net on a store. -/
def evaluate (call : Calls F) (c : CompiledNet F) (mode : Mode) (o : EvalOptions F)
    (r : RunState F) : Outcome (RunState F) :=
  match checkRequest c mode o r.store with
  | .error e => .stopped r e
  | .ok () =>
    match mode with
    | .forward => runForward call .forward c.forward r
    | .inference => runForward call .inference c.test r
    | .normal =>
      ((runForward call .forward c.forward r).andThen (seedDers c o)).andThen
        (runBackward call c.backward)

end

end SlotGrad
