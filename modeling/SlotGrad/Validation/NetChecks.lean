import SlotGrad.Validation.GraphChecks

/-!
# Checks of compiled nets

What a compiled net must keep to be run: slots are paired and inside the store, bindings fill open
places, and the backward pass finds an adjoint.  One check only notes where the compiler counted
derivatives of constants.

Findings name slots, counts and places with all their digits.  The runtime refuses to turn an
integer of more than `Saved.Json.mostDigits` digits into text, and with it the check.  This
limit is not modelled here: a net with so great a slot or count gets its finding.

## Main definitions

* `slotPairing` — slot references outside the store or on the wrong side of a pair.
* `bindingPositions` — bindings that fill no open place of their own.
* `adjointCoverage` — layers whose op has no adjoint.
* `inferredDerCount` — layers whose derivative count spans constants.
* `Checks.builtin` — all checks that are registered at the outset.
-/

namespace SlotGrad
namespace NetChecks

variable {F : Type}

/-- The instructions of a stream with the stream's name and their places in it. -/
def located (stream : String × List (Instruction F)) : List (String × Instruction F) :=
  (stream.2.zipIdx).map fun (i, k) =>
    (stream.1 ++ "[" ++ toString k ++ "] (" ++ i.name ++ ")", i)

/-- All instructions of a net, each with the text that says where it is. -/
def allLocated (c : CompiledNet F) : List (String × Instruction F) := c.streams.flatMap located

/-! ### Slot pairing -/

/-- The name of the check on slots. -/
def slotCheck : String := "slot_pairing"

/-- A finding that the net cannot be evaluated. -/
def slotError (message : String) : Finding := ⟨slotCheck, .error, message⟩

/-- Whether a slot is one of derivatives. -/
def isDerSlot (n : Int) : Bool := n % 2 != 0

/-- A number of slots that does not fit the number of nodes. -/
def storeFindings (c : CompiledNet F) : List Finding :=
  if isDerSlot c.numVars || (!c.names.isEmpty && c.numVars != 2 * c.names.length) then
    [slotError ("Store has " ++ toString c.numVars ++ " slots for "
      ++ toString c.names.length ++ " nodes")]
  else []

/-- Slots read outside the store. -/
def outsideFindings (numVars : Int) (place : String) (i : Instruction F) : List Finding :=
  (i.inputVars.filter fun v => !(0 ≤ v && v < numVars)).map fun v =>
    slotError (place ++ " reads slot " ++ toString v ++ " outside the store ("
      ++ toString numVars ++ " slots)")

/-- Slots of derivatives read as values. -/
def derReadFindings (place : String) (vars : List Int) : List Finding :=
  (vars.filter isDerSlot).map fun v =>
    slotError (place ++ " reads derivative slot " ++ toString v ++ " as a value")

/-- A backward instruction that does not read a derivative last. -/
def seedFindings (place : String) (i : Instruction F) : List Finding :=
  if (i.inputVars.getLast?.map isDerSlot).getD false then []
  else [slotError (place ++ " does not read a derivative slot last")]

/-- The slot that a forward instruction writes, in a message. -/
def outputText (output : Option Int) : String := (output.map toString).getD "None"

/-- A forward instruction that does not write a value slot. -/
def outputFindings (place : String) (i : Instruction F) : List Finding :=
  if (i.outputVar.map fun v => !isDerSlot v).getD false then []
  else [slotError (place ++ " writes non-value slot " ++ outputText i.outputVar)]

/-- Slot references of one instruction outside the store or on the wrong side of a pair. -/
def instructionFindings (numVars : Int) (p : String × Instruction F) : List Finding :=
  let (place, i) := p
  outsideFindings numVars place i ++
    if i.isBackward then seedFindings place i ++ derReadFindings place i.inputVars.dropLast
    else outputFindings place i ++ derReadFindings place i.inputVars

/-- Inputs, parameters and monitored nodes on the wrong side of a pair. -/
def registryFindings (c : CompiledNet F) : List Finding :=
  ((c.inputs.filter fun p => isDerSlot p.2).map fun p =>
    slotError ("Input '" ++ p.1 ++ "' mapped to derivative slot " ++ toString p.2))
  ++ ((c.params.filter fun p => isDerSlot p.var).map fun p =>
    slotError ("Param '" ++ p.name ++ "' mapped to derivative slot " ++ toString p.var))
  ++ ((c.diagnostics.filter fun d => d.der != derSlot d.var).map fun d =>
    slotError ("Diagnostic '" ++ d.name ++ "' derivative slot " ++ toString d.der ++ " is not "
      ++ toString (derSlot d.var)))

/-- Slot references outside the store or on the wrong side of a pair. -/
def slotPairing (c : CompiledNet F) : List Finding :=
  storeFindings c ++ (allLocated c).flatMap (instructionFindings c.numVars) ++ registryFindings c

/-! ### Binding positions -/

/-- The name of the check on bindings. -/
def bindingCheck : String := "binding_positions"

/-- A finding that the net cannot be evaluated. -/
def bindingError (message : String) : Finding := ⟨bindingCheck, .error, message⟩

/-- What is wrong with one place that a binding fills. -/
def positionFindings (place : String) (i : Instruction F) (pos : Int) : List Finding :=
  if !(0 ≤ pos && pos < i.args.length) then
    [bindingError (place ++ " binds position " ++ toString pos ++ " outside its "
      ++ toString i.args.length ++ " arguments")]
  else if ((i.args[pos.toNat]?).map Value.isNone).getD true then []
  else [bindingError (place ++ " binds over constant argument at position " ++ toString pos)]

/-- What is wrong with the bindings of one instruction. -/
def bindingFindings (p : String × Instruction F) : List Finding :=
  let (place, i) := p
  if i.inputVars.length ≠ i.inputArgPos.length then
    [bindingError (place ++ " has " ++ toString i.inputVars.length ++ " input slots but "
      ++ toString i.inputArgPos.length ++ " positions")]
  else
    (if i.inputArgPos.Nodup then []
      else [bindingError (place ++ " binds two inputs to one position")])
    ++ i.inputArgPos.flatMap (positionFindings place i)

/-- Bindings that fill no open place of their own. -/
def bindingPositions (c : CompiledNet F) : List Finding := (allLocated c).flatMap bindingFindings

/-! ### Adjoints -/

/-- The name of the check on adjoints. -/
def adjointCheck : String := "adjoint_coverage"

/-- Layers whose op has no adjoint and is no sparse update. -/
def adjointCoverage (c : CompiledNet F) : List Finding :=
  (c.backward.filter fun i => i.op.adjoint.isNone && !i.op.scatter).map fun i =>
    ⟨adjointCheck, .warning, "Layer '" ++ i.name ++ "' uses op '" ++ i.op.name
      ++ "' which has no adjoint; normal-mode evaluation will fail"⟩

/-! ### Derivative counts -/

/-- The name of the check on derivative counts. -/
def derCountCheck : String := "inferred_der_count"

variable [Arith F] [Interchange F]

/-- The derivative count of an instruction; none counts as zero. -/
def covered (i : Instruction F) : Count F :=
  match i.derCount with
  | some c => if c.isActive then c else .whole 0
  | none => .whole 0

/-- The lesser of a derivative count and a whole number, if it is a whole number itself. -/
def Count.least (c : Count F) (n : Int) : Fallible Int :=
  match c with
  | .whole m => .ok (if n < m then n else m)
  | .flag b => .ok (if n < (if b then 1 else 0) then n else if b then 1 else 0)
  | .real x => if Arith.less (Arith.ofInt n) x then .ok n else .error .wrongKind

/-- The places of arguments in the forward call that are filled from slots: the places behind the
output's derivative move back by one. -/
def valuePositions (insertAt : Int) (positions : List Int) : List Int :=
  positions.map fun p => if insertAt < p then p - 1 else p

/-- The places of constants among the arguments that a derivative count spans. -/
def coveredConstants (i : Instruction F) : Fallible (List Nat) := do
  let insertAt ← Fallible.ofOption .outOfRange i.inputArgPos.getLast?
  let positions := valuePositions insertAt i.inputArgPos.dropLast
  -- One of the arguments is the output's derivative, which the forward call does not have.
  let n ← Count.least (covered i) ((i.args.length : Int) - 1)
  return (List.range n.toNat).filter fun k => !positions.contains (k : Int)

/-- The finding on a layer whose derivative count spans constants. -/
def derCountFindings (i : Instruction F) : Fallible (List Finding) := do
  let constants ← coveredConstants i
  return if constants.isEmpty then []
    else [⟨derCountCheck, .info, "Layer '" ++ i.name ++ "' expects " ++ (covered i).value.shown
      ++ " derivatives from '" ++ i.op.name ++ "', including constant argument position(s) ["
      ++ ", ".intercalate (constants.map fun n => toString n) ++ "]"⟩]

/-- Layers whose derivative count spans constants. -/
def inferredDerCount (c : CompiledNet F) : Fallible (List Finding) := do
  return (← c.backward.mapM derCountFindings).flatten

/-- The checks of compiled nets. -/
def all : Checks F :=
  [⟨slotCheck, .compiled fun c => .ok (slotPairing c)⟩,
   ⟨bindingCheck, .compiled fun c => .ok (bindingPositions c)⟩,
   ⟨adjointCheck, .compiled fun c => .ok (adjointCoverage c)⟩,
   ⟨derCountCheck, .compiled inferredDerCount⟩]

end NetChecks

/-- The checks that are registered at the outset. -/
def Checks.builtin {F : Type} [Arith F] [Interchange F] : Checks F :=
  GraphChecks.all ++ NetChecks.all

end SlotGrad
