import SlotGrad.Fault
import SlotGrad.Validation.Finding

/-!
# Errors

What can go wrong in building, compiling, running and saving a net, as causes.  The sentence for
the user is made from the cause by one function.  Payloads that are values are given as the text
they are shown by.

## Main definitions

* `Error` — the causes.
* `Error.message` — the sentence of a cause; a bare fault has none.
* `Attempt` — a computation that may end in an error.
-/

namespace SlotGrad

/-- The causes of failure. -/
inductive Error where
  /-- A primitive operation failed. -/
  | fault (f : Fault)
  /-- No op is registered under the name. -/
  | unknownOp (name : String)
  /-- The function, shown by its op name, belongs to no registered op. -/
  | unregisteredFunction (shownName : String)
  /-- A value of the kind refers to no op. -/
  | unresolvableOp (kind : String)
  /-- The name is taken by an op with the shown forward function. -/
  | opNameTaken (name shownFunction : String)
  /-- A parameter declares a training method that does not exist. -/
  | unknownTrainMethod (method : String)
  /-- The arguments for inference are text other than the mark for reusing the normal ones. -/
  | badTestArgs (text : String)
  /-- A net was asked for without a root. -/
  | noRoots
  /-- There is nothing to compile. -/
  | noNodes
  /-- The strictness of validation is unknown. -/
  | unknownStrictness (name : String)
  /-- The node, as shown, has no slots in the net. -/
  | notInNet (shownNode : String)
  /-- A store was asked for with a number of slots, as shown, that is not even. -/
  | oddStoreSize (shownSize : String)
  /-- The number of values differs from the number of slots. -/
  | valueCount (values slots : Nat)
  /-- The mode of evaluation, as shown, is unknown. -/
  | unknownMode (shownMode : String)
  /-- Normal mode was asked for without a derivative of the output. -/
  | emptySeed
  /-- The store's size is not the net's. -/
  | storeSize (size : Nat) (needed : Int)
  /-- The backward pass reached a layer whose op has no adjoint. -/
  | noAdjoint (op layer source : String)
  /-- A value of the kind addresses no slot. -/
  | notASlot (kind : String)
  /-- Inputs were given as a list of odd length. -/
  | inputPairs (count : Nat)
  /-- The name, as shown, is not among the inputs. -/
  | unknownInput (shownName : String) (shownInputs : List String)
  /-- The store was asked for while an evaluation holds it. -/
  | storeBusy
  /-- The device is unknown. -/
  | unknownDevice (name : String)
  /-- The accelerator is not there. -/
  | noAccelerator
  /-- A history was asked for with no room for a point. -/
  | historyLength (length : Int)
  /-- Nothing was recorded under the name. -/
  | noSeries (name : String)
  /-- A check of the name is already registered. -/
  | checkNameTaken (name : String)
  /-- Some finding of a phase reached the threshold. -/
  | validation (phase : Phase) (findings : List Finding) (threshold : Severity)
  /-- A value of the kind cannot be saved. -/
  | unsavable (kind : String)
  /-- An array of objects cannot be saved. -/
  | unsavableObjects
  /-- A dictionary whose keys are not all texts cannot be saved. -/
  | unsavableKeys
  /-- A number setting of a parameter, given by its class, has no written form. -/
  | unwritable (shownClass : String)
  /-- The format number of a file, as shown, is unknown. -/
  | unknownFormat (shownFormat : String)
  /-- A tagged object of a file, as shown, has no known tag. -/
  | unknownTag (shownObject : String)
  /-- A file refers to weights that are not there. -/
  | missingWeights
  deriving DecidableEq, Repr, Inhabited

namespace Error

/-- Names in single quotation marks. -/
def quoted (s : String) : String := "'" ++ s ++ "'"

/-- The lines of a failed validation: the number of fatal findings and each of them. -/
def validationReport (phase : Phase) (fatal : List Finding) : String :=
  "\n".intercalate (("Validation failed at " ++ phase.name ++ " (" ++ toString fatal.length
    ++ " issue(s)):") :: fatal.map fun f => "  " ++ f.line)

/-- The sentence of an error.  A bare fault has none. -/
def message : Error → Option String
  | fault _ => none
  | unknownOp name => some ("Unknown op " ++ quoted name)
  | unregisteredFunction name =>
    some ("Function " ++ name ++ " is not a registered op — call register_op() first")
  | unresolvableOp kind => some ("Cannot resolve op from " ++ kind)
  | opNameTaken name function =>
    some ("Op name " ++ quoted name ++ " already registered to " ++ function)
  | unknownTrainMethod method =>
    some ("Unknown train_method " ++ quoted method
      ++ " (expected one of gradient, average, none)")
  | badTestArgs text =>
    some ("test_args must be 'same' or a sequence, got " ++ quoted text)
  | noRoots => some "compile_net() needs at least one root node"
  | noNodes => some "Cannot compile an empty node list"
  | unknownStrictness name =>
    some ("Unknown validation " ++ quoted name ++ " (expected 'strict' or 'normal')")
  | notInNet node => some (node ++ " is not part of this net")
  | oddStoreSize size =>
    some ("Store size must be even (value/derivative pairs), got " ++ size)
  | valueCount values slots =>
    some ("Got " ++ toString values ++ " values for " ++ toString slots ++ " slots")
  | unknownMode mode =>
    some ("Unknown mode " ++ quoted mode ++ " (expected 'forward', 'normal', or 'inference')")
  | emptySeed => some "Must specify a non-empty output derivative for normal mode"
  | storeSize size needed =>
    some ("Store has " ++ toString size ++ " slots, compiled net needs " ++ toString needed)
  | noAdjoint op layer source =>
    some ("Op " ++ quoted op ++ " has no adjoint (layer " ++ quoted layer ++ ", "
      ++ (if source.isEmpty then "unknown source" else source) ++ ")")
  | notASlot kind => some ("Expected a slot index or a node, got " ++ kind)
  | inputPairs count =>
    some ("set_inputs() takes name/value pairs, got " ++ toString count
      ++ " positional arguments")
  | unknownInput name inputs =>
    some ("Unknown input " ++ quoted name ++ " (expected one of "
      ++ (if inputs.isEmpty then "none" else ", ".intercalate inputs) ++ ")")
  | storeBusy => some "Store is in use by a running evaluation"
  | unknownDevice name =>
    some ("Unknown device " ++ quoted name ++ " (expected 'cpu' or 'gpu')")
  | noAccelerator => some "Cannot move to 'gpu': CUDA is not available"
  | historyLength length => some ("num_points must be positive, got " ++ toString length)
  | noSeries name => some ("No diagnostics recorded for " ++ quoted name)
  | checkNameTaken name => some ("Validator " ++ quoted name ++ " is already registered")
  | validation phase findings threshold =>
    some (validationReport phase (Finding.fatal threshold findings))
  | unsavable kind => some ("Cannot save value of type " ++ kind)
  | unsavableObjects => some "Cannot save object arrays"
  | unsavableKeys => some "Cannot save a dict with non-string keys"
  | unwritable shownClass => some ("Not JSON serializable: " ++ shownClass)
  | unknownFormat format =>
    some ("Unsupported net format " ++ format ++ " (expected 1)")
  | unknownTag object => some ("Unrecognized encoded value: " ++ object)
  | missingWeights => some "Weights file is missing but the manifest references it"

end Error

/-- A computation that may end in an error. -/
abbrev Attempt (α : Type) := Except Error α

/-- A computation on values as part of one that may end in an error. -/
def Fallible.lift {α : Type} (x : Fallible α) : Attempt α := x.mapError .fault

@[simp] theorem Fallible.lift_ok {α : Type} (a : α) :
    Fallible.lift (.ok a : Fallible α) = .ok a := rfl

@[simp] theorem Fallible.lift_error {α : Type} (f : Fault) :
    Fallible.lift (.error f : Fallible α) = .error (.fault f) := rfl

instance : MonadLift (Except Fault) (Except Error) := ⟨Fallible.lift⟩

end SlotGrad
