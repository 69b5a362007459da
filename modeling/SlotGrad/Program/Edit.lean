import SlotGrad.Program.Compiled
import SlotGrad.Value.Lookup

/-!
# Editing compiled nets

A compiled net can be edited by hand: one of its fields, a member of one, or a field of one of its
records gets another value.  A value of a kind that the field cannot hold is refused; whether the
edited net still makes sense is for checks to find out.

## Main definitions

* `EditPlace` — where a compiled net is edited.
* `CompiledNet.edit` — the net with another value there.
-/

namespace SlotGrad

/-- Where a compiled net is edited. -/
inductive EditPlace (F : Type) where
  /-- A field of the net. -/
  | field (name : String)
  /-- A member of a field. -/
  | entry (container : String) (key : Value F)
  /-- A field of a record in a list of the net. -/
  | record (list : String) (place : Value F) (name : String)

namespace Value

variable {F : Type}

/-- The text that a value is. -/
def asText (v : Value F) : Fallible String :=
  match v with
  | text s => .ok s
  | _ => .error .wrongKind

/-- The members of the list or tuple that a value is. -/
def asMembers (v : Value F) : Fallible (List (Value F)) :=
  Fallible.ofOption .wrongKind v.members?

/-- The named values of the dictionary that a value is. -/
def asNamed (v : Value F) : Fallible (List (String × Value F)) :=
  match v with
  | dict es => es.mapM fun (k, x) => do return (← k.asText, x)
  | _ => .error .wrongKind

/-- The number of derivatives that a value is, which may be open. -/
def asCount (v : Value F) : Fallible (Option (Count F)) :=
  match v with
  | none => .ok Option.none
  | integer n => .ok (some (.whole n))
  | flag b => .ok (some (.flag b))
  | real x => .ok (some (.real x))
  | _ => .error .wrongKind

/-- The empty list that a value is. -/
def asEmpty {α : Type} (v : Value F) : Fallible (List α) := do
  if (← v.asMembers).isEmpty then return [] else throw .wrongKind

end Value

variable {F : Type} [Arith F]

/-- An instruction with another field. -/
def Instruction.withField (i : Instruction F) (name : String) (v : Value F) :
    Fallible (Instruction F) := do
  match name with
  | "op" =>
    match v with
    | .op o => return { i with op := o }
    | _ => throw .wrongKind
  | "kind" => return { i with kind := ← v.asText }
  | "name" => return { i with name := ← v.asText }
  | "source" => return { i with source := ← v.asText }
  | "args" => return { i with args := ← v.asMembers }
  | "kwargs" => return { i with kwargs := ← v.asNamed }
  | "input_vars" => return { i with inputVars := ← (← v.asMembers).mapM Value.asInteger }
  | "input_arg_pos" => return { i with inputArgPos := ← (← v.asMembers).mapM Value.asInteger }
  | "output_var" =>
    return { i with outputVar := ← if v.isNone then pure none else some <$> v.asInteger }
  | "num_input_der" => return { i with derCount := ← v.asCount }
  | _ => throw .wrongKind

/-- A parameter entry with another field. -/
def ParamEntry.withField (p : ParamEntry F) (name : String) (v : Value F) :
    Fallible (ParamEntry F) := do
  match name with
  | "var" => return { p with var := ← v.asInteger }
  | "name" => return { p with name := ← v.asText }
  | "weight_decay" => return { p with weightDecay := v }
  | "learning_rate" => return { p with learningRate := v }
  | "source" => return { p with source := ← v.asText }
  | "train_method" => return { p with trainMethod := ← v.asText }
  | _ => throw .wrongKind

/-- A monitored node with another field. -/
def MonitorEntry.withField (d : MonitorEntry) (name : String) (v : Value F) :
    Fallible MonitorEntry := do
  match name with
  | "var" => return { d with var := ← v.asInteger }
  | "der" => return { d with der := ← v.asInteger }
  | "name" => return { d with name := ← v.asText }
  | _ => throw .wrongKind

/-- A list with another member at a place. -/
def editAt {α : Type} (xs : List α) (place : Value F) (change : α → Fallible α) :
    Fallible (List α) := do
  let k ← Value.place xs.length place
  return xs.set k (← change (← Value.nth xs place))

namespace CompiledNet

/-- A compiled net with another field; a name that no field has leaves the net alone. -/
def withField (c : CompiledNet F) (name : String) (v : Value F) : Fallible (CompiledNet F) := do
  match name with
  | "forward" => return { c with forward := ← v.asEmpty }
  | "backward" => return { c with backward := ← v.asEmpty }
  | "test" => return { c with test := ← v.asEmpty }
  | "inputs" =>
    let named ← v.asNamed
    return { c with inputs := ← named.mapM fun (k, x) => do return (k, ← x.asInteger) }
  | "params" => return { c with params := ← v.asEmpty }
  | "diagnostics" => return { c with diagnostics := ← v.asEmpty }
  | "num_vars" => return { c with numVars := ← v.asInteger }
  | "meta" => return { c with «meta» := v }
  | "names" => return { c with names := ← (← v.asMembers).mapM Value.asText }
  | _ => return c

/-- A compiled net with another member of a field. -/
def withEntry (c : CompiledNet F) (container : String) (key v : Value F) :
    Fallible (CompiledNet F) := do
  match container with
  | "inputs" => return { c with inputs := putSlot c.inputs (← key.asText) (← v.asInteger) }
  | "meta" => return { c with «meta» := ← c.meta.withMember key v }
  | "names" => return { c with names := ← editAt c.names key fun _ => v.asText }
  | _ => throw .wrongKind

/-- A compiled net with another field in a record of one of its lists. -/
def withRecord (c : CompiledNet F) (list : String) (place : Value F) (name : String)
    (v : Value F) : Fallible (CompiledNet F) := do
  match list with
  | "forward" =>
    return { c with forward := ← editAt c.forward place fun i => i.withField name v }
  | "backward" =>
    return { c with backward := ← editAt c.backward place fun i => i.withField name v }
  | "test" => return { c with test := ← editAt c.test place fun i => i.withField name v }
  | "params" => return { c with params := ← editAt c.params place fun p => p.withField name v }
  | "diagnostics" =>
    return { c with diagnostics := ← editAt c.diagnostics place fun d => d.withField name v }
  | _ => throw .missingMember

/-- The net with another value at a place. -/
def edit (c : CompiledNet F) (place : EditPlace F) (v : Value F) : Fallible (CompiledNet F) :=
  match place with
  | .field name => c.withField name v
  | .entry container key => c.withEntry container key v
  | .record list place name => c.withRecord list place name v

end CompiledNet
end SlotGrad
