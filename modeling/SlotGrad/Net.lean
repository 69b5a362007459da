import SlotGrad.Program.Addressing
import SlotGrad.Program.Compile
import SlotGrad.Run.Engine

/-!
# Nets

A net is a compiled graph together with the store that it runs on.

## Main definitions

* `Net`, `Net.ofCompiled?` — nets, and making one of a compiled graph and a store of its size.
* `Net.eval` — evaluation, which answers the root's value.
* `Device`, `moveTo` — moving stored values to a device.
* `describe`, `Net.dump` — contents in short form, and a table of all nodes.
-/

namespace SlotGrad

/-- A compiled graph and its store. -/
structure Net (F : Type) where
  /-- The compiled graph. -/
  compiled : CompiledNet F
  /-- The store. -/
  store : Store F
  /-- The completed instructions of the latest evaluation, if they were recorded. -/
  lastProfile : Option (List Entry)

/-! ### Devices -/

/-- Where stored values can live. -/
inductive Device where
  /-- The host. -/
  | host
  /-- The accelerator, which is never there. -/
  | accelerator
  deriving DecidableEq, Repr

/-- The device of a name. -/
def Device.ofName? (name : String) : Attempt Device :=
  if name = "cpu" then .ok host
  else if name = "gpu" then .ok accelerator
  else .error (.unknownDevice name)

/-- A value on the host: tensors of the accelerator library become arrays. -/
def Value.onHost {F : Type} : Value F → Value F
  | device t => array t
  | v => v

/-- The store with all contents on the device of a name. -/
def Store.moveTo {F : Type} (s : Store F) (name : String) : Attempt (Store F) := do
  match ← Device.ofName? name with
  | .host => return s.map Value.onHost
  | .accelerator => throw .noAccelerator

/-! ### Short descriptions -/

section

variable {F : Type} [Arith F] [Interchange F]

/-- A number with at most six significant digits. -/
def shortNumber (x : F) : String := Numeral.general 6 (pattern x)

/-- The extents of a shape. -/
def extentsText (s : Shape) : String := "x".intercalate (s.map fun n => toString n)

/-- The single element of a tensor without axes. -/
def singleNumber (t : Tensor F) : F := Elem.toReal t.dtype t.grid.first

/-- A value in short form: extents and type of an array, a number with few digits, and anything
else as it is shown. -/
def describe (v : Value F) : Fallible String :=
  match v with
  | .none => .ok "-"
  | .device t =>
    if t.rank = 0 then .ok (shortNumber (singleNumber t) ++ " (cpu)")
    else .ok ("[" ++ extentsText t.shape ++ " " ++ t.dtype.name ++ " cpu]")
  | .array t =>
    if t.rank = 0 then .ok (shortNumber (singleNumber t))
    else .ok ("[" ++ extentsText t.shape ++ " " ++ t.dtype.name ++ "]")
  | .objects s xs =>
    if s = [] then
      match (xs.head?.getD .none).weak? with
      | some w => do return shortNumber (← w.toReal)
      | none => .error .wrongKind
    else .ok ("[" ++ extentsText s ++ " " ++ Value.objectsDtype xs ++ "]")
  | .scalar .bool b => .ok (Elem.shown (F := F) .bool b)
  | .scalar d x => .ok (shortNumber (Elem.toReal d x))
  | .integer n => do return shortNumber (← (Weak.realOfInt n : Fallible F))
  | .real x => .ok (shortNumber x)
  | v => .ok v.shown

end

namespace Net

variable {F : Type}

/-- The net of a compiled graph and a store, which must have the graph's number of slots. -/
def ofCompiled? (c : CompiledNet F) (s : Store F) : Attempt (Net F) :=
  if (s.size : Int) ≠ c.numVars then .error (.storeSize s.size c.numVars) else .ok ⟨c, s, none⟩

/-- A net of the same compiled graph and an independent store of the same contents. -/
def clone (n : Net F) : Attempt (Net F) := ofCompiled? n.compiled n.store

/-- How a net appears in messages. -/
def shown (n : Net F) : String :=
  "Net(" ++ toString (n.compiled.numVars.fdiv 2) ++ " nodes, "
    ++ toString n.compiled.inputs.length ++ " inputs, "
    ++ toString n.compiled.params.length ++ " params)"

/-! ### Evaluation -/

section

variable [Arith F]

/-- Evaluate the net.  The net keeps what a failed evaluation wrote.  The record of instructions is
that of the latest evaluation that did not fail. -/
def run (call : Calls F) (mode : Mode) (o : EvalOptions F) (profiled : Bool) (n : Net F) :
    Outcome (Net F) :=
  let start : RunState F := ⟨n.store, [], if profiled then some [] else none⟩
  let done := evaluate call n.compiled mode o start
  -- A failed evaluation keeps what it wrote but leaves no record.
  let profile := if done.error.isNone then done.state.profile else n.lastProfile
  ⟨{ n with store := done.state.store, lastProfile := profile }, done.error⟩

/-- The root's value: the content of the last value slot. -/
def rootValue (n : Net F) : Fallible (Value F) := n.store.get (n.compiled.numVars - 2)

end

/-! ### Tables -/

/-- A row of the table of nodes. -/
structure Row where
  /-- The value slot. -/
  var : Int
  /-- The kind of the node. -/
  kind : String
  /-- The op of a layer. -/
  function : String
  /-- The name. -/
  name : String
  deriving Repr

/-- Put a row in the place of the one with its slot, or after all others. -/
def Row.put (rows : List Row) (r : Row) : List Row :=
  if rows.any fun q => q.var == r.var then rows.map fun q => if q.var == r.var then r else q
  else rows ++ [r]

/-- The row of a forward instruction, which must write a slot. -/
def layerRow (i : Instruction F) : Fallible Row :=
  match i.outputVar with
  | some v => .ok ⟨v, "layer", i.op.name, i.name⟩
  | none => .error .wrongKind

/-- The rows of inputs, parameters and layers, in the order of slots. -/
def rows (c : CompiledNet F) : Fallible (List Row) := do
  let inputs := c.inputs.map fun (name, v) => (⟨v, "input", "", name⟩ : Row)
  let params := c.params.map fun p => (⟨p.var, "param", "", p.name⟩ : Row)
  let layers ← c.forward.mapM layerRow
  return ((inputs ++ params ++ layers).foldl Row.put []).mergeSort fun a b => a.var ≤ b.var

/-- The titles of the table's columns. -/
def titles : List String := ["slot", "type", "function", "name", "value", "derivative"]

/-- The widths of columns. -/
def widths (table : List (List String)) : List Nat :=
  (List.range titles.length).map fun k =>
    Column.widest (table.map fun cells => ((cells[k]?).getD "").length)

/-- A line of a table, without blanks at its end. -/
def tableLine (ws : List Nat) (cells : List String) : String :=
  Bracketed.trimEnd ("  ".intercalate (List.zipWith Numeral.padRight ws cells))

/-- The line under the titles. -/
def ruler (ws : List Nat) : String :=
  "  ".intercalate (ws.map fun w => String.ofList (List.replicate w '-'))

variable [Arith F] [Interchange F]

/-- The cells of a row, with the contents of its slots. -/
def cells (s : Store F) (r : Row) : Fallible (List String) := do
  return [toString r.var, r.kind, r.function, r.name, ← describe (← s.get r.var),
    ← describe (← s.der r.var)]

/-- A table of all nodes with their slots' contents. -/
def dump (n : Net F) : Fallible String := do
  let body ← (← rows n.compiled).mapM (cells n.store)
  let table := titles :: body
  let ws := widths table
  return "\n".intercalate (tableLine ws titles :: ruler ws :: body.map (tableLine ws))

end Net
end SlotGrad
