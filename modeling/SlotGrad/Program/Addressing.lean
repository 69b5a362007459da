import SlotGrad.Program.Compiled

/-!
# Addressing slots

A caller reads and writes the slots of a net by slot number, by node, or by a list of both, and
binds inputs by name.

## Main definitions

* `Target`, `CompiledNet.target` — one slot or several, as a value names them.
* `CompiledNet.read`, `CompiledNet.write` — access to the named slots.
* `CompiledNet.setInputs` — binding inputs by name.

## Main results

* `setInputs_of_unknown` — if some name is unknown, no slot is written.
-/

namespace SlotGrad

/-- The slots that a value names. -/
inductive Target where
  /-- One slot. -/
  | one (slot : Int)
  /-- Several slots. -/
  | many (slots : List Int)
  deriving DecidableEq, Repr

/-- The slots under a function of slot numbers. -/
def Target.map (f : Int → Int) : Target → Target
  | one n => one (f n)
  | many ns => many (ns.map f)

namespace CompiledNet

variable {F : Type} [Arith F]

/-- The slot that a value names: the value slot of a node, or a slot by its number. -/
def slot (c : CompiledNet F) (v : Value F) : Attempt Int :=
  match v with
  | .node h => c.varIndex h
  | .integer n => .ok n
  | .scalar .int32 n => .ok (Int32.toInt n)
  | .scalar .int64 n => .ok (Int64.toInt n)
  | v => .error (.notASlot v.kindName)

/-- The slots that a value names: one, or one for each member of a sequence. -/
def target (c : CompiledNet F) (v : Value F) : Attempt Target :=
  match v with
  | .list vs => do return .many (← vs.mapM c.slot)
  | .tuple vs => do return .many (← vs.mapM c.slot)
  | v => do return .one (← c.slot v)

/-- The contents of the named slots. -/
def read (s : Store F) : Target → Fallible (Value F)
  | .one n => s.get n
  | .many ns => do return .list (← s.getMany ns)

/-- Write the named slots: one value, or the members of a value for several slots. -/
def write (s : Store F) (v : Value F) : Target → Outcome (Store F)
  | .one n => s.write n v
  | .many ns => s.setMany ns v

/-- The values of the slots that `ref` names. -/
def getValue (c : CompiledNet F) (s : Store F) (ref : Value F) : Attempt (Value F) := do
  read s (← c.target ref)

/-- The derivatives paired with the value slots that `ref` names. -/
def getDer (c : CompiledNet F) (s : Store F) (ref : Value F) : Attempt (Value F) := do
  read s ((← c.target ref).map derSlot)

/-- Write the slots that `ref` names. -/
def setValue (c : CompiledNet F) (ref v : Value F) (s : Store F) : Outcome (Store F) :=
  match c.target ref with
  | .ok t => write s v t
  | .error e => .stopped s e

/-- Write the derivatives paired with the value slots that `ref` names. -/
def setDer (c : CompiledNet F) (ref v : Value F) (s : Store F) : Outcome (Store F) :=
  match c.target ref with
  | .ok t => write s v (t.map derSlot)
  | .error e => .stopped s e

/-! ### Inputs -/

/-- A list cut into pairs; the last member of a list of odd length is dropped. -/
def pairUp {α : Type} : List α → List (α × α)
  | a :: b :: rest => (a, b) :: pairUp rest
  | _ => []

@[simp] theorem pairUp_nil {α : Type} : pairUp ([] : List α) = [] := rfl

@[simp] theorem pairUp_cons_cons {α : Type} (a b : α) (rest : List α) :
    pairUp (a :: b :: rest) = (a, b) :: pairUp rest := rfl

/-- A list laid out from pairs is cut into these pairs. -/
theorem pairUp_flatMap {α β : Type} (f g : α → β) (as : List α) :
    pairUp (as.flatMap fun a => [f a, g a]) = as.map fun a => (f a, g a) := by
  induction as with
  | nil => rfl
  | cons a as ih => simp [ih]

theorem length_flatMap_pair {α β : Type} (f g : α → β) (as : List α) :
    (as.flatMap fun a => [f a, g a]).length = 2 * as.length := by
  induction as with
  | nil => rfl
  | cons a as ih =>
    simp only [List.flatMap_cons, List.length_append, ih, List.length_cons, List.length_nil]
    omega

variable [Interchange F]

/-- The slot of the input that a value names. -/
def inputSlot (c : CompiledNet F) (name : Value F) : Attempt Int :=
  if !name.isKey then .error (.fault .wrongKind)
  else match name with
    | .text s =>
      match c.inputs.lookup s with
      | some slot => .ok slot
      | none => .error (unknown name)
    | v => .error (unknown v)
where
  /-- The error of a name that is not among the inputs. -/
  unknown (v : Value F) : Error :=
    .unknownInput v.plain (c.inputs.map fun p => Text.quoted p.1)

/-- The slots and values that names and values stand for. -/
def inputWrites (c : CompiledNet F) (items : List (Value F × Value F)) :
    Attempt (List (Int × Value F)) :=
  items.mapM fun (name, v) => do return (← c.inputSlot name, v)

/-- The keyword under which the net itself is passed.  A call cannot give it once more, also where
an input has that name. -/
def netKeyword : String := "self"

/-- Bind inputs by alternating names and values and by keywords.  All names are looked up before
anything is written; later bindings of a name win. -/
def setInputs (c : CompiledNet F) (pairs : List (Value F)) (named : List (String × Value F))
    (s : Store F) : Outcome (Store F) :=
  if named.any fun p => p.1 == netKeyword then .stopped s (.fault .wrongKind)
  else if pairs.length % 2 = 1 then .stopped s (.inputPairs pairs.length)
  else
    let items := pairUp pairs ++ named.map fun (name, v) => (.text name, v)
    match c.inputWrites items with
    | .error e => .stopped s e
    | .ok writes => s.writeAll writes

theorem setInputs_of_unknown {c : CompiledNet F} {pairs : List (Value F)}
    {named : List (String × Value F)} {s : Store F} {e : Error}
    (h : c.inputWrites (pairUp pairs ++ named.map fun (name, v) => (.text name, v)) = .error e) :
    (c.setInputs pairs named s).state = s := by
  unfold setInputs
  split
  · rfl
  · split
    · rfl
    · simp only [h, Outcome.state_stopped]

end CompiledNet
end SlotGrad
