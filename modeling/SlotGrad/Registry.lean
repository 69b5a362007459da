import SlotGrad.Error
import SlotGrad.Kernel.Builtin
import SlotGrad.Text.Quoted

/-!
# The op registry

Ops are registered under a name, and found by name or by their forward function.  Registering the
same forward function under its name again replaces the op; a name never changes its forward
function.

## Main definitions

* `Registry` — the registered ops, in the order in which their names were first used.
* `Registry.register` — register a forward function with its adjoint.
* `Registry.resolve` — the op that a value refers to.
* `Registry.builtin` — the registry of the built-in ops.

## Main results

* `Registry.find?_put` — the op that was put is found under its name.
-/

namespace SlotGrad

/-- The registered ops. -/
structure Registry where
  /-- The ops, in the order in which their names were first used. -/
  ops : List Op
  /-- The stamp of the next registration. -/
  next : Nat
  /-- No name is used twice. -/
  nodup : (ops.map Op.name).Nodup

namespace Registry

/-- The registry without ops. -/
def empty : Registry := ⟨[], 0, by simp⟩

/-- The op of a name. -/
def find? (r : Registry) (name : String) : Option Op := r.ops.find? fun o => o.name == name

/-- The first op with a given forward function. -/
def findForward? (r : Registry) (f : Fn) : Option Op := r.ops.find? fun o => o.forward == f

/-- The op in the place of the one of its name, or after all others. -/
def replace (op : Op) : List Op → List Op
  | [] => [op]
  | o :: os => if o.name = op.name then op :: os else o :: replace op os

/-- The names stay as they are, or the new one is added at the end. -/
theorem map_name_replace (op : Op) (os : List Op) :
    (replace op os).map Op.name =
      if op.name ∈ os.map Op.name then os.map Op.name else os.map Op.name ++ [op.name] := by
  induction os with
  | nil => simp [replace]
  | cons o os ih =>
    by_cases h : o.name = op.name
    · simp [replace, h]
    · by_cases hm : op.name ∈ os.map Op.name
      · simp_all [replace]
      · have h' : ¬op.name = o.name := fun e => h e.symm
        simp_all [replace]

theorem nodup_replace {op : Op} {os : List Op} (h : (os.map Op.name).Nodup) :
    ((replace op os).map Op.name).Nodup := by
  rw [map_name_replace]
  split
  · exact h
  · rename_i hm
    rw [List.nodup_append]
    refine ⟨h, by simp, ?_⟩
    intro a ha b hb
    simp only [List.mem_singleton] at hb
    subst hb
    exact fun e => hm (e ▸ ha)

/-- The registry with an op in the place of its name, stamped. -/
def put (r : Registry) (op : Op) : Registry :=
  ⟨replace op r.ops, r.next + 1, nodup_replace r.nodup⟩

theorem find?_replace (op : Op) (os : List Op) (name : String) :
    (replace op os).find? (fun o => o.name == name) =
      if op.name = name then some op else os.find? fun o => o.name == name := by
  induction os with
  | nil => by_cases h : op.name = name <;> simp [replace, h]
  | cons o os ih =>
    by_cases h : o.name = op.name
    · by_cases hn : op.name = name
      · simp [replace, h, hn]
      · simp [replace, h, hn]
    · by_cases hn : op.name = name
      · have : ¬o.name = name := fun e => h (e.trans hn.symm)
        simp_all [replace]
      · simp only [replace, h, if_false, List.find?_cons, ih, hn]

/-- After a put, the name finds the new op, and every other name what it found before. -/
@[simp] theorem find?_put (r : Registry) (op : Op) (name : String) :
    (r.put op).find? name = if op.name = name then some op else r.find? name :=
  find?_replace op r.ops name

/-- Register a forward function with its adjoint, under the given name or the one that the
function suggests.  A name that belongs to another forward function is refused. -/
def register (r : Registry) (forward : Fn) (adjoint : Option Fn) (name : Option String)
    (scatter : Bool) : Attempt (Op × Registry) :=
  let name := match name with
    | some n => if n.isEmpty then forward.opName else n
    | none => forward.opName
  let op : Op := ⟨name, forward, adjoint, scatter, r.next⟩
  match r.find? name with
  | some o =>
    if o.forward = forward then .ok (op, r.put op)
    else .error (.opNameTaken name o.forward.shown)
  | none => .ok (op, r.put op)

/-- The op that a value refers to: the op itself, one of that name, or the first one with that
forward function. -/
def resolve {F : Type} (r : Registry) (v : Value F) : Attempt Op :=
  match v with
  | .op o => .ok o
  | .text s =>
    match r.find? s with
    | some o => .ok o
    | none => .error (.unknownOp s)
  | .function f =>
    match r.findForward? f with
    | some o => .ok o
    | none => .error (.unregisteredFunction (Text.quoted f.opName))
  | v => .error (.unresolvableOp v.kindName)

/-- The registry of the built-in ops. -/
def builtin : Registry := Builtin.all.foldl (fun r b => r.put b.op) empty

end Registry
end SlotGrad
