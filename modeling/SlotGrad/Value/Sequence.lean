import SlotGrad.Value.Basic

/-!
# Values as sequences

Values whose members can be walked through in order: texts by character, sequences, dictionaries
by key, and arrays along their first axis.

## Main definitions

* `Value.items` — the members in order.
* `Value.length` — their number.
* `Value.isKey` — whether a value can be a key.
-/

namespace SlotGrad

variable {F : Type} [Arith F]

/-- The parts of a grid along its first axis. -/
def Grid.layersOf {α : Type} [Inhabited α] (g : Grid α) : List (Grid α) :=
  match g.shape with
  | [] => []
  | n :: rest => (List.range n).map fun k => Grid.ofFn rest fun i => g.at (k :: i)

namespace Value

/-- The members of a value, in order.  A value without axes or members is none to walk through. -/
def items (v : Value F) : Fallible (List (Value F)) :=
  match v with
  | text s => .ok (s.toList.map fun c => text (String.singleton c))
  | list xs => .ok xs
  | tuple xs => .ok xs
  | dict es => .ok (es.map Prod.fst)
  | array t =>
    if t.rank = 0 then .error .wrongKind
    else .ok (t.grid.layersOf.map fun g => reduced ⟨t.dtype, g⟩)
  | device t =>
    if t.rank = 0 then .error .wrongKind
    else .ok (t.grid.layersOf.map fun g => device ⟨t.dtype, g⟩)
  | objects s xs =>
    if s = [] then .error .wrongKind
    else .ok ((Grid.ofMembers s xs).layersOf.map fun g => reducedContents (.objects g))
  | _ => .error .wrongKind

mutual

/-- Whether a value can be a key: it holds no sequence that could change. -/
def isKey : Value F → Bool
  | list _ => false
  | dict _ => false
  | slice .. => false
  | array _ => false
  | objects .. => false
  | tuple xs => areKeys xs
  | _ => true

/-- Whether all values of a list can be keys. -/
def areKeys : List (Value F) → Bool
  | [] => true
  | x :: xs => isKey x && areKeys xs

end

/-- The number of members of a value. -/
def length (v : Value F) : Fallible Nat := do return (← v.items).length

end Value
end SlotGrad
