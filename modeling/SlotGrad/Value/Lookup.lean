import SlotGrad.Value.Index
import SlotGrad.Value.Sequence

/-!
# Looking up members

Sequences are looked up by place or by a run of places, dictionaries by key.  Keys are the same if
they are equal numbers, of whatever kind, or equal texts.

## Main definitions

* `Value.sameKey` — whether two keys are the same.
* `Value.putKey` — a dictionary with one more entry.
* `Value.member` — the member of a value at an index.
* `Value.withMember` — a value with another member at an index.
-/

namespace SlotGrad
namespace Value

variable {F : Type} [Arith F]

mutual

/-- Whether two keys are the same. -/
def sameKey : Value F → Value F → Bool
  | text s, text t => s == t
  | none, none => true
  | tuple xs, tuple ys => sameKeys xs ys
  | a, b =>
    match a.weak?, b.weak? with
    | some v, some w =>
      match v.toInt?, w.toInt?, v.toReal, w.toReal with
      | some m, some n, _, _ => m == n
      | _, _, .ok x, .ok y => Arith.same x y
      | _, _, _, _ => false
    | _, _ => false

/-- Whether two lists of keys are the same. -/
def sameKeys : List (Value F) → List (Value F) → Bool
  | [], [] => true
  | x :: xs, y :: ys => sameKey x y && sameKeys xs ys
  | _, _ => false

end

/-- The entries of a dictionary with another value for a key: in the place of the entry of the same
key, or after all others. -/
def putKey (entries : List (Value F × Value F)) (key v : Value F) : List (Value F × Value F) :=
  if entries.any fun e => sameKey e.1 key then
    entries.map fun e => if sameKey e.1 key then (e.1, v) else e
  else entries ++ [(key, v)]

/-- The value of a key. -/
def findKey? (entries : List (Value F × Value F)) (key : Value F) : Option (Value F) :=
  (entries.find? fun e => sameKey e.1 key).map Prod.snd

/-- The place that an index names among the members of a sequence. -/
def place (size : Nat) (index : Value F) : Fallible Nat := do
  Fallible.ofOption .outOfRange (Shape.axis? size (← index.asPlace))

/-- The member of a list at the place that an index names. -/
def nth {α : Type} (xs : List α) (index : Value F) : Fallible α := do
  Fallible.ofOption .outOfRange xs[← place xs.length index]?

/-- The members of a list at the places of a run. -/
def runOf {α : Type} (xs : List α) (r : Run) : List α :=
  (List.range r.count).filterMap fun (k : Nat) => xs[(r.start + k * r.step).toNat]?

/-- The member of a list at a place, or its members at a run of places as made into one value. -/
def memberOf (xs : List (Value F)) (build : List (Value F) → Value F) (index : Value F) :
    Fallible (Value F) := do
  match index with
  | slice a b c =>
    return build (runOf xs (← Run.resolve xs.length (← a.bound) (← b.bound) (← c.bound)))
  | v => nth xs v

/-- Texts joined to one. -/
def joined (parts : List (Value F)) : Value F :=
  text (String.join (parts.map fun
    | text s => s
    | _ => ""))

/-- The member of a value at an index: at a place or a run of places of a sequence, for a key of a
dictionary, or the part of an array. -/
def member (v index : Value F) : Fallible (Value F) :=
  match v with
  | list xs => memberOf xs list index
  | tuple xs => memberOf xs tuple index
  | text s => memberOf (s.toList.map fun c => text (String.singleton c)) joined index
  | dict es =>
    if index.isKey then Fallible.ofOption .missingKey (findKey? es index) else .error .wrongKind
  | array _ => v.getAt index
  | scalar .. => v.getAt index
  | objects .. => v.getAt index
  | device t => do
    match ← (array t).getAt index with
    | array part => return device part
    | part => return part
  | _ => .error .wrongKind

/-- A list or dictionary with another member at an index. -/
def withMember (v index new : Value F) : Fallible (Value F) :=
  match v with
  | list xs => do return list (xs.set (← place xs.length index) new)
  | dict es => if index.isKey then .ok (dict (putKey es index new)) else .error .wrongKind
  | _ => .error .wrongKind

end Value
end SlotGrad
