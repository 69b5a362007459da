import SlotGrad.Error
import SlotGrad.Value.Shown

/-!
# JSON trees

The tree of a JSON text.  Numbers without a fraction or exponent are integers; all others are real.
A tree that is still to be written may hold members that have no written form, among them integers
with too many digits; writing stops at the first of them.

## Main definitions

* `Json` — the trees.
* `Json.Short` — the integers with few enough digits for a written form.
* `Json.value` — a tree as a plain value.
* `Json.field`, `Json.items`, `Json.entries` — checked access to parts.
-/

namespace SlotGrad
namespace Saved

/-- The tree of a JSON text. -/
inductive Json (F : Type) where
  /-- The null value. -/
  | null
  /-- A flag. -/
  | bool (b : Bool)
  /-- A number without fraction or exponent. -/
  | integer (n : Int)
  /-- Any other number. -/
  | real (x : F)
  /-- Text. -/
  | text (s : String)
  /-- An array. -/
  | array (xs : List (Json F))
  /-- An object, in order of its keys' first occurrence. -/
  | object (entries : List (String × Json F))
  /-- A member without a written form. -/
  | refused (e : Error)
  /-- An object whose next key has no written form. -/
  | cut (entries : List (String × Json F)) (e : Error)
  deriving Inhabited

namespace Json

/-- The most decimal digits of an integer that is written or read. -/
def mostDigits : Nat := 4300

/-- The integer has few enough digits for a written form. -/
def Short (n : Int) : Prop := decimalLength n.natAbs ≤ mostDigits

instance (n : Int) : Decidable (Short n) := inferInstanceAs (Decidable (_ ≤ _))

variable {F : Type}

/-- The tree of a natural number. -/
def ofNat (n : Nat) : Json F := integer n

mutual

/-- A tree as a plain value: objects become dictionaries. -/
def value : Json F → Value F
  | null => .none
  | bool b => .flag b
  | integer n => .integer n
  | real x => .real x
  | text s => .text s
  | array xs => .list (values xs)
  | object es => .dict (entryValues es)
  | refused _ => .other
  | cut es _ => .dict (entryValues es)

/-- Trees as plain values. -/
def values : List (Json F) → List (Value F)
  | [] => []
  | x :: xs => value x :: values xs

/-- Entries as keys and plain values. -/
def entryValues : List (String × Json F) → List (Value F × Value F)
  | [] => []
  | (k, x) :: es => (.text k, value x) :: entryValues es

end

/-! ### Access -/

/-- The value of a key.  Only objects have keys. -/
def field (j : Json F) (key : String) : Fallible (Json F) :=
  match j with
  | object es => Fallible.ofOption .missingKey (es.lookup key)
  | _ => .error .wrongKind

/-- The members of an array, the keys of an object, or the characters of a text. -/
def items (j : Json F) : Fallible (List (Json F)) :=
  match j with
  | array xs => .ok xs
  | object es => .ok (es.map fun p => text p.1)
  | text s => .ok (s.toList.map fun c => text (String.singleton c))
  | _ => .error .wrongKind

/-- The keys and values of an object; nothing else has such members. -/
def entries (j : Json F) : Fallible (List (String × Json F)) :=
  match j with
  | object es => .ok es
  | _ => .error .missingMember

/-- A whole number; a flag counts as zero or one. -/
def asInt (j : Json F) : Fallible Int :=
  match j with
  | integer n => .ok n
  | bool b => .ok (if b then 1 else 0)
  | _ => .error .wrongKind

/-- Text. -/
def asText (j : Json F) : Fallible String :=
  match j with
  | text s => .ok s
  | _ => .error .wrongKind

/-- Whether a tree counts as true: it is neither zero nor empty. -/
def isTruthy [Arith F] (j : Json F) : Bool :=
  match j with
  | null => false
  | bool b => b
  | integer n => n != 0
  | real x => !Arith.same x (Arith.ofInt 0)
  | text s => !s.isEmpty
  | array xs => !xs.isEmpty
  | object es => !es.isEmpty
  | _ => true

end Json
end Saved
end SlotGrad
