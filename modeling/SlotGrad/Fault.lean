/-!
# Faults of primitive operations

A primitive operation on values (an operator, an array kernel, a lookup) that cannot answer says
only which rule its operands broke.  Errors that carry a sentence for the user are the library's
own and live in `SlotGrad.Error`; a fault becomes one of them unchanged.

## Main definitions

* `Fault` — the rules an operand can break.
* `Fallible` — a computation that may end in a fault.
-/

namespace SlotGrad

/-- The rule that the operands of a primitive operation broke. -/
inductive Fault where
  /-- An operand is of a kind the operation has no meaning for. -/
  | wrongKind
  /-- The operands are of the right kind but outside the operation's domain. -/
  | badValue
  /-- A position lies outside the sequence, store or array it addresses. -/
  | outOfRange
  /-- A keyed lookup found nothing. -/
  | missingKey
  /-- A number was divided by an exact zero. -/
  | divisionByZero
  /-- A number does not fit the number system it was sent to. -/
  | overflow
  /-- An answer is too long to be held. -/
  | outOfMemory
  /-- The value has no such member. -/
  | missingMember
  /-- No file lies at the given place. -/
  | missingFile
  /-- A directory was expected where a file lies. -/
  | notDirectory
  /-- A file was expected where a directory lies. -/
  | isDirectory
  /-- A file name or a path is longer than it can be. -/
  | nameTooLong
  /-- A user-supplied function gave up. -/
  | callee
  deriving DecidableEq, Repr, Inhabited

/-- A computation that answers or names the rule its operands broke. -/
abbrev Fallible (α : Type) := Except Fault α

/-- The answer of an optional computation, or the given fault when there is none. -/
def Fallible.ofOption {α : Type} (f : Fault) : Option α → Fallible α
  | some a => .ok a
  | none => .error f

@[simp] theorem Fallible.ofOption_some {α : Type} (f : Fault) (a : α) :
    Fallible.ofOption f (some a) = .ok a := rfl

@[simp] theorem Fallible.ofOption_none {α : Type} (f : Fault) :
    Fallible.ofOption f (none : Option α) = .error f := rfl

end SlotGrad
