import SlotGrad.Error
import SlotGrad.Value.Shown

/-!
# Modes of evaluation

A net is evaluated in one of three modes: the forward stream alone, the forward and then the
backward stream, or the stream of inference mode alone.

## Main definitions

* `Mode`, `Mode.name` — the modes and their names.
* `Mode.parse` — the mode that a value names.
-/

namespace SlotGrad

/-- The modes of evaluation. -/
inductive Mode where
  /-- The forward stream. -/
  | forward
  /-- The forward stream and then the backward stream. -/
  | normal
  /-- The stream of inference mode. -/
  | inference
  deriving DecidableEq, Repr, Inhabited

namespace Mode

/-- The name of a mode. -/
def name : Mode → String
  | forward => "forward"
  | normal => "normal"
  | inference => "inference"

/-- All modes. -/
def all : List Mode := [forward, normal, inference]

/-- The mode of a name. -/
def ofName? (s : String) : Option Mode := all.find? fun m => m.name == s

@[simp] theorem ofName?_name (m : Mode) : ofName? m.name = some m := by
  cases m <;> decide

variable {F : Type} [Arith F] [Interchange F]

/-- The mode that a value names. -/
def parse (v : Value F) : Attempt Mode :=
  match v with
  | .text s =>
    match ofName? s with
    | some m => .ok m
    | none => .error (.unknownMode s)
  | v => .error (.unknownMode v.plain)

end Mode
end SlotGrad
