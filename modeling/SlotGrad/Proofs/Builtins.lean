import SlotGrad.Kernel.Builtin
import SlotGrad.Run.Engine

/-!
# Running the built-in ops

What functions compute is given to the engine from outside.  Programs add functions of their own,
but none of them stands under the key of a built-in function.

## Main definitions

* `RunsBuiltins` — an interpretation under which the built-in functions are the built-in ones.
* `builtinCalls` — the interpretation that knows no other function.

## Main results

* `RunsBuiltins.forward`, `RunsBuiltins.adjoint` — what the functions of a built-in op compute.
-/

namespace SlotGrad

variable {F : Type} [Arith F]

/-- An interpretation under which the built-in functions compute what they do. -/
def RunsBuiltins (call : Calls F) : Prop :=
  ∀ f g, Builtin.call? f = some g → ∀ a, call f a = (g a).lift

/-- The interpretation that knows the built-in functions only. -/
def builtinCalls : Calls F := fun f a =>
  match Builtin.call? f with
  | some g => (g a).lift
  | none => .error (.fault .wrongKind)

theorem runsBuiltins_builtinCalls : RunsBuiltins (builtinCalls : Calls F) := by
  intro f g hf a
  unfold builtinCalls
  rw [hf]

/-- The forward keys differ, and no forward key is the key of an adjoint. -/
theorem Builtin.call?_forward (b : Builtin) :
    Builtin.call? (F := F) b.forward = some b.forwardCall := by
  have hfind : all.find? (fun c => c.forward.key == b.forward.key) = some b := by
    cases b <;> decide +kernel
  unfold call?
  rw [hfind]

theorem Builtin.call?_adjoint (b : Builtin) :
    Builtin.call? (F := F) b.adjoint = some b.adjointCall := by
  have hforward : all.find? (fun c => c.forward.key == b.adjoint.key) = none := by
    cases b <;> decide +kernel
  have hadjoint : all.find? (fun c => c.adjoint.key == b.adjoint.key) = some b := by
    cases b <;> decide +kernel
  unfold call?
  rw [hforward, hadjoint]
  rfl

theorem RunsBuiltins.forward {call : Calls F} (h : RunsBuiltins call) (b : Builtin)
    (a : Arguments F) : call b.op.forward a = (b.forwardCall a).lift :=
  h _ _ (Builtin.call?_forward b) a

theorem RunsBuiltins.adjoint {call : Calls F} (h : RunsBuiltins call) (b : Builtin)
    (a : Arguments F) : call b.adjoint a = (b.adjointCall a).lift :=
  h _ _ (Builtin.call?_adjoint b) a

end SlotGrad
