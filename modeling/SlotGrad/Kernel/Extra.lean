import SlotGrad.Error
import SlotGrad.Kernel.Builtin
import SlotGrad.Value.Lookup

/-!
# Extra functions

Functions that no op uses at the outset, for ops that a program registers itself.  Some take
settings as alternating names and values after their operands; some adjoints answer more
derivatives than an op has operands, or none.

## Main definitions

* `Extra`, `Extra.fn` — the functions and the references to them.
* `Extra.setting?` — a setting among alternating names and values.
* `Extra.call` — what they compute.
* `Fn.ofKey?` — the built-in or extra function of a key.
-/

namespace SlotGrad

/-- The extra functions. -/
inductive Extra where
  /-- Product with the setting of a factor. -/
  | scaled
  /-- Its adjoint. -/
  | scaledAdjoint
  /-- Sum with a setting that must be there. -/
  | mix
  /-- Its adjoint: derivatives of the operand and of the second further argument. -/
  | mixAdjoint
  /-- An adjoint with derivatives of the operand and of the third further argument. -/
  | mixFourAdjoint
  /-- Gives up. -/
  | explode
  /-- An adjoint that gives up. -/
  | explodeAdjoint
  /-- Product with a factor, for an op without adjoint. -/
  | scaleAlone
  /-- Half the operand. -/
  | halve
  /-- Its adjoint. -/
  | halveAdjoint
  /-- The operand, under an identifier without the mark of op functions. -/
  | otherIdentity
  /-- A member of the operand. -/
  | pick
  /-- The first argument. -/
  | first
  /-- An adjoint that answers one to four times the derivative. -/
  | manyAdjoint
  /-- Sum of three operands. -/
  | addThree
  /-- An adjoint that answers a list instead of a tuple. -/
  | listAdjoint
  /-- An adjoint that answers nothing. -/
  | noneAdjoint
  /-- The operand and the number of settings. -/
  | config
  /-- Its adjoint. -/
  | configAdjoint
  /-- What the program's own net holds in its first slot. -/
  | reenter
  /-- Three times the operand, by an object that can be called. -/
  | callable
  /-- The operand, under an identifier that is the bare mark of op functions. -/
  | bare
  deriving DecidableEq, Repr, Inhabited

namespace Extra

/-- All extra functions. -/
def all : List Extra :=
  [scaled, scaledAdjoint, mix, mixAdjoint, mixFourAdjoint, explode, explodeAdjoint, scaleAlone,
   halve, halveAdjoint, otherIdentity, pick, first, manyAdjoint, addThree, listAdjoint,
   noneAdjoint, config, configAdjoint, reenter, callable, bare]

/-- The reference to an extra function. -/
def fn : Extra → Fn
  | scaled => .plain "nn_scaled"
  | scaledAdjoint => .plain "scaled_der"
  | mix => .plain "nn_mix"
  | mixAdjoint => .plain "mix_der"
  | mixFourAdjoint => .plain "mix4_der"
  | explode => .plain "nn_explode"
  | explodeAdjoint => .plain "explode_der"
  | scaleAlone => .plain "nn_scale_nograd"
  | halve => .plain "nn_halve"
  | halveAdjoint => .plain "halve_der"
  | otherIdentity => .plain "other_relu"
  | pick => .plain "nn_pick"
  | first => .plain "nn_first"
  | manyAdjoint => .plain "many_der"
  | addThree => .plain "nn_add3"
  | listAdjoint => .plain "list_der"
  | noneAdjoint => .plain "none_der"
  | config => .plain "nn_config"
  | configAdjoint => .plain "config_der"
  | reenter => .plain "nn_reenter"
  | callable => ⟨"caller", "nn_Caller", "<nn_Caller object>"⟩
  | bare => ⟨"_bare", "nn_", "<function nn_>"⟩

/-- The extra function under a key. -/
def ofKey? (key : String) : Option Extra := all.find? fun e => e.fn.key == key

variable {F : Type} [Arith F]

/-- The setting of a name among alternating names and values; of several the last one counts, and a
name without a value is left out. -/
def setting? (name : String) : List (Value F) → Fallible (Option (Value F))
  | k :: v :: rest => do
    if !k.isKey then throw .wrongKind
    let later ← setting? name rest
    return later <|> (if k.sameKey (.text name) then some v else none)
  | _ => return none

/-- The operand, the derivative and the settings of an adjoint. -/
def adjointParts (a : Arguments F) : Fallible (Value F × Value F × List (Value F)) := do
  if a.named.any fun p => p.1 != "x" && p.1 != "dy" then throw .wrongKind
  return (← a.lookup 0 "x", ← a.lookup 1 "dy", a.positional.drop 2)

/-- The product with the setting of a factor, which is one unless it is given. -/
def timesFactor (x : Value F) (settings : List (Value F)) : Fallible (Value F) := do
  x.mul ((← setting? "factor" settings).getD (.real (Arith.ofInt 1)))

/-- The last of some arguments. -/
def lastOf (a : Arguments F) : Fallible (Value F) := do
  Fallible.ofOption .outOfRange (← a.unnamed).getLast?

/-- The number of arguments by name that are no parameters. -/
def spareNames (a : Arguments F) (parameters : List String) : Nat :=
  (a.named.filter fun p => !parameters.contains p.1).length

/-- What an extra function computes; `stored` is what the program's own net holds in its first
slot. -/
def call (e : Extra) (stored : Attempt (Value F)) (a : Arguments F) : Attempt (Value F) :=
  match e with
  | scaled => do
    let (x, settings) ← a.headed "x"
    timesFactor x settings
  | scaledAdjoint => do
    let (_, dy, settings) ← adjointParts a
    timesFactor dy settings
  | mix => do
    let (x, settings) ← a.headed "x"
    let addend ← Fallible.ofOption .missingKey (← setting? "with" settings)
    x.add addend
  | mixAdjoint => do
    let (_, dy, _) ← adjointParts a
    return .tuple [dy, .none, dy]
  | mixFourAdjoint => do
    let (_, dy, _) ← adjointParts a
    return .tuple [dy, .none, .none, dy]
  | explode => do a.call1 "x" fun _ => throw .callee
  | explodeAdjoint => do
    let _ ← a.unnamed
    throw (.fault .callee)
  | scaleAlone => do a.call2 "x" "factor" Value.mul
  | halve => do a.call1 "x" fun x => x.div (.integer 2)
  | halveAdjoint => do a.call2 "x" "dy" fun _ dy => dy.div (.integer 2)
  | otherIdentity => do a.call1 "x" .ok
  | pick => do a.call2 "x" "index" Value.member
  | first => do Fallible.ofOption .outOfRange (← a.unnamed).head?
  | manyAdjoint => do
    let dy ← lastOf a
    return .tuple (← [1, 2, 3, 4].mapM fun k => dy.mul (.integer k))
  | addThree => do a.call3 "a" "b" "c" fun x y z => do (← x.add y).add z
  | listAdjoint => do
    let dy ← lastOf a
    return .list [dy, dy]
  | noneAdjoint => do
    let _ ← a.unnamed
    return .none
  | config => do
    let x ← a.lookup 0 "x"
    let settings : Nat := a.positional.length - 1
    (← x.add (.integer settings)).add (.integer (10 * spareNames a ["x"] : Nat))
  | configAdjoint => do
    let _ ← a.lookup 0 "x"
    let dy ← a.lookup 1 "dy"
    let settings : Nat := a.positional.length - 2
    dy.mul (.integer (1 + settings + 10 * spareNames a ["x", "dy"] : Nat))
  | reenter => do
    let _ ← a.bind ["x"]
    stored
  | callable => do a.call1 "x" fun x => x.mul (.integer 3)
  | bare => do a.call1 "x" .ok

end Extra

/-- The built-in or extra function of a key. -/
def Fn.ofKey? (key : String) : Option Fn :=
  (Extra.all.map Extra.fn ++ Builtin.all.flatMap fun b => [b.forward, b.adjoint]).find? fun f =>
    f.key == key

end SlotGrad
