import SlotGrad.Value.Shown
import SlotGrad.Value.Arithmetic

/-!
# Summaries of slot contents

The content of a monitored slot is reduced to its mean, its least and its greatest number.
Anything that can be read as numbers has a summary, texts that write numbers included; where there
is nothing, all three are no number.

## Main definitions

* `Stats` — mean, minimum and maximum.
* `Value.doubles` — the numbers that a value is read as.
* `Value.summarize` — the summary of a value.
-/

namespace SlotGrad

/-- Mean, minimum and maximum of some numbers. -/
structure Stats (F : Type) where
  /-- The mean. -/
  mean : F
  /-- The least number. -/
  least : F
  /-- The greatest number. -/
  greatest : F

section

variable {F : Type} [Arith F]

/-- The element that stands for no number. -/
def Arith.notANumber : F := Arith.div (Arith.ofInt 0) (Arith.ofInt 0)

/-- The summary of nothing. -/
def Stats.empty : Stats F := ⟨Arith.notANumber, Arith.notANumber, Arith.notANumber⟩

/-- The summary of numbers; one that is no number makes minimum and maximum none either. -/
def Stats.ofList (xs : List F) : Stats F :=
  match xs with
  | [] => Stats.empty
  | x :: rest =>
    let sum := (x :: rest).foldl Arith.add (Arith.ofInt 0)
    ⟨Arith.div sum (Arith.ofInt (rest.length + 1)), rest.foldl Arith.minimum x,
      rest.foldl Arith.maximum x⟩

variable [Interchange F]

/-- The number that a text writes. -/
def numberOfText (s : String) : Fallible F :=
  match Numeral.read? s with
  | some bits => .ok (Interchange.ofBits bits.toUInt64)
  | none => .error .badValue

/-- The number that a single value is read as; the absent value is no number. -/
def Value.double (v : Value F) : Fallible F :=
  match v with
  | .none => .ok Arith.notANumber
  | .text s => numberOfText s
  | v =>
    match v.weak? with
    | some w => w.toReal
    | Option.none => .error .wrongKind

/-- The numbers that a value is read as. -/
def Value.doubles (v : Value F) : Fallible (List F) := do
  match ← v.contents with
  | .numbers t => return t.toReals.toList
  | .texts g => g.toList.mapM numberOfText
  | .objects g => g.toList.mapM Value.double

/-- The summary of a value. -/
def Value.summarize (v : Value F) : Fallible (Stats F) :=
  match v with
  | .none => .ok Stats.empty
  | v => do return Stats.ofList (← v.doubles)

end
end SlotGrad
