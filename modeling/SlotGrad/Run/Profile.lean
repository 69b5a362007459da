import SlotGrad.Number.Numeral
import SlotGrad.Value.Shown
import SlotGrad.Value.Arithmetic

/-!
# Profiles

While a net is evaluated, a profile may record every completed instruction.  A report groups timed
entries by op and stage, the longest first.

## Main definitions

* `Stage`, `Entry` — the stages of a run, and a completed instruction.
* `Timing`, `Profile` — an entry with its time, and a run's timings with the total time.
* `Profile.report` — the report of a profile.
-/

namespace SlotGrad

/-- The stages of a run. -/
inductive Stage where
  /-- The forward stream. -/
  | forward
  /-- The backward stream. -/
  | backward
  /-- The stream of inference mode. -/
  | inference
  deriving DecidableEq, Repr, Inhabited

/-- The name of a stage. -/
def Stage.name : Stage → String
  | forward => "forward"
  | backward => "backward"
  | inference => "inference"

/-- A completed instruction. -/
structure Entry where
  /-- Its place in the stream. -/
  index : Nat
  /-- The layer's name. -/
  name : String
  /-- The op's name. -/
  op : String
  /-- The stage. -/
  stage : Stage
  deriving DecidableEq, Repr, Inhabited

/-- A group of a report, by op and stage, and the time of one instruction in nanoseconds. -/
structure Timing where
  /-- The op's name. -/
  op : String
  /-- The stage's name. -/
  stage : String
  /-- The time in nanoseconds. -/
  time : Int
  deriving DecidableEq, Repr, Inhabited

/-- The timings of a run. -/
structure Profile where
  /-- The timed instructions. -/
  timings : List Timing
  /-- The total time in nanoseconds. -/
  total : Int
  deriving Inhabited

namespace Profile

/-- A line of a report: how often a group ran and how long. -/
structure Group where
  /-- The op and the stage. -/
  title : String
  /-- The time of all instructions of the group. -/
  time : Int
  /-- Their number. -/
  count : Nat

/-- The title of the group that a timing belongs to. -/
def title (t : Timing) : String := t.op ++ " (" ++ t.stage ++ ")"

/-- Add a timing to its group. -/
def addTiming (t : Timing) : List Group → List Group
  | [] => [⟨title t, t.time, 1⟩]
  | g :: gs =>
    if g.title = title t then ⟨g.title, g.time + t.time, g.count + 1⟩ :: gs
    else g :: addTiming t gs

/-- The groups of a profile, longest first; groups of one length stay in their order. -/
def groups (p : Profile) : List Group :=
  (p.timings.foldl (fun gs t => addTiming t gs) []).mergeSort fun a b => b.time ≤ a.time

section

variable (F : Type) [Arith F] [Interchange F]

/-- Nanoseconds as milliseconds with two places. -/
def milliseconds (time : Int) : Fallible String := do
  let x : F ← Weak.realOfInt time
  return Numeral.fixed 2 (pattern (Arith.div x (Arith.ofInt 1000000)))

/-- The part of the total time in percent with one place; nothing of no time. -/
def percentage (time total : Int) : Fallible String := do
  if total ≤ 0 then return "0.0"
  match ← (Weak.quotient time total : Fallible (Value F)) with
  | .real x => return Numeral.fixed 1 (pattern (Arith.mul x (Arith.ofInt 100)))
  | _ => throw .wrongKind

/-- The line of a group. -/
def groupLine (total : Int) (g : Group) : Fallible String := do
  let ms ← milliseconds F g.time
  let part ← percentage F g.time total
  return "  " ++ Numeral.padRight 28 g.title ++ " " ++ Numeral.padLeft 7 ms ++ " ms ("
    ++ Numeral.padLeft 5 part ++ "%)  " ++ toString g.count ++ " ops"

/-- The report of a profile. -/
def report (p : Profile) : Fallible String := do
  let total := "Execution Profile:\n  Total: " ++ (← milliseconds F p.total) ++ " ms ("
  if p.timings.isEmpty then return total ++ "no per-op breakdown)"
  let lines ← p.groups.mapM (groupLine F p.total)
  return "\n".intercalate ((total ++ toString p.timings.length ++ " ops)") :: lines)

end

end Profile
end SlotGrad
