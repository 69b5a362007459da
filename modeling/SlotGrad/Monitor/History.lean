import SlotGrad.Monitor.Summary
import SlotGrad.Program.Compiled

/-!
# Histories of monitored nodes

A snapshot reads the monitored slots of a net.  A history keeps the latest summaries of each
value, under the node's name, and of each derivative, under the name with a mark before it.

## Main definitions

* `Sample`, `snapshot` — what a monitored node's slots hold.
* `History`, `History.update`, `History.series` — a rolling window of summaries.

## Main results

* `History.length_append_le` — no series is longer than the window.
-/

namespace SlotGrad

/-- What the slots of a monitored node hold. -/
structure Sample (F : Type) where
  /-- The node with its slots. -/
  entry : MonitorEntry
  /-- The value. -/
  value : Value F
  /-- The derivative. -/
  derivative : Value F

/-- What the slots of all monitored nodes hold. -/
def snapshot {F : Type} (c : CompiledNet F) (s : Store F) : Fallible (List (Sample F)) :=
  c.diagnostics.mapM fun e => do return ⟨e, ← s.get e.var, ← s.get e.der⟩

/-- A rolling window of summaries for each monitored value and derivative. -/
structure History (F : Type) where
  /-- How many summaries are kept of each. -/
  capacity : Nat
  /-- The summaries by key, oldest first. -/
  series : List (String × List (Stats F))

namespace History

variable {F : Type}

/-- A history for a positive number of summaries. -/
def create? (capacity : Int) : Attempt (History F) :=
  if capacity < 1 then .error (.historyLength capacity) else .ok ⟨capacity.toNat, []⟩

/-- The last `n` members of a list with one more. -/
def appendWithin {α : Type} (n : Nat) (xs : List α) (x : α) : List α :=
  (xs ++ [x]).drop (xs.length + 1 - n)

theorem length_append_le {α : Type} (n : Nat) (xs : List α) (x : α) :
    (appendWithin n xs x).length ≤ n := by
  simp only [appendWithin, List.length_drop, List.length_append, List.length_singleton]
  omega

/-- Add a summary under a key. -/
def push (h : History F) (key : String) (st : Stats F) : History F :=
  let rec add : List (String × List (Stats F)) → List (String × List (Stats F))
    | [] => [(key, appendWithin h.capacity [] st)]
    | (k, points) :: rest =>
      if k = key then (k, appendWithin h.capacity points st) :: rest else (k, points) :: add rest
  { h with series := add h.series }

/-- The key of a node's derivatives. -/
def derKey (name : String) : String := "d" ++ name

/-- Add the summary of a value under a key. -/
def record [Arith F] [Interchange F] (p : String × Value F) (h : History F) :
    Outcome (History F) :=
  match p.2.summarize with
  | .ok st => .done (h.push p.1 st)
  | .error f => .stopped h (.fault f)

/-- The keys and values that samples are recorded under. -/
def keyed (samples : List (Sample F)) : List (String × Value F) :=
  samples.flatMap fun s => [(s.entry.name, s.value), (derKey s.entry.name, s.derivative)]

/-- Add one summary for each value and each derivative. -/
def update [Arith F] [Interchange F] (samples : List (Sample F)) (h : History F) :
    Outcome (History F) :=
  runAll record (keyed samples) h

/-- The keys, in the order in which they were first used. -/
def names (h : History F) : List String := h.series.map Prod.fst

/-- The summaries of a key, oldest first. -/
def seriesOf (h : History F) (key : String) : Attempt (List (Stats F)) :=
  match h.series.lookup key with
  | some points => .ok points
  | none => .error (.noSeries key)

/-- The history without summaries. -/
def clear (h : History F) : History F := { h with series := [] }

end History
end SlotGrad
