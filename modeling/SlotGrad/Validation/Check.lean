import SlotGrad.Graph.Naming
import SlotGrad.Program.Compiled

/-!
# Checks

A check looks at the ordered nodes or at the compiled net and returns findings.  Checks are
registered under distinct names and run in the order of registration.

## Main definitions

* `Listing` — the ordered nodes with the names they compile under.
* `Check`, `Check.phase` — a check and the phase it belongs to.
* `Checks.register` — add a check under a new name.
* `judge` — fail if some finding reaches a threshold.
-/

namespace SlotGrad

/-- The ordered nodes, the names they compile under, and the metadata given for all of them. -/
structure Listing (F : Type) where
  /-- The nodes in order. -/
  nodes : List (Node F)
  /-- Their names. -/
  names : List String
  /-- The metadata given beside the nodes' own. -/
  «meta» : Value F

/-- The nodes of a listing with their names. -/
def Listing.named {F : Type} (l : Listing F) : List (Node F × String) := l.nodes.zip l.names

/-- What a check looks at, and what it finds there. -/
inductive Check.Body (F : Type) where
  /-- A check of the ordered nodes. -/
  | ordered (find : Listing F → Fallible (List Finding))
  /-- A check of the compiled net. -/
  | compiled (find : CompiledNet F → Fallible (List Finding))

/-- A named check. -/
structure Check (F : Type) where
  /-- The name. -/
  name : String
  /-- What it looks at and finds. -/
  body : Check.Body F

namespace Check

variable {F : Type}

/-- The phase that a check belongs to. -/
def phase (c : Check F) : Phase :=
  match c.body with
  | .ordered _ => .ordered
  | .compiled _ => .compiled

/-- A check that finds the same everywhere. -/
def constant (name : String) (phase : Phase) (findings : List (Severity × String)) : Check F :=
  let found := findings.map fun (s, m) => (⟨name, s, m⟩ : Finding)
  match phase with
  | .ordered => ⟨name, .ordered fun _ => .ok found⟩
  | .compiled => ⟨name, .compiled fun _ => .ok found⟩

/-- The findings of a check on ordered nodes; none if it looks at something else. -/
def onListing (l : Listing F) (c : Check F) : Fallible (List Finding) :=
  match c.body with
  | .ordered find => find l
  | .compiled _ => .ok []

/-- The findings of a check on a compiled net; none if it looks at something else. -/
def onNet (n : CompiledNet F) (c : Check F) : Fallible (List Finding) :=
  match c.body with
  | .ordered _ => .ok []
  | .compiled find => find n

end Check

/-- The registered checks, in the order of registration. -/
abbrev Checks (F : Type) := List (Check F)

namespace Checks

variable {F : Type}

/-- Add a check under a name that is not yet used. -/
def register (cs : Checks F) (c : Check F) : Attempt (Checks F) :=
  if cs.any fun d => d.name == c.name then .error (.checkNameTaken c.name) else .ok (cs ++ [c])

/-- The names of the checks of a phase. -/
def namesOf (cs : Checks F) (phase : Phase) : List String :=
  (cs.filter fun c => c.phase = phase).map Check.name

/-- All findings on ordered nodes. -/
def findOnListing (cs : Checks F) (l : Listing F) : Fallible (List Finding) := do
  return (← cs.mapM (Check.onListing l)).flatten

/-- All findings on a compiled net. -/
def findOnNet (cs : Checks F) (n : CompiledNet F) : Fallible (List Finding) := do
  return (← cs.mapM (Check.onNet n)).flatten

end Checks

/-- Fail if there is a threshold and some finding reaches it. -/
def judge (phase : Phase) (threshold : Option Severity) (findings : List Finding) :
    Attempt (List Finding) :=
  match threshold with
  | none => .ok findings
  | some t =>
    if findings.any fun f => f.severity.reaches t then .error (.validation phase findings t)
    else .ok findings

namespace Checks

variable {F : Type}

/-- Run the checks on ordered nodes and fail if some finding reaches the threshold. -/
def runOnListing (cs : Checks F) (threshold : Option Severity) (l : Listing F) :
    Attempt (List Finding) := do
  judge .ordered threshold (← cs.findOnListing l)

/-- Run the checks on a compiled net and fail if some finding reaches the threshold. -/
def runOnNet (cs : Checks F) (threshold : Option Severity) (n : CompiledNet F) :
    Attempt (List Finding) := do
  judge .compiled threshold (← cs.findOnNet n)

end Checks
end SlotGrad
