/-!
# Findings

A check looks at a graph or a compiled net and returns findings.  A finding has a severity; a run
of checks fails when some finding reaches a threshold.

## Main definitions

* `Phase` — what a check looks at.
* `Severity`, `Severity.reaches` — how serious a finding is, and whether that reaches a threshold.
* `Finding`, `Finding.line` — a finding and its line in a report.
-/

namespace SlotGrad

/-- The points of compilation at which checks run. -/
inductive Phase where
  /-- The ordered nodes with their names. -/
  | ordered
  /-- The finished net. -/
  | compiled
  deriving DecidableEq, Repr, Inhabited

/-- The name of a phase in reports. -/
def Phase.name : Phase → String
  | ordered => "POST_ORDER"
  | compiled => "POST_COMPILE"

/-- The phase of a name. -/
def Phase.ofName? (s : String) : Option Phase := [ordered, compiled].find? fun p => p.name == s

/-- How serious a finding is. -/
inductive Severity where
  /-- The net cannot be evaluated correctly. -/
  | error
  /-- Some modes of evaluation will fail. -/
  | warning
  /-- The compiler made a choice the user may want to know of. -/
  | info
  deriving DecidableEq, Repr, Inhabited

namespace Severity

/-- The rank of a severity; a lower rank is more serious. -/
def rank : Severity → Nat
  | error => 0
  | warning => 1
  | info => 2

/-- Whether a severity is at least as serious as a threshold. -/
def reaches (s threshold : Severity) : Bool := s.rank ≤ threshold.rank

@[simp] theorem reaches_self (s : Severity) : s.reaches s = true := by simp [reaches]

@[simp] theorem error_reaches (t : Severity) : error.reaches t = true := by simp [reaches, rank]

/-- The name of a severity in reports. -/
def name : Severity → String
  | error => "ERROR"
  | warning => "WARNING"
  | info => "INFO"

/-- The severity of a name. -/
def ofName? (s : String) : Option Severity := [error, warning, info].find? fun v => v.name == s

end Severity

/-- What a check found. -/
structure Finding where
  /-- The check. -/
  check : String
  /-- How serious it is. -/
  severity : Severity
  /-- What was found. -/
  message : String
  deriving DecidableEq, Repr, Inhabited

/-- The line of a finding in a report. -/
def Finding.line (f : Finding) : String :=
  "[" ++ f.severity.name ++ "] " ++ f.check ++ ": " ++ f.message

/-- The findings that reach a threshold. -/
def Finding.fatal (threshold : Severity) (fs : List Finding) : List Finding :=
  fs.filter fun f => f.severity.reaches threshold

end SlotGrad
