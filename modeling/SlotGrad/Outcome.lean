import SlotGrad.Error

/-!
# Outcomes

A run that fails keeps what it did before.  An outcome is the state after a run together with the
error that stopped it, if one did.

## Main definitions

* `Outcome` — a state and perhaps an error.
* `Outcome.andThen` — go on unless an error stopped the run.
* `runAll` — one step for each member of a list, from the first to the last.

## Main results

* `runAll_append` — a run over two lists one after another.
* `runAll_invariant` — what every step keeps, a run keeps, also when it fails.
-/

namespace SlotGrad

/-- The state after a run, and the error that stopped it. -/
structure Outcome (σ : Type) where
  /-- The state after the run. -/
  state : σ
  /-- The error that stopped it. -/
  error : Option Error

namespace Outcome

variable {σ τ : Type}

/-- A run that was not stopped. -/
def done (s : σ) : Outcome σ := ⟨s, none⟩

/-- A run that an error stopped. -/
def stopped (s : σ) (e : Error) : Outcome σ := ⟨s, some e⟩

@[simp] theorem state_done (s : σ) : (done s).state = s := rfl
@[simp] theorem error_done (s : σ) : (done s).error = none := rfl
@[simp] theorem state_stopped (s : σ) (e : Error) : (stopped s e).state = s := rfl
@[simp] theorem error_stopped (s : σ) (e : Error) : (stopped s e).error = some e := rfl

/-- Go on from the state unless an error stopped the run. -/
def andThen (o : Outcome σ) (f : σ → Outcome σ) : Outcome σ :=
  match o.error with
  | none => f o.state
  | some _ => o

@[simp] theorem done_andThen (s : σ) (f : σ → Outcome σ) : (done s).andThen f = f s := rfl

@[simp] theorem stopped_andThen (s : σ) (e : Error) (f : σ → Outcome σ) :
    (stopped s e).andThen f = stopped s e := rfl

theorem andThen_assoc (o : Outcome σ) (f g : σ → Outcome σ) :
    (o.andThen f).andThen g = o.andThen fun s => (f s).andThen g := by
  obtain ⟨s, e⟩ := o
  cases e <;> rfl

/-- A change of state that may be refused; a refused one leaves the state alone. -/
def attempt (s : σ) (x : Attempt σ) : Outcome σ :=
  match x with
  | .ok t => done t
  | .error e => stopped s e

@[simp] theorem attempt_ok (s t : σ) : attempt s (.ok t) = done t := rfl

@[simp] theorem attempt_error (s : σ) (e : Error) : attempt s (.error e) = stopped s e := rfl

/-- The outcome under a function of the state. -/
def map (f : σ → τ) (o : Outcome σ) : Outcome τ := ⟨f o.state, o.error⟩

end Outcome

/-- One step for each member of a list, until an error stops the run. -/
def runAll {α σ : Type} (step : α → σ → Outcome σ) : List α → σ → Outcome σ
  | [], s => .done s
  | a :: as, s => (step a s).andThen (runAll step as)

section

variable {α σ : Type} {step : α → σ → Outcome σ}

@[simp] theorem runAll_nil (s : σ) : runAll step [] s = .done s := rfl

@[simp] theorem runAll_cons (a : α) (as : List α) (s : σ) :
    runAll step (a :: as) s = (step a s).andThen (runAll step as) := rfl

theorem runAll_append (as bs : List α) (s : σ) :
    runAll step (as ++ bs) s = (runAll step as s).andThen (runAll step bs) := by
  induction as generalizing s with
  | nil => rfl
  | cons a as ih =>
    simp only [List.cons_append, runAll_cons, Outcome.andThen_assoc]
    congr 1
    funext t
    exact ih t

/-- What every step keeps, a run keeps, also when an error stops it. -/
theorem runAll_invariant {P : σ → Prop} (as : List α)
    (h : ∀ a ∈ as, ∀ s, P s → P (step a s).state) (s : σ) (hs : P s) :
    P (runAll step as s).state := by
  induction as generalizing s with
  | nil => exact hs
  | cons a as ih =>
    have ha := h a (by simp) s hs
    simp only [runAll_cons, Outcome.andThen]
    split
    · exact ih (fun b hb => h b (by simp [hb])) _ ha
    · exact ha

end

end SlotGrad
