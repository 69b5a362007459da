import Mathlib.Data.List.Forall2
import SlotGrad.Outcome

/-!
# Completed computations

A computation that may fail is taken apart here once and for all: what its steps answered if it
completed, and which of them failed if it did not, one lemma for each way of putting computations
together.  Runs over a list of steps are treated in the same way: a completed run went through a
completed run of every initial part, and a stopped one was stopped by a step.

## Main results

* `bind_eq_ok` — a sequence of two computations completes if both do.
* `bind_eq_error` — it fails where one of them does.
* `mapM_eq_ok` — a computation on every member of a list completes if all of them do.
* `foldlM_eq_map` — accumulations whose steps correspond, errors included, correspond.
* `runAll_error` — an error of a run is the error of one of its steps.
* `runAll_append_completed` — a completed run over two lists is two completed runs.
-/

namespace SlotGrad

/-! ### Computations -/

section

variable {ε α β γ : Type}

theorem ok_bind (a : α) (f : α → Except ε β) : (.ok a : Except ε α) >>= f = f a := rfl

theorem bind_eq_ok {x : Except ε α} {f : α → Except ε β} {b : β} :
    x >>= f = .ok b ↔ ∃ a, x = .ok a ∧ f a = .ok b := by
  cases x with
  | error e =>
    constructor
    · intro h
      cases h
    · rintro ⟨a, ha, -⟩
      cases ha
  | ok a =>
    constructor
    · intro h
      exact ⟨a, rfl, h⟩
    · rintro ⟨a', ha, hf⟩
      cases ha
      exact hf

/-- A sequence of two computations fails where one of them does. -/
theorem bind_eq_error {x : Except ε α} {f : α → Except ε β} {e : ε} :
    x >>= f = .error e ↔ x = .error e ∨ ∃ a, x = .ok a ∧ f a = .error e := by
  cases x with
  | error e' =>
    constructor
    · intro h
      cases h
      exact .inl rfl
    · rintro (h | ⟨a, ha, -⟩)
      · cases h
        rfl
      · cases ha
  | ok a =>
    constructor
    · intro h
      exact .inr ⟨a, rfl, h⟩
    · rintro (h | ⟨a', ha, h⟩)
      · cases h
      · cases ha
        exact h

/-- A computation that succeeds has an answer. -/
theorem exists_of_isOk {x : Except ε α} (h : x.isOk = true) : ∃ a, x = .ok a := by
  cases x with
  | error e => cases h
  | ok a => exact ⟨a, rfl⟩

theorem pure_eq_ok {a b : α} : (pure a : Except ε α) = .ok b ↔ a = b := by
  constructor
  · intro h
    cases h
    rfl
  · intro h
    rw [h]
    rfl

@[simp] theorem throw_ne_ok {e : ε} {a : α} : (throw e : Except ε α) = .ok a ↔ False := by
  constructor
  · intro h
    cases h
  · intro h
    exact h.elim

/-- A computation followed by a function of its answer. -/
theorem map_eq_ok {x : Except ε α} {f : α → β} {b : β} :
    f <$> x = .ok b ↔ ∃ a, x = .ok a ∧ f a = b := by
  cases x with
  | error e =>
    constructor
    · intro h
      cases h
    · rintro ⟨a, ha, -⟩
      cases ha
  | ok a =>
    constructor
    · intro h
      cases h
      exact ⟨a, rfl, rfl⟩
    · rintro ⟨a', ha, hf⟩
      cases ha
      rw [← hf]
      rfl

/-- A computation on every member completes if all of them do. -/
theorem mapM_eq_ok {f : α → Except ε β} :
    ∀ {as : List α} {bs : List β},
      as.mapM f = .ok bs ↔ List.Forall₂ (fun a b => f a = .ok b) as bs := by
  intro as
  induction as with
  | nil =>
    intro bs
    rw [List.mapM_nil, pure_eq_ok, List.forall₂_nil_left_iff]
    exact eq_comm
  | cons a as ih =>
    intro bs
    rw [List.mapM_cons, bind_eq_ok, List.forall₂_cons_left_iff]
    constructor
    · rintro ⟨b, hb, h⟩
      obtain ⟨bs', hbs, h⟩ := bind_eq_ok.mp h
      exact ⟨b, bs', hb, ih.mp hbs, (pure_eq_ok.mp h).symm⟩
    · rintro ⟨b, bs', hb, hbs, rfl⟩
      exact ⟨b, hb, bind_eq_ok.mpr ⟨bs', ih.mpr hbs, rfl⟩⟩

/-- A computation on every member whose answers are a function of the members that pass a test. -/
theorem mapM_eq_ok_of_iff {f : α → Except ε β} {P : α → Prop} {g : α → β}
    (h : ∀ a b, f a = .ok b ↔ P a ∧ b = g a) {as : List α} {bs : List β} :
    as.mapM f = .ok bs ↔ (∀ a ∈ as, P a) ∧ bs = as.map g := by
  have hrel : (fun a b => f a = .ok b) = fun a b => P a ∧ g a = b := by
    funext a b
    rw [h, eq_comm (a := b)]
  rw [mapM_eq_ok, hrel, List.forall₂_and_left]
  have heq : List.Forall₂ (fun a b => g a = b) as bs ↔ as.map g = bs := by
    rw [← List.forall₂_map_left_iff (R := fun c b => c = b), List.forall₂_eq_eq_eq]
  rw [heq, eq_comm (a := bs)]

/-- An answer of a computation on every member is the answer on one of them. -/
theorem exists_of_mem_mapM {f : α → Except ε β} {as : List α} {bs : List β}
    (h : as.mapM f = .ok bs) {b : β} (hb : b ∈ bs) : ∃ a ∈ as, f a = .ok b := by
  have hrel := mapM_eq_ok.mp h
  clear h
  induction hrel with
  | nil => cases hb
  | @cons a c as bs hac _ ih =>
    rcases List.mem_cons.mp hb with rfl | hb
    · exact ⟨a, List.mem_cons_self .., hac⟩
    · obtain ⟨a', ha', h'⟩ := ih hb
      exact ⟨a', List.mem_cons_of_mem _ ha', h'⟩

/-- There is an answer for every member. -/
theorem exists_mem_of_mapM {f : α → Except ε β} {as : List α} {bs : List β}
    (h : as.mapM f = .ok bs) {a : α} (ha : a ∈ as) : ∃ b, f a = .ok b ∧ b ∈ bs := by
  have hrel := mapM_eq_ok.mp h
  clear h
  induction hrel with
  | nil => cases ha
  | @cons c b as bs hcb _ ih =>
    rcases List.mem_cons.mp ha with rfl | ha
    · exact ⟨b, hcb, List.mem_cons_self ..⟩
    · obtain ⟨b', h', hb'⟩ := ih ha
      exact ⟨b', h', List.mem_cons_of_mem _ hb'⟩

/-- An accumulation completes if every step does. -/
theorem exists_foldlM {f : β → α → Except ε β} :
    ∀ {as : List α}, (∀ a ∈ as, ∀ b, ∃ c, f b a = .ok c) → ∀ b, ∃ c, as.foldlM f b = .ok c := by
  intro as
  induction as with
  | nil => exact fun _ b => ⟨b, rfl⟩
  | cons a as ih =>
    intro hstep b
    obtain ⟨c, hc⟩ := hstep a (List.mem_cons_self ..) b
    rw [List.foldlM_cons, hc]
    exact ih (fun a' ha' => hstep a' (List.mem_cons_of_mem _ ha')) c

/-- An accumulation over two lists one after another. -/
theorem foldlM_append_eq_ok {f : β → α → Except ε β} {as bs : List α} {b c : β} :
    (as ++ bs).foldlM f b = .ok c ↔ ∃ d, as.foldlM f b = .ok d ∧ bs.foldlM f d = .ok c := by
  rw [List.foldlM_append, bind_eq_ok]

/-- What every step of a completed accumulation keeps, the accumulation keeps. -/
theorem foldlM_keeps {P : β → Prop} {f : β → α → Except ε β} :
    ∀ {as : List α}, (∀ a ∈ as, ∀ b c, P b → f b a = .ok c → P c) →
      ∀ {b c : β}, P b → as.foldlM f b = .ok c → P c := by
  intro as
  induction as with
  | nil =>
    intro _ b c hb h
    rw [List.foldlM_nil, pure_eq_ok] at h
    rw [← h]
    exact hb
  | cons a as ih =>
    intro hstep b c hb h
    rw [List.foldlM_cons] at h
    obtain ⟨d, hd, h⟩ := bind_eq_ok.mp h
    have had : P d := hstep a (List.mem_cons_self ..) b d hb hd
    exact ih (fun a' ha' => hstep a' (List.mem_cons_of_mem _ ha')) had h

end

/-! ### Computations that correspond -/

section

variable {ε α β γ α' β' : Type}

/-- Two computations in sequence correspond if both parts do. -/
theorem bind_eq_map {x : Except ε α} {x' : Except ε α'} {g : α → Except ε β} {g' : α' → Except ε β'}
    {m : α → α'} {k : β → β'} (hx : x' = x.map m) (hg : ∀ a, x = .ok a → g' (m a) = (g a).map k) :
    x' >>= g' = (x >>= g).map k := by
  subst hx
  cases x with
  | error e => rfl
  | ok a => exact hg a rfl

/-- Computations that start alike correspond if they go on so. -/
theorem bind_eq_map_of_eq {x : Except ε α} {g : α → Except ε β} {g' : α → Except ε β'} {k : β → β'}
    (hg : ∀ a, x = .ok a → g' a = (g a).map k) : x >>= g' = (x >>= g).map k := by
  cases x with
  | error e => rfl
  | ok a => exact hg a rfl

/-- A computation on every member of a list corresponds to one on every corresponding member. -/
theorem mapM_eq_map {g : α → Except ε β} {g' : α' → Except ε β'} {m : α → α'} {k : β → β'}
    {as : List α} (h : ∀ a ∈ as, g' (m a) = (g a).map k) :
    (as.map m).mapM g' = (as.mapM g).map (List.map k) := by
  induction as with
  | nil => rfl
  | cons a as ih =>
    rw [List.map_cons, List.mapM_cons, List.mapM_cons]
    refine bind_eq_map (h a List.mem_cons_self) fun b _ => ?_
    exact bind_eq_map (ih fun c hc => h c (List.mem_cons_of_mem _ hc)) fun _ _ => rfl

/-- A computation on every member of a list is the same if it is so on each. -/
theorem mapM_congr {g g' : α → Except ε β} {as : List α} (h : ∀ a ∈ as, g' a = g a) :
    as.mapM g' = as.mapM g := by
  induction as with
  | nil => rfl
  | cons a as ih =>
    rw [List.mapM_cons, List.mapM_cons, h a List.mem_cons_self,
      ih fun b hb => h b (List.mem_cons_of_mem _ hb)]

/-- A computation along a list corresponds to one along the corresponding list. -/
theorem foldlM_eq_map {g : β → α → Except ε β} {g' : β' → α' → Except ε β'} {m : α → α'}
    {k : β → β'} {as : List α} (h : ∀ a ∈ as, ∀ b, g' (k b) (m a) = (g b a).map k) (b : β) :
    (as.map m).foldlM g' (k b) = (as.foldlM g b).map k := by
  induction as generalizing b with
  | nil => rfl
  | cons a as ih =>
    rw [List.map_cons, List.foldlM_cons, List.foldlM_cons]
    exact bind_eq_map (h a List.mem_cons_self b) fun c _ =>
      ih (fun d hd => h d (List.mem_cons_of_mem _ hd)) c

/-- A computation along a list is the same along a corresponding list. -/
theorem foldlM_map_congr {g : β → α → Except ε β} {g' : β → α' → Except ε β}
    {m : α → α'} {as : List α} (h : ∀ a ∈ as, ∀ b, g' b (m a) = g b a) (b : β) :
    (as.map m).foldlM g' b = as.foldlM g b := by
  have hmap : (as.map m).foldlM g' (id b) = (as.foldlM g b).map id :=
    foldlM_eq_map (fun a ha b => by rw [Except.map_id]; exact h a ha b) b
  rwa [Except.map_id] at hmap

end

/-! ### Lifted computations -/

theorem liftM_eq_lift {α : Type} (x : Fallible α) : (liftM x : Attempt α) = x.lift := rfl

theorem lift_eq_ok {α : Type} {x : Fallible α} {a : α} : x.lift = .ok a ↔ x = .ok a := by
  cases x with
  | error f =>
    constructor
    · intro h
      cases h
    · intro h
      cases h
  | ok b =>
    rw [Fallible.lift_ok]
    constructor
    · intro h
      cases h
      rfl
    · intro h
      cases h
      rfl

theorem liftM_eq_ok {α : Type} {x : Fallible α} {a : α} :
    (liftM x : Attempt α) = .ok a ↔ x = .ok a := by
  rw [liftM_eq_lift, lift_eq_ok]

theorem ofOption_eq_ok {α : Type} {f : Fault} {o : Option α} {a : α} :
    Fallible.ofOption f o = .ok a ↔ o = some a := by
  cases o with
  | none =>
    constructor
    · intro h
      cases h
    · intro h
      cases h
  | some b =>
    rw [Fallible.ofOption_some]
    constructor
    · intro h
      cases h
      rfl
    · intro h
      cases h
      rfl

/-! ### Runs -/

namespace Outcome

variable {σ : Type}

/-- Two runs one after another complete if both do. -/
theorem andThen_completed {o : Outcome σ} {f : σ → Outcome σ} :
    (o.andThen f).error = none ↔ o.error = none ∧ (f o.state).error = none := by
  obtain ⟨s, e⟩ := o
  cases e with
  | none => exact ⟨fun h => ⟨rfl, h⟩, fun h => h.2⟩
  | some e =>
    constructor
    · intro h
      cases h
    · rintro ⟨h, -⟩
      cases h

/-- The state after two runs of which the first completed. -/
theorem andThen_state {o : Outcome σ} (f : σ → Outcome σ) (h : o.error = none) :
    (o.andThen f).state = (f o.state).state := by
  obtain ⟨s, e⟩ := o
  cases h
  rfl

theorem attempt_completed {s : σ} {x : Attempt σ} :
    (attempt s x).error = none ↔ x = .ok (attempt s x).state := by
  cases x with
  | error e =>
    constructor
    · intro h
      cases h
    · intro h
      cases h
  | ok t => exact ⟨fun _ => rfl, fun _ => rfl⟩

/-- An accepted change is the state; a refused one leaves the state alone. -/
theorem attempt_state {P : σ → Prop} {s : σ} {x : Attempt σ} (hs : P s)
    (h : ∀ t, x = .ok t → P t) : P (attempt s x).state := by
  cases x with
  | error e => exact hs
  | ok t => exact h t rfl

/-- What both parts of a run keep, the run keeps, also when an error stops it. -/
theorem andThen_keeps {P : σ → Prop} {o : Outcome σ} {f : σ → Outcome σ} (ho : P o.state)
    (hf : ∀ s, P s → P (f s).state) : P (o.andThen f).state := by
  obtain ⟨s, e⟩ := o
  cases e with
  | none => exact hf s ho
  | some e => exact ho

/-- An attempt stops with the error of the change that is refused. -/
theorem attempt_eq_error {s : σ} {x : Attempt σ} {e : Error} :
    (attempt s x).error = some e ↔ x = .error e := by
  cases x with
  | error e' => simp
  | ok t =>
    rw [attempt_ok, error_done]
    constructor
    · intro h
      cases h
    · intro h
      cases h

/-- An error of two runs one after another is one of the first, or one of the second from where the
first ended. -/
theorem andThen_eq_error {o : Outcome σ} {f : σ → Outcome σ} {e : Error} :
    (o.andThen f).error = some e ↔
      o.error = some e ∨ o.error = none ∧ (f o.state).error = some e := by
  obtain ⟨s, e'⟩ := o
  cases e' with
  | none => simp [andThen]
  | some e' => simp [andThen]

end Outcome

section

variable {α β σ τ : Type} {step : α → σ → Outcome σ}

theorem runAll_cons_completed {a : α} {as : List α} {s : σ} :
    (runAll step (a :: as) s).error = none ↔
      (step a s).error = none ∧ (runAll step as (step a s).state).error = none :=
  Outcome.andThen_completed

theorem runAll_cons_state {a : α} (as : List α) {s : σ} (h : (step a s).error = none) :
    (runAll step (a :: as) s).state = (runAll step as (step a s).state).state :=
  Outcome.andThen_state _ h

/-- A completed run over two lists is two completed runs. -/
theorem runAll_append_completed {as bs : List α} {s : σ} :
    (runAll step (as ++ bs) s).error = none ↔
      (runAll step as s).error = none ∧
        (runAll step bs (runAll step as s).state).error = none := by
  rw [runAll_append]
  exact Outcome.andThen_completed

/-- An error of a run is the error of one of its steps. -/
theorem runAll_error {as : List α} {s : σ} {e : Error}
    (h : (runAll step as s).error = some e) : ∃ a ∈ as, ∃ t, (step a t).error = some e := by
  induction as generalizing s with
  | nil => cases h
  | cons a as ih =>
    rcases Outcome.andThen_eq_error.mp h with ha | ⟨-, has⟩
    · exact ⟨a, List.mem_cons_self .., s, ha⟩
    · obtain ⟨b, hb, hstep⟩ := ih has
      exact ⟨b, List.mem_cons_of_mem _ hb, hstep⟩

end

end SlotGrad
