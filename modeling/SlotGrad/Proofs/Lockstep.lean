import SlotGrad.Proofs.Contributions

/-!
# Runs in lockstep

Two nets that differ in what some of their layers do are compared instruction by instruction.  Runs
agree if both complete, in related states, or both are stopped; the errors and what the stopped runs
leave may differ.  Agreement is carried through a run by one lemma about the steps, each taken in a
state that the first run reaches.

An instruction is called by its layer's name in messages and in profiles only, so instructions that
differ in their names agree on stores that are the same.

## Main definitions

* `Outcome.Agree` — both runs complete, in related states, or both are stopped.
* `RunState.Alike` — one store, and the same slots made by the pass.

## Main results

* `runAll_agree` — runs agree if their steps do in every state that the first run reaches.
* `backwardStep_alike` — a backward instruction does the same whatever it is called.
-/

namespace SlotGrad

/-! ### Runs in lockstep -/

namespace Outcome

variable {α β σ τ : Type} {R : σ → τ → Prop}

/-- Both runs complete, in related states, or both are stopped. -/
def Agree (R : σ → τ → Prop) (o : Outcome σ) (o' : Outcome τ) : Prop :=
  (o'.error = none ↔ o.error = none) ∧ (o.error = none → R o.state o'.state)

theorem agree_done {s : σ} {t : τ} (h : R s t) : Agree R (done s) (done t) :=
  ⟨Iff.rfl, fun _ => h⟩

theorem agree_stopped {s : σ} {t : τ} {e e' : Error} : Agree R (stopped s e) (stopped t e') :=
  ⟨by simp, by simp⟩

theorem agree_of_error {o : Outcome σ} {o' : Outcome τ} (ho : o.error ≠ none)
    (ho' : o'.error ≠ none) : Agree R o o' :=
  ⟨⟨fun h => absurd h ho', fun h => absurd h ho⟩, fun h => absurd h ho⟩

theorem agree_andThen {S : σ → τ → Prop} {o : Outcome σ} {o' : Outcome τ} {f : σ → Outcome σ}
    {g : τ → Outcome τ} (ho : Agree R o o') (hf : ∀ s t, o = done s → R s t → Agree S (f s) (g t)) :
    Agree S (o.andThen f) (o'.andThen g) := by
  obtain ⟨s, e⟩ := o
  obtain ⟨t, e'⟩ := o'
  obtain ⟨herror, hstate⟩ := ho
  dsimp only at herror hstate
  cases e with
  | none =>
    obtain rfl := herror.mpr rfl
    exact hf s t rfl (hstate rfl)
  | some e =>
    cases e' with
    | none => cases herror.mp rfl
    | some e' => exact agree_stopped

theorem Agree.mono {S : σ → τ → Prop} {o : Outcome σ} {o' : Outcome τ} (h : Agree R o o')
    (hS : ∀ s t, R s t → S s t) : Agree S o o' :=
  ⟨h.1, fun hdone => hS _ _ (h.2 hdone)⟩

/-- More holds of agreeing runs if the end of the first one gives it. -/
theorem Agree.strengthen {S : σ → τ → Prop} {o : Outcome σ} {o' : Outcome τ} (h : Agree R o o')
    (hS : ∀ s t, o = .done s → R s t → S s t) : Agree S o o' := by
  refine ⟨h.1, fun hdone => hS _ _ ?_ (h.2 hdone)⟩
  obtain ⟨s, e⟩ := o
  cases hdone
  rfl

end Outcome

/-- Runs agree if their steps do in every state that the first run reaches. -/
theorem runAll_agree {α β σ τ : Type} {R : σ → τ → Prop} {step : α → σ → Outcome σ}
    {other : β → τ → Outcome τ} {as : List α} {bs : List β} {s : σ} {t : τ}
    (hlen : bs.length = as.length)
    (hstep : ∀ (n : Nat) (a : α) (b : β) (s' : σ) (t' : τ), as[n]? = some a → bs[n]? = some b →
      runAll step (as.take n) s = .done s' → R s' t' → Outcome.Agree R (step a s') (other b t'))
    (hR : R s t) : Outcome.Agree R (runAll step as s) (runAll other bs t) := by
  have hprefix : ∀ n ≤ as.length,
      Outcome.Agree R (runAll step (as.take n) s) (runAll other (bs.take n) t) := by
    intro n
    induction n with
    | zero => exact fun _ => Outcome.agree_done hR
    | succ n ih =>
      intro hn
      have ha : as[n]? = some as[n] := List.getElem?_eq_getElem hn
      have hb : bs[n]? = some bs[n] := List.getElem?_eq_getElem (hlen ▸ hn)
      rw [List.take_add_one, List.take_add_one, ha, hb, runAll_append, runAll_append]
      refine Outcome.agree_andThen (ih (Nat.le_of_succ_le hn)) fun s' t' hs' hR' => ?_
      exact Outcome.agree_andThen (hstep n _ _ s' t' ha hb hs' hR') fun _ _ _ h =>
        Outcome.agree_done h
  have hall := hprefix as.length (Nat.le_refl _)
  rwa [List.take_length, ← hlen, List.take_length] at hall

variable {F : Type} [Arith F]

/-! ### One instruction under two names -/

/-- Two states of runs with one store and the same owned slots. -/
structure RunState.Alike (r r' : RunState F) : Prop where
  /-- The stores are the same. -/
  store : r'.store = r.store
  /-- The passes have made the same slots. -/
  owned : ∀ slot, slot ∈ r'.owned ↔ slot ∈ r.owned

namespace RunState

omit [Arith F] in
theorem Alike.put {r r' : RunState F} (h : Alike r r') (slot : Int) (s : Store F) :
    Alike (r.put slot s) (r'.put slot s) :=
  ⟨rfl, fun k => by simp [RunState.put, h.owned k]⟩

omit [Arith F] in
theorem Alike.record {r r' : RunState F} (h : Alike r r') (k k' : Nat) (stage stage' : Stage)
    (i i' : Instruction F) : Alike (r.record k stage i) (r'.record k' stage' i') :=
  ⟨h.store, h.owned⟩

omit [Arith F] in
theorem Alike.contains {r r' : RunState F} (h : Alike r r') (slot : Int) :
    r'.owned.contains slot = r.owned.contains slot := by
  rw [Bool.eq_iff_iff, List.contains_iff_mem, List.contains_iff_mem]
  exact h.owned slot

end RunState

open RunState Outcome

theorem contribute_alike {out : List (Value F)} {b : Int × Int} {r r' : RunState F}
    (h : Alike r r') : Agree Alike (contribute out b r) (contribute out b r') := by
  unfold contribute
  rw [h.store]
  cases resultAt out b.2 with
  | error f => exact agree_stopped
  | ok o =>
    cases o with
    | none => exact agree_done h
    | some v =>
      cases hv : v.isNone with
      | true => simpa [hv, liftM_eq_lift, bind, Except.bind, pure, Except.pure] using agree_done h
      | false =>
        cases hsum : r.store.accumulate (derSlot b.1) v with
        | error f =>
          simpa [hv, hsum, liftM_eq_lift, Fallible.lift, bind, Except.bind, Except.mapError]
            using agree_stopped
        | ok u =>
          simpa [hv, hsum, liftM_eq_lift, bind, Except.bind, pure, Except.pure]
            using agree_done (h.put _ _)

theorem scatterStep_alike {i : Instruction F} {name source : String} {args : List (Value F)}
    {r r' : RunState F} (h : Alike r r') :
    Agree Alike (scatterStep i args r)
      (scatterStep { i with name := name, source := source } args r') := by
  have hchange : ∀ (slot : Int) (v : Value F) {r r' : RunState F}, Alike r r' →
      Agree Alike
        (Outcome.attempt r (do return r.put slot (← r.store.set slot v)))
        (Outcome.attempt r' (do return r'.put slot (← r'.store.set slot v))) := by
    intro slot v r r' h
    rw [h.store]
    cases r.store.set slot v with
    | error f => exact agree_stopped
    | ok s => exact agree_done (h.put slot s)
  unfold scatterStep
  dsimp only
  rw [h.store]
  simp only [h.contains]
  split
  · exact agree_stopped
  · rename_i slot target index dy _
    have hfirst := hchange slot target h
    rw [h.store] at hfirst
    refine agree_andThen hfirst fun s t _ hst => ?_
    split
    · exact agree_stopped
    · exact hchange _ _ hst

theorem adjointStep_alike {call : Calls F} {i : Instruction F} {name source : String}
    {count : Count F} {args : List (Value F)} {r r' : RunState F} (h : Alike r r') :
    Agree Alike (adjointStep call i count args r)
      (adjointStep call { i with name := name, source := source } count args r') := by
  have hfunction : Instruction.function? { i with name := name, source := source } = i.function? :=
    rfl
  unfold adjointStep
  dsimp only
  rw [hfunction]
  cases i.function? with
  | none => exact agree_stopped
  | some f =>
    dsimp only
    cases hout : (do
      let out ← call f ⟨args, i.kwargs⟩
      return takeResults (← count.taken) (resultsOf out) : Attempt (List (Value F))) with
    | error e => exact agree_stopped
    | ok out =>
      refine runAll_agree rfl (fun n b b' s t hb hb' _ hst => ?_) h
      obtain rfl := Option.some.inj (hb.symm.trans hb')
      exact contribute_alike hst

/-- An instruction does the same whatever it is called in messages. -/
theorem backwardStep_alike {call : Calls F} {i : Instruction F} {name source : String} {k k' : Nat}
    {r r' : RunState F} (h : Alike r r') :
    Agree Alike (backwardStep call (i, k) r)
      (backwardStep call ({ i with name := name, source := source }, k') r') := by
  unfold backwardStep
  dsimp only
  refine agree_andThen (R := Alike) ?_ fun s t _ hst => agree_done (hst.record ..)
  have hbind : Instruction.bind { i with name := name, source := source } r'.store
      = i.bind r.store := by
    rw [h.store]
    rfl
  rw [hbind]
  cases i.bind r.store with
  | error f => exact agree_stopped
  | ok args =>
    dsimp only
    split
    · exact scatterStep_alike h
    · split
      · split
        · exact adjointStep_alike h
        · exact agree_done h
      · exact agree_done h

end SlotGrad
