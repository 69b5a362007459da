import SlotGrad.Proofs.Exact
import SlotGrad.Monitor.History
import Mathlib.Data.List.DropRight

/-!
# Histories as rolling windows

A history keeps the summaries of a key, and a key is a node's name, for its values, or the name with
a mark before it, for its derivatives.  After any updates and clears, the series of a key has the
last summaries under that key since the history was cleared, as many as fit.

A name may begin with the mark.  Then it is also the key of another node's derivatives, and its
series has the summaries of both.  The series of a key has the summaries of one side of one node if
no other side of a sampled node is recorded under it.

## Main definitions

* `Side`, `Point` — the two sides of a monitored node, and a summary of one of them.
* `summariesAt`, `summariesOf` — the summaries under a key, and those of one side of a node.
* `pointsOf`, `pointsOfUpdates` — what updates add: of each, the summaries up to the first content
  that has none.
* `HistoryCall`, `History.afterCalls` — updates and clears, and a history after several.
* `updatesSince` — the updates since the latest clear.

## Main results

* `History.lookup_push` — what a push does to the series of every key.
* `summariesAt_key` — a key with one use has the summaries of one side of one node.
* `History.Shows.afterCalls` — a history shows the points of the updates since the latest clear.
* `series_are_rolling_windows` — **a history after any updates and clears.**
* `series_mixes_two_nodes` — a series with points of two nodes.
-/

namespace SlotGrad

open History

variable {F : Type}

/-! ### Points -/

/-- The two slots of a monitored node. -/
inductive Side where
  /-- The slot of the value. -/
  | value
  /-- The slot of the derivative. -/
  | derivative
  deriving DecidableEq

/-- The key under which a side of a node is recorded. -/
def Side.key (side : Side) (name : String) : String :=
  match side with
  | .value => name
  | .derivative => derKey name

/-- What a sample holds on a side. -/
def Sample.content (s : Sample F) : Side → Value F
  | .value => s.value
  | .derivative => s.derivative

/-- A summary of one side of a node. -/
structure Point (F : Type) where
  /-- The name of the node. -/
  name : String
  /-- The side. -/
  side : Side
  /-- The summary. -/
  summary : Stats F

/-- The key under which a point is recorded. -/
def Point.key (p : Point F) : String := p.side.key p.name

/-- The summaries recorded under a key. -/
def summariesAt (key : String) (ps : List (Point F)) : List (Stats F) :=
  (ps.filter fun p => p.key = key).map Point.summary

/-- The summaries of one side of the node of a name. -/
def summariesOf (name : String) (side : Side) (ps : List (Point F)) : List (Stats F) :=
  (ps.filter fun p => p.name = name ∧ p.side = side).map Point.summary

/-- Two nodes have the same key for a side only if they have the same name. -/
theorem Side.key_inj {side : Side} {m n : String} : side.key m = side.key n ↔ m = n := by
  cases side <;> simp [Side.key, derKey]

/-- A key under which no other side is recorded has the summaries of one side of one node. -/
theorem summariesAt_key {name : String} {side : Side} {ps : List (Point F)}
    (h : ∀ p ∈ ps, p.key = side.key name → p.side = side) :
    summariesAt (side.key name) ps = summariesOf name side ps := by
  unfold summariesAt summariesOf
  congr 1
  refine List.filter_congr fun p hp => ?_
  have hsame : p.key = side.key name ↔ p.name = name ∧ p.side = side := by
    constructor
    · intro hkey
      have hside := h p hp hkey
      rw [Point.key, hside] at hkey
      exact ⟨Side.key_inj.mp hkey, hside⟩
    · rintro ⟨rfl, rfl⟩
      rfl
  simp [hsame]

/-! ### Windows -/

/-- What is kept of summaries: the last `n`, if there are any. -/
def window (n : Nat) (sts : List (Stats F)) : Option (List (Stats F)) :=
  if sts.isEmpty then none else some (sts.rtake n)

/-- What the series of a key answers if these summaries were recorded under it. -/
def windowSeries (n : Nat) (key : String) (sts : List (Stats F)) : Attempt (List (Stats F)) :=
  if sts.isEmpty then .error (.noSeries key) else .ok (sts.rtake n)

/-- One more summary within a window gives the window of one more summary. -/
theorem appendWithin_window (n : Nat) (sts : List (Stats F)) (st : Stats F) :
    appendWithin n ((window n sts).getD []) st = (sts ++ [st]).rtake n := by
  have hwindow : (window n sts).getD [] = sts.rtake n := by
    cases sts <;> simp [window]
  have happend : ∀ xs : List (Stats F), appendWithin n xs st = (xs ++ [st]).rtake n := by
    simp [appendWithin, List.rtake]
  rw [hwindow, happend]
  -- What was cut off before is cut off again.
  cases n with
  | zero => simp
  | succ n =>
    rw [List.rtake_concat_succ, List.rtake_concat_succ]
    simp [List.rtake_eq_reverse_take_reverse, List.take_take]

namespace History

theorem lookup_push_add (h : History F) (key : String) (st : Stats F) (k : String)
    (entries : List (String × List (Stats F))) :
    (push.add h key st entries).lookup k =
      if k = key then some (appendWithin h.capacity ((entries.lookup key).getD []) st)
      else entries.lookup k := by
  induction entries with
  | nil =>
    by_cases hk : k = key
    · simp [push.add, hk]
    · simp [push.add, hk, List.lookup_cons, beq_eq_false_iff_ne.mpr hk]
  | cons e rest ih =>
    obtain ⟨k', points⟩ := e
    by_cases hkey : k' = key
    · by_cases hk : k = key
      · simp [push.add, hkey, hk]
      · simp [push.add, hkey, hk, List.lookup_cons, beq_eq_false_iff_ne.mpr hk]
    · by_cases hk : k = k'
      · simp [push.add, hkey, hk]
      · simp [push.add, hkey, ih, List.lookup_cons, beq_eq_false_iff_ne.mpr hk,
          beq_eq_false_iff_ne.mpr (Ne.symm hkey)]

/-- What a push does to the series of every key. -/
theorem lookup_push (h : History F) (key : String) (st : Stats F) (k : String) :
    (h.push key st).series.lookup k =
      if k = key then some (appendWithin h.capacity ((h.series.lookup key).getD []) st)
      else h.series.lookup k :=
  lookup_push_add h key st k h.series

/-! ### What a history shows -/

/-- A history shows points if the series of every key is the window of the summaries under it. -/
def Shows (h : History F) (ps : List (Point F)) : Prop :=
  ∀ key, h.series.lookup key = window h.capacity (summariesAt key ps)

theorem Shows.seriesOf {h : History F} {ps : List (Point F)} (hshows : h.Shows ps) (key : String) :
    h.seriesOf key = windowSeries h.capacity key (summariesAt key ps) := by
  simp only [History.seriesOf, hshows key, window, windowSeries]
  by_cases hempty : (summariesAt key ps).isEmpty <;> simp [hempty]

/-- A history with one more point. -/
def pushPoint (h : History F) (p : Point F) : History F := h.push p.key p.summary

@[simp] theorem pushPoint_mk (h : History F) (name : String) (side : Side) (st : Stats F) :
    h.pushPoint ⟨name, side, st⟩ = h.push (side.key name) st := rfl

/-- Pushes keep the capacity. -/
theorem capacity_foldl_pushPoint (h : History F) (ps : List (Point F)) :
    (ps.foldl pushPoint h).capacity = h.capacity := by
  induction ps generalizing h with
  | nil => rfl
  | cons p ps ih => exact ih (h.pushPoint p)

/-- A history that shows points shows one more after a push. -/
theorem Shows.pushPoint {h : History F} {ps : List (Point F)} (hshows : h.Shows ps) (p : Point F) :
    (h.pushPoint p).Shows (ps ++ [p]) := by
  intro key
  change (h.push p.key p.summary).series.lookup key = window h.capacity _
  rw [lookup_push]
  by_cases hkey : key = p.key
  · subst hkey
    rw [if_pos rfl, hshows, appendWithin_window]
    simp [window, summariesAt]
  · rw [if_neg hkey, hshows]
    simp [summariesAt, Ne.symm hkey]

theorem Shows.foldl_pushPoint {h : History F} {ps : List (Point F)} (hshows : h.Shows ps)
    (new : List (Point F)) : (new.foldl History.pushPoint h).Shows (ps ++ new) := by
  induction new generalizing h ps with
  | nil => simpa using hshows
  | cons p new ih => simpa using ih (hshows.pushPoint p)

end History

/-! ### Updates -/

/-- What samples hold, in the order in which it is recorded. -/
def contentsOf (samples : List (Sample F)) : List (String × Side × Value F) :=
  samples.flatMap fun s =>
    [(s.entry.name, .value, s.value), (s.entry.name, .derivative, s.derivative)]

theorem keyed_eq_map (samples : List (Sample F)) :
    keyed samples = (contentsOf samples).map fun c => (c.2.1.key c.1, c.2.2) := by
  simp [keyed, contentsOf, List.map_flatMap, Side.key]

/-- What samples hold on a side of a node. -/
theorem filter_contentsOf (samples : List (Sample F)) (name : String) (side : Side) :
    ((contentsOf samples).filter fun c => c.1 = name ∧ c.2.1 = side).map (fun c => c.2.2) =
      (samples.filter fun s => s.entry.name = name).map fun s => s.content side := by
  induction samples with
  | nil => rfl
  | cons s samples ih =>
    have hcons : contentsOf (s :: samples) = (s.entry.name, .value, s.value) ::
        (s.entry.name, .derivative, s.derivative) :: contentsOf samples := rfl
    by_cases hname : s.entry.name = name
    · cases side <;> simpa [hcons, hname, Sample.content] using ih
    · simpa [hcons, hname] using ih

theorem mem_contentsOf {samples : List (Sample F)} {c : String × Side × Value F}
    (h : c ∈ contentsOf samples) : ∃ s ∈ samples, s.entry.name = c.1 := by
  obtain ⟨s, hs, hc⟩ := List.mem_flatMap.mp h
  refine ⟨s, hs, ?_⟩
  rcases List.mem_pair.mp hc with rfl | rfl <;> rfl

section

variable [Arith F] [Interchange F]

/-- The points that contents give: one for each, up to the first that has no summary. -/
def pointsOf : List (String × Side × Value F) → List (Point F)
  | [] => []
  | (name, side, v) :: rest =>
    match v.summarize with
    | .ok st => ⟨name, side, st⟩ :: pointsOf rest
    | .error _ => []

/-- A point is of one of the contents. -/
theorem exists_of_mem_pointsOf {cs : List (String × Side × Value F)} {p : Point F}
    (h : p ∈ pointsOf cs) : ∃ c ∈ cs, c.1 = p.name := by
  induction cs with
  | nil => cases h
  | cons c cs ih =>
    obtain ⟨name, side, v⟩ := c
    cases hv : v.summarize with
    | error f => simp [pointsOf, hv] at h
    | ok st =>
      simp only [pointsOf, hv, List.mem_cons] at h
      rcases h with rfl | h
      · exact ⟨_, List.mem_cons_self .., rfl⟩
      · obtain ⟨c, hc, hname⟩ := ih h
        exact ⟨c, List.mem_cons_of_mem _ hc, hname⟩

/-- A run over contents pushes the points that they give; if it completes, each content has given
its own. -/
theorem runAll_record (cs : List (String × Side × Value F)) (h : History F) :
    (runAll History.record (cs.map fun c => (c.2.1.key c.1, c.2.2)) h).state =
        (pointsOf cs).foldl History.pushPoint h ∧
      ((runAll History.record (cs.map fun c => (c.2.1.key c.1, c.2.2)) h).error = none →
        (pointsOf cs).map (fun p => (p.name, p.side, Except.ok p.summary)) =
          cs.map fun c => (c.1, c.2.1, c.2.2.summarize)) := by
  induction cs generalizing h with
  | nil => exact ⟨rfl, fun _ => rfl⟩
  | cons c cs ih =>
    obtain ⟨name, side, v⟩ := c
    cases hv : v.summarize with
    | error f => simp [History.record, pointsOf, hv]
    | ok st =>
      obtain ⟨hstate, hcompleted⟩ := ih (h.push (side.key name) st)
      constructor
      · simpa [History.record, pointsOf, hv] using hstate
      · intro herror
        have hrest := hcompleted (by simpa [History.record, hv] using herror)
        simp [pointsOf, hv, hrest]

/-- The points that updates add. -/
def pointsOfUpdates (us : List (List (Sample F))) : List (Point F) :=
  us.flatMap fun samples => pointsOf (contentsOf samples)

/-- The points of updates are of nodes that were sampled. -/
theorem exists_of_mem_pointsOfUpdates {us : List (List (Sample F))} {p : Point F}
    (h : p ∈ pointsOfUpdates us) : ∃ s ∈ us.flatten, s.entry.name = p.name := by
  obtain ⟨samples, hsamples, hp⟩ := List.mem_flatMap.mp h
  obtain ⟨c, hc, hname⟩ := exists_of_mem_pointsOf hp
  obtain ⟨s, hs, hsame⟩ := mem_contentsOf hc
  exact ⟨s, List.mem_flatten.mpr ⟨samples, hsamples, hs⟩, hsame.trans hname⟩

/-- The summaries of one side of a node that one update adds, if it completes: one for each sample
of the node. -/
theorem summariesOf_completed {samples : List (Sample F)} {h : History F}
    (herror : (h.update samples).error = none) (name : String) (side : Side) :
    (summariesOf name side (pointsOf (contentsOf samples))).map Except.ok =
      (samples.filter fun s => s.entry.name = name).map fun s => (s.content side).summarize := by
  have hupdate : h.update samples
      = runAll History.record ((contentsOf samples).map fun c => (c.2.1.key c.1, c.2.2)) h := by
    rw [← keyed_eq_map]
    rfl
  rw [hupdate] at herror
  have hread := (runAll_record (contentsOf samples) h).2 herror
  -- The points are selected like the contents that gave them.
  calc (summariesOf name side (pointsOf (contentsOf samples))).map Except.ok
      = (((pointsOf (contentsOf samples)).map fun p => (p.name, p.side, Except.ok p.summary)).filter
          fun t => t.1 = name ∧ t.2.1 = side).map fun t => t.2.2 := by
        simp [summariesOf, List.filter_map, Function.comp_def]
    _ = (((contentsOf samples).filter fun c => c.1 = name ∧ c.2.1 = side).map fun c => c.2.2).map
          Value.summarize := by
        rw [hread]
        simp [List.filter_map, Function.comp_def]
    _ = (samples.filter fun s => s.entry.name = name).map fun s => (s.content side).summarize := by
        rw [filter_contentsOf]
        simp [Function.comp_def]

/-! ### Updates and clears -/

/-- A call that changes a history. -/
inductive HistoryCall (F : Type) where
  /-- Add what samples hold. -/
  | update (samples : List (Sample F))
  /-- Start again. -/
  | clear

/-- A history after a call, which may have failed. -/
def HistoryCall.after (call : HistoryCall F) (h : History F) : History F :=
  match call with
  | .update samples => (h.update samples).state
  | .clear => h.clear

/-- A history after several calls. -/
def History.afterCalls (h : History F) (calls : List (HistoryCall F)) : History F :=
  calls.foldl (fun h call => call.after h) h

/-- The updates since the latest clear. -/
def updatesSince (calls : List (HistoryCall F)) : List (List (Sample F)) :=
  calls.foldl (fun us call =>
    match call with
    | .update samples => us ++ [samples]
    | .clear => []) []

theorem History.afterCalls_concat (h : History F) (calls : List (HistoryCall F))
    (call : HistoryCall F) :
    h.afterCalls (calls ++ [call]) = call.after (h.afterCalls calls) := by
  simp [afterCalls]

/-- An update pushes its points, also if it fails. -/
theorem History.state_update (h : History F) (samples : List (Sample F)) :
    (h.update samples).state = (pointsOf (contentsOf samples)).foldl History.pushPoint h := by
  unfold update
  rw [keyed_eq_map]
  exact (runAll_record _ h).1

/-- Calls keep the capacity. -/
theorem History.capacity_afterCalls (h : History F) (calls : List (HistoryCall F)) :
    (h.afterCalls calls).capacity = h.capacity := by
  induction calls using List.reverseRecOn with
  | nil => rfl
  | append_singleton calls call ih =>
    rw [afterCalls_concat, ← ih]
    cases call with
    | update samples =>
      rw [HistoryCall.after, state_update]
      exact capacity_foldl_pushPoint _ _
    | clear => rfl

/-- A new history shows the points of the updates since the latest clear. -/
theorem History.Shows.afterCalls {h : History F} (hnew : h.series = [])
    (calls : List (HistoryCall F)) :
    (h.afterCalls calls).Shows (pointsOfUpdates (updatesSince calls)) := by
  induction calls using List.reverseRecOn with
  | nil =>
    intro key
    simp [History.afterCalls, hnew, updatesSince, pointsOfUpdates, summariesAt, window]
  | append_singleton calls call ih =>
    rw [afterCalls_concat]
    cases call with
    | update samples =>
      rw [HistoryCall.after, state_update]
      have hpoints : pointsOfUpdates (updatesSince (calls ++ [.update samples])) =
          pointsOfUpdates (updatesSince calls) ++ pointsOf (contentsOf samples) := by
        simp [updatesSince, pointsOfUpdates]
      rw [hpoints]
      exact ih.foldl_pushPoint _
    | clear =>
      intro key
      simp [HistoryCall.after, History.clear, updatesSince, pointsOfUpdates, summariesAt, window]

/-- The summaries of one side of a node that updates add, if they complete. -/
theorem summariesOf_updates {us : List (List (Sample F))}
    (hcompleted : ∀ u ∈ us, ∀ h : History F, (h.update u).error = none) (name : String)
    (side : Side) :
    (summariesOf name side (pointsOfUpdates us)).map Except.ok =
      (us.flatten.filter fun s => s.entry.name = name).map fun s => (s.content side).summarize := by
  induction us with
  | nil => rfl
  | cons u us ih =>
    have hfirst := summariesOf_completed (hcompleted u (List.mem_cons_self ..) ⟨0, []⟩) name side
    have hrest := ih fun u hu => hcompleted u (List.mem_cons_of_mem _ hu)
    have hsplit : summariesOf name side (pointsOfUpdates (u :: us)) =
        summariesOf name side (pointsOf (contentsOf u)) ++
          summariesOf name side (pointsOfUpdates us) := by
      simp [summariesOf, pointsOfUpdates]
    rw [hsplit, List.map_append, hfirst, hrest]
    simp

/-- **A history after any updates and clears.**  The series of a key has the last summaries recorded
under it since the latest clear, as many as fit, oldest first.  Those are the summaries of one side
of one node if the key has no other use, which is to say that no sampled node's other side is
recorded under it.  Updates that complete have recorded a summary of each side of each sample. -/
theorem series_are_rolling_windows {k : Int} {h : History F} (hnew : create? k = .ok h)
    (calls : List (HistoryCall F)) :
    (∀ key, (h.afterCalls calls).seriesOf key =
      windowSeries k.toNat key (summariesAt key (pointsOfUpdates (updatesSince calls)))) ∧
    (∀ key sts, (h.afterCalls calls).seriesOf key = .ok sts → (sts.length : Int) ≤ k) ∧
    (∀ name side,
      (∀ s ∈ (updatesSince calls).flatten, ∀ side' : Side,
        side'.key s.entry.name = side.key name → side' = side) →
      (h.afterCalls calls).seriesOf (side.key name) = windowSeries k.toNat (side.key name)
        (summariesOf name side (pointsOfUpdates (updatesSince calls)))) ∧
    ((∀ u ∈ updatesSince calls, ∀ h : History F, (h.update u).error = none) →
      ∀ name side, (summariesOf name side (pointsOfUpdates (updatesSince calls))).map Except.ok =
        ((updatesSince calls).flatten.filter fun s => s.entry.name = name).map fun s =>
          (s.content side).summarize) := by
  obtain ⟨hpositive, hcapacity, hempty⟩ : 1 ≤ k ∧ h.capacity = k.toNat ∧ h.series = [] := by
    unfold create? at hnew
    split at hnew
    · cases hnew
    · cases hnew
      exact ⟨by omega, rfl, rfl⟩
  have hseries : ∀ key, (h.afterCalls calls).seriesOf key =
      windowSeries k.toNat key (summariesAt key (pointsOfUpdates (updatesSince calls))) := by
    intro key
    rw [(History.Shows.afterCalls hempty calls).seriesOf, History.capacity_afterCalls, hcapacity]
  refine ⟨hseries, ?_, ?_, fun hcompleted => summariesOf_updates hcompleted⟩
  · intro key sts hsts
    rw [hseries, windowSeries] at hsts
    split at hsts
    · cases hsts
    · cases hsts
      simp only [List.rtake, List.length_drop]
      omega
  · intro name side hother
    -- With one use of the key, all points under it are those of the one side.
    rw [hseries, summariesAt_key]
    intro p hp hkey
    obtain ⟨s, hs, hsame⟩ := exists_of_mem_pointsOfUpdates hp
    refine hother s hs p.side ?_
    rw [hsame]
    exact hkey

end

/-- The summary of one number. -/
@[simp] theorem summarize_real (q : ℚ) : (Value.real q).summarize = .ok ⟨q, q, q⟩ := by
  have hread : (Value.real q).summarize
      = .ok (Stats.ofList (Tensor.single .float64 q).toReals.toList) := rfl
  have hnumbers : (Tensor.single .float64 q).toReals.toList = [q] := by
    simp [Tensor.toReals, Tensor.single, Grid.map, Grid.single, Grid.toList, Elem.toReal]
  rw [hread, hnumbers]
  simp [Stats.ofList]

/-- A sample of numbers. -/
def numberSample (name : String) (value derivative : ℚ) : Sample ℚ :=
  ⟨⟨0, 1, name⟩, .real value, .real derivative⟩

/-- A clear between updates. -/
def clearedCalls : List (HistoryCall ℚ) :=
  [.update [numberSample "x" 9 9], .clear, .update [numberSample "x" 1 5, numberSample "y" 2 6],
    .update [numberSample "x" 3 7], .update [numberSample "x" 4 8]]

theorem series_are_rolling_windows_cleared :
    create? (F := ℚ) 2 = .ok ⟨2, []⟩ ∧
      (History.afterCalls ⟨2, []⟩ clearedCalls).seriesOf "dx" = .ok [⟨7, 7, 7⟩, ⟨8, 8, 8⟩] ∧
      (History.afterCalls ⟨2, []⟩ clearedCalls).seriesOf "y" = .ok [⟨2, 2, 2⟩] := by
  obtain ⟨-, -, hside, -⟩ := series_are_rolling_windows (k := 2) (h := ⟨2, []⟩) rfl clearedCalls
  have hnames : ∀ s ∈ (updatesSince clearedCalls).flatten,
      s.entry.name = "x" ∨ s.entry.name = "y" := by
    simp [updatesSince, clearedCalls, numberSample]
  refine ⟨rfl, (hside "x" .derivative ?_).trans ?_, (hside "y" .value ?_).trans ?_⟩
  · intro s hs side' hkey
    rcases hnames s hs with h | h <;> rw [h] at hkey <;> cases side' <;> revert hkey <;> decide
  · simp [clearedCalls, updatesSince, pointsOfUpdates, pointsOf, contentsOf, numberSample,
      summariesOf, windowSeries, List.rtake]
  · intro s hs side' hkey
    rcases hnames s hs with h | h <;> rw [h] at hkey <;> cases side' <;> revert hkey <;> decide
  · simp [clearedCalls, updatesSince, pointsOfUpdates, pointsOf, contentsOf, numberSample,
      summariesOf, windowSeries, List.rtake]

/-- A node that is named like the key of another node's derivatives: both have a point in the one
series. -/
theorem series_mixes_two_nodes :
    create? (F := ℚ) 2 = .ok ⟨2, []⟩ ∧
      (History.update [numberSample "x" 3 1, numberSample "dx" 5 7] ⟨2, []⟩).error = none ∧
      (History.update [numberSample "x" 3 1, numberSample "dx" 5 7] ⟨2, []⟩).state.seriesOf "dx"
        = .ok [⟨1, 1, 1⟩, ⟨5, 5, 5⟩] := by
  refine ⟨rfl, ?_, ?_⟩ <;>
    simp [History.update, keyed, numberSample, History.record, derKey, History.push,
      History.push.add, History.seriesOf, appendWithin, List.lookup_cons]

end SlotGrad
