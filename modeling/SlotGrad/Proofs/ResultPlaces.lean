import SlotGrad.Kernel.Extra
import SlotGrad.Proofs.AssembledNets
import SlotGrad.Proofs.Equations

/-!
# Which operand a result reaches

An adjoint answers one derivative for each argument of its layer, by the argument's place, up to the
last node.  An instruction records other places: it calls the adjoint with the derivative of the
output put in before the first text, and what stands behind moves one place on.  Results are looked
up at the recorded places, but only as many of them are taken as the arguments count.

So every operand in front of the first text gets its own result.  An operand behind it is given the
result of the argument after it, and the last one, at the place where counting ends, is given none.

## Main definitions

* `shares` — what the operands of a layer are given of some results, looked up at some places.
* `AddsShares` — a store comes from another by adding shares.
* `giveShares` — a backward instruction whose operands look results up at given places.
* `CountedFirst` — the operands that are counted stand in front of the first text.

## Main results

* `backwardStep_eq_shares` — what a backward instruction does, with the places it records.
* `results_reach_operands` — where the operands that are counted come first, each gets the result
  at its own place.
* `result_behind_text_is_lost` — an operand behind a text does not get its result.
-/

namespace SlotGrad

variable {F : Type}

/-! ### Shares -/

/-- What the operands of a layer are given of some results: for each argument that is a node, in
order, its slot and the result at the place looked up for it, unless that is missing or absent. -/
def shares (slotOf : Handle → Option Nat) (place : Nat → Nat) (args results : List (Value F)) :
    List (Nat × Value F) :=
  (args.zipIdx).filterMap fun q =>
    (q.1.node?.bind slotOf).bind fun slot =>
      ((results[place q.2]?).filter fun v => !v.isNone).map fun v => (slot, v)

/-- Among `n` results, every operand with one of its own stands in front of the first text. -/
def CountedFirst (n : Nat) (args : List (Value F)) : Prop :=
  ∀ (q : Nat) (h : Handle), args[q]? = some (.node h) → q < n → q < seedPlace args

/-- If the operands that are counted come first, the recorded places are the operands' own. -/
theorem CountedFirst.shares_eq {n : Nat} {args : List (Value F)} (h : CountedFirst n args)
    (slotOf : Handle → Option Nat) {results : List (Value F)} (hlen : results.length ≤ n) :
    shares slotOf (movedOn (seedPlace args)) args results = shares slotOf id args results := by
  unfold shares
  refine List.filterMap_congr fun q hq => ?_
  have hget := List.mem_zipIdx_iff_getElem?.mp hq
  cases hnode : q.1.node? with
  | none => rfl
  | some m =>
    rw [Value.node?_eq_some.mp hnode] at hget
    have hsame : results[movedOn (seedPlace args) q.2]? = results[q.2]? := by
      unfold movedOn
      by_cases hq : q.2 < n
      · have := h q.2 m hget hq
        rw [if_neg (by omega)]
      · -- Behind the last result there is none at either place.
        rw [List.getElem?_eq_none (by omega : results.length ≤ q.2)]
        exact List.getElem?_eq_none (by split <;> omega)
    rw [hsame]
    rfl

/-- Operands, written down as a selection from the arguments with their places. -/
theorem operandSlots_eq_filterMap (slotOf : Handle → Option Nat) (k : Nat) (args : List (Value F)) :
    operandSlots slotOf k args = (args.zipIdx k).filterMap fun q =>
      (q.1.node?.bind slotOf).map fun slot : Nat => ((slot : Int), (q.2 : Int)) := by
  induction args generalizing k with
  | nil => rfl
  | cons v vs ih =>
    rw [operandSlots, List.zipIdx_cons, List.filterMap_cons]
    dsimp only
    cases v.node?.bind slotOf with
    | none => exact ih (k + 1)
    | some slot => exact congrArg _ (ih (k + 1))

/-- The operands of an adjoint stand at the recorded places. -/
theorem adjointOperands_eq_filterMap (slotOf : Handle → Option Nat) (args : List (Value F)) :
    adjointOperands slotOf args = (args.zipIdx).filterMap fun q =>
      (q.1.node?.bind slotOf).map fun slot : Nat =>
        ((slot : Int), ((movedOn (seedPlace args) q.2 : Nat) : Int)) := by
  rw [← zip_map_fst_snd (adjointOperands slotOf args), adjointOperands_fst, adjointOperands_snd,
    operandSlots_eq_filterMap, List.map_map, List.zip_map', List.map_filterMap]
  refine List.filterMap_congr fun q _ => ?_
  cases q.1.node?.bind slotOf with
  | none => rfl
  | some slot => simp [shifted_natCast]

/-- A run whose steps pass over some members is the run over what is selected of the others. -/
theorem runAll_filterMap {α β σ : Type} {step : α → σ → Outcome σ} (other : β → σ → Outcome σ)
    (f : α → Option β) (as : List α)
    (hstep : ∀ a ∈ as, ∀ s, step a s = (f a).elim (.done s) fun b => other b s) (s : σ) :
    runAll step as s = runAll other (as.filterMap f) s := by
  induction as generalizing s with
  | nil => rfl
  | cons a as ih =>
    have hrest : runAll step as = runAll other (as.filterMap f) :=
      funext (ih fun b hb => hstep b (List.mem_cons_of_mem _ hb))
    rw [runAll_cons, hstep a (List.mem_cons_self ..), List.filterMap_cons, hrest]
    cases f a <;> rfl

/-! ### Adding shares -/

variable [Arith F]

/-- Add a share into the derivative of its operand. -/
def addShare (share : Nat × Value F) (r : RunState F) : Outcome (RunState F) :=
  .attempt r <| do
    return r.put (derSlot share.1) (← r.store.accumulate (derSlot share.1) share.2)

/-- The second store comes from the first by adding shares: every slot holds the sum, in order, of
what it held and the shares for it, and so what it held if there are none. -/
structure AddsShares (given : List (Nat × Value F)) (s t : Store F) : Prop where
  /-- The stores have one size. -/
  size : t.size = s.size
  /-- The contents of slots. -/
  content : ∀ k, ((given.filter fun share => share.1 + 1 = k).map Prod.snd).foldlM Value.plus
    (s.content k) = .ok (t.content k)

theorem addShare_adds {share : Nat × Value F} {r : RunState F}
    (hslot : share.1 + 1 < r.store.size) (hdone : (addShare share r).error = none) :
    AddsShares [share] r.store (addShare share r).state.store := by
  obtain ⟨slot, v⟩ := share
  have hcompleted := Outcome.attempt_completed.mp hdone
  change _ = Except.ok (addShare (slot, v) r).state at hcompleted
  obtain ⟨s, hs, h⟩ := bind_eq_ok.mp hcompleted
  rw [← pure_eq_ok.mp h]
  obtain ⟨w, u, hw, hu, hset⟩ := Store.accumulate_eq_ok.mp (liftM_eq_ok.mp hs)
  have hder : derSlot ((slot : Nat) : Int) = ((slot + 1 : Nat) : Int) := rfl
  rw [hder] at hw hset
  rw [Store.get_natCast hslot] at hw
  cases hw
  obtain ⟨-, rfl⟩ := Store.set_natCast_eq_ok.mp hset
  refine ⟨Store.size_setAt .., fun k => ?_⟩
  simp only [RunState.put]
  by_cases hk : k = slot + 1
  · subst hk
    rw [Store.content_setAt_self hslot]
    simpa [Value.plus] using hu
  · rw [Store.content_setAt_of_ne _ hk]
    simp [Ne.symm hk, pure, Except.pure]

theorem AddsShares.trans {given given' : List (Nat × Value F)} {s t u : Store F}
    (h : AddsShares given s t)
    (h' : AddsShares given' t u) : AddsShares (given ++ given') s u := by
  refine ⟨h'.size.trans h.size, fun k => ?_⟩
  rw [List.filter_append, List.map_append]
  exact foldlM_append_eq_ok.mpr ⟨_, h.content k, h'.content k⟩

/-- A completed run has added all shares. -/
theorem runAll_addShare_adds {given : List (Nat × Value F)} :
    ∀ {r : RunState F}, (∀ share ∈ given, share.1 + 1 < r.store.size) →
      (runAll addShare given r).error = none →
        AddsShares given r.store (runAll addShare given r).state.store := by
  induction given with
  | nil => exact fun _ _ => ⟨rfl, fun _ => rfl⟩
  | cons share given ih =>
    intro r hslots hdone
    obtain ⟨hshare, hrest⟩ := runAll_cons_completed.mp hdone
    have hstep := addShare_adds (hslots share (List.mem_cons_self ..)) hshare
    rw [runAll_cons_state given hshare]
    refine hstep.trans (ih (fun other hother => ?_) hrest)
    rw [hstep.size]
    exact hslots other (List.mem_cons_of_mem _ hother)

/-- A contribution adds the share of its operand, if there is one. -/
theorem contribute_eq_addShare (out : List (Value F)) (slot q : Nat) (r : RunState F) :
    contribute out ((slot : Int), (q : Int)) r
      = (((out[q]?).filter fun v => !v.isNone).map fun v => (slot, v)).elim (.done r)
          fun share => addShare share r := by
  unfold contribute
  dsimp only
  rw [resultAt_natCast]
  simp only [liftM_eq_lift, Fallible.lift, Except.mapError, ok_bind]
  cases hv : out[q]? with
  | none => rfl
  | some v =>
    cases hnone : v.isNone with
    | true =>
      simp [Option.filter, hnone]
      rfl
    | false =>
      simp [Option.filter, hnone, addShare]
      rfl

/-- The contributions of a layer are the shares of its operands at the recorded places. -/
theorem runAll_contribute_eq_shares (slotOf : Handle → Option Nat) (args out : List (Value F))
    (r : RunState F) :
    runAll (contribute out) (adjointOperands slotOf args) r
      = runAll addShare (shares slotOf (movedOn (seedPlace args)) args out) r := by
  let share (b : Int × Int) : Option (Nat × Value F) :=
    ((out[b.2.toNat]?).filter fun v => !v.isNone).map fun v => (b.1.toNat, v)
  have hoperands : ∀ b ∈ adjointOperands slotOf args, ∀ s : RunState F,
      contribute out b s = (share b).elim (.done s) fun share => addShare share s := by
    intro b hb s
    rw [adjointOperands_eq_filterMap] at hb
    obtain ⟨q, -, hq⟩ := List.mem_filterMap.mp hb
    obtain ⟨slot, -, rfl⟩ := Option.map_eq_some_iff.mp hq
    exact contribute_eq_addShare out slot _ s
  rw [runAll_filterMap addShare share _ hoperands, adjointOperands_eq_filterMap,
    List.filterMap_filterMap]
  unfold shares
  congr 1
  refine List.filterMap_congr fun q _ => ?_
  cases q.1.node?.bind slotOf <;> rfl

/-! ### One layer -/

section

variable {slotOf : Handle → Option Nat}

/-- The backward instruction of a layer whose operands look their results up at given places: it
stops with the error of the adjoint, or adds the shares of the operands one after another. -/
def giveShares (call : Calls F) (slotOf : Handle → Option Nat) (place : Nat → Nat) (p : Placed F)
    (k : Nat) (r : RunState F) : Outcome (RunState F) :=
  let given : Outcome (RunState F) :=
    match adjointResults call slotOf r.store p.place p.layer with
    | .error e => .stopped r e
    | .ok out => runAll addShare (shares slotOf place p.layer.args out) r
  given.andThen fun r => .done (r.record k .backward (backwardOf slotOf p))

/-- A backward instruction looks results up at the places that it records. -/
theorem backwardStep_eq_shares (call : Calls F) {p : Placed F} (k : Nat) {r : RunState F} {f : Fn}
    (hslots : ∀ h k, slotOf h = some k → k < r.store.size)
    (hplace : valueSlot p.place + 1 < r.store.size) (hscatter : p.layer.op.scatter = false)
    (hadjoint : p.layer.op.adjoint = some f) (hcount : NaturalCount p.layer)
    (hwhole : p.layer.CountsWhole) :
    backwardStep call (backwardOf slotOf p, k) r
      = giveShares call slotOf (movedOn (seedPlace p.layer.args)) p k r := by
  obtain ⟨n, hn⟩ := hwhole.exists_taken slotOf
  unfold backwardStep giveShares
  dsimp only
  rw [backwardOf_bind hslots p hplace]
  dsimp only
  rw [show (backwardOf slotOf p).op.scatter = false from hscatter, if_neg (by simp),
    show (backwardOf slotOf p).derCount = some (derCountOf slotOf p.layer) from rfl]
  dsimp only
  congr 1
  unfold adjointResults
  cases hactive : (derCountOf slotOf p.layer).isActive with
  | false =>
    have hnone : shares slotOf (movedOn (seedPlace p.layer.args)) p.layer.args [] = [] := by
      simp [shares]
    rw [if_neg (by simp), if_pos (derNumber_eq_zero hactive)]
    dsimp only
    rw [hnone, runAll_nil]
  | true =>
    -- The engine cuts the answer at the number that the count names.
    obtain ⟨rfl, hne⟩ := taken_derCountOf hcount hactive hn
    rw [if_pos rfl, if_neg hne]
    unfold adjointStep
    dsimp only
    rw [show (backwardOf slotOf p).function? = some f from hadjoint,
      show (backwardOf slotOf p).kwargs = p.layer.kwargs from rfl, operands_backwardOf, hadjoint]
    dsimp only
    cases call f ⟨adjointArguments slotOf r.store p.place p.layer.args, p.layer.kwargs⟩ with
    | error e => rfl
    | ok v =>
      simp only [hn, ok_bind, liftM_eq_lift, Fallible.lift, Except.mapError, pure, Except.pure]
      rw [runAll_contribute_eq_shares, takeResults, if_pos (Int.natCast_nonneg _),
        Int.toNat_natCast]

omit [Arith F] in
/-- No more results are taken than are counted. -/
theorem length_adjointResults {call : Calls F} {s : Store F} {place : Nat} {a : Application F}
    {out : List (Value F)} (h : adjointResults call slotOf s place a = .ok out) :
    out.length ≤ derNumber slotOf a := by
  unfold adjointResults at h
  split at h
  · cases h
    exact Nat.zero_le _
  · cases hadjoint : a.op.adjoint with
    | none =>
      rw [hadjoint] at h
      cases h
    | some f =>
      rw [hadjoint] at h
      obtain ⟨v, -, h⟩ := bind_eq_ok.mp h
      rw [← pure_eq_ok.mp h, List.length_take]
      exact Nat.min_le_left ..

end

/-- **Where the operands that are counted come first, each gets its own result.**  Take a layer
of a compiled list with an adjoint, which is no indexing layer and whose number of derivatives
is inferred or a natural number, and let the nodes among as many of its arguments as are counted
stand in front of the first text.  On a store of the net's size its backward instruction stops
with the adjoint's error, or adds for each of these nodes the result at the argument's own
place, one after another.  If it completes, then every slot holds what it held and the results
for it, and nothing else. -/
theorem results_reach_operands [Interchange F] {checks : Checks F} {known : Node F → Bool}
    {nodes : List (Node F)} {roots : Option (List Handle)} {options : Options F}
    {c : Compilation F} (hc : compileNodes checks known nodes roots options = .ok c) :
    ∃ layers : List (Placed F), layers.map (fun p => (p.place, p.layer)) = layersOf nodes ∧
      c.net.backward = layers.reverse.map (backwardOf (slotIn nodes)) ∧
      ∀ p ∈ layers, ∀ f, p.layer.op.scatter = false → p.layer.op.adjoint = some f →
        NaturalCount p.layer → p.layer.CountsWhole →
        CountedFirst (derNumber (slotIn nodes) p.layer) p.layer.args →
        ∀ (call : Calls F) (k : Nat) (r : RunState F), r.store.size = 2 * nodes.length →
          backwardStep call (backwardOf (slotIn nodes) p, k) r
            = giveShares call (slotIn nodes) id p k r ∧
          ((backwardStep call (backwardOf (slotIn nodes) p, k) r).error = none →
            ∃ out, adjointResults call (slotIn nodes) r.store p.place p.layer = .ok out ∧
              AddsShares (shares (slotIn nodes) id p.layer.args out) r.store
                (backwardStep call (backwardOf (slotIn nodes) p, k) r).state.store) := by
  obtain ⟨-, layers, hs⟩ := compileNodes_streams hc
  refine ⟨layers, hs.places, hs.backward, ?_⟩
  intro p hp f hscatter hadjoint hcount hwhole hfirst call k r hsize
  have hslots : ∀ h k, slotIn nodes h = some k → k + 1 < r.store.size := fun h k hk => by
    have := slotIn_lt hk
    omega
  have hplace : valueSlot p.place + 1 < r.store.size := by
    rw [hsize]
    exact valueSlot_succ_lt.mpr (hs.place_lt hp)
  -- By positions the results are cut and counted; where the counted nodes stand in front, both
  -- are the arguments' own places.
  have hstep := backwardStep_eq_shares call k
    (fun h k hk => Nat.lt_of_succ_lt (hslots h k hk)) hplace hscatter hadjoint hcount hwhole
  have hown : backwardStep call (backwardOf (slotIn nodes) p, k) r
      = giveShares call (slotIn nodes) id p k r := by
    rw [hstep]
    unfold giveShares
    cases hout : adjointResults call (slotIn nodes) r.store p.place p.layer with
    | error e => rfl
    | ok out =>
      dsimp only
      rw [hfirst.shares_eq _ (length_adjointResults hout)]
  refine ⟨hown, fun hdone => ?_⟩
  rw [hown] at hdone ⊢
  unfold giveShares at hdone ⊢
  cases hout : adjointResults call (slotIn nodes) r.store p.place p.layer with
  | error e =>
    rw [hout] at hdone
    cases hdone
  | ok out =>
    rw [hout] at hdone
    dsimp only at hdone ⊢
    obtain ⟨hadded, -⟩ := Outcome.andThen_completed.mp hdone
    rw [Outcome.andThen_state _ hadded]
    refine ⟨out, rfl, runAll_addShare_adds (fun share hshare => ?_) hadded⟩
    obtain ⟨q, -, hq⟩ := List.mem_filterMap.mp hshare
    obtain ⟨slot, hslot, hq⟩ := Option.bind_eq_some_iff.mp hq
    obtain ⟨v, -, rfl⟩ := Option.map_eq_some_iff.mp hq
    obtain ⟨h, -, hslot⟩ := Option.bind_eq_some_iff.mp hslot
    exact hslots h slot hslot

/-- The state in which an evaluation with the seed one starts to go backward. -/
def turningState (call : Calls ℚ) (c : Compilation ℚ) : RunState ℚ :=
  (seedDers c.net ⟨.real 1, false⟩
    (runForward call .forward c.net.forward ⟨c.store, [], none⟩).state).state

/-- The interpretation that knows the extra functions beside the built-in ones. -/
def extraCalls : Calls ℚ := fun f a =>
  match Extra.ofKey? f.key with
  | some e => e.call (.error (.fault .wrongKind)) a
  | none => builtinCalls f a

/-- The product with a factor that is given by name. -/
def scaling : Application ℚ :=
  ⟨⟨"scaled", Extra.scaled.fn, some Extra.scaledAdjoint.fn, false, 0⟩,
    [.node ⟨0, .param, ""⟩, .text "factor", .real 3], [], .same, .same, [], none⟩

/-- A parameter times three. -/
def scaledParameter : List (Node ℚ) :=
  [⟨0, bareLabel, .param ⟨.real 2, .none, .none, .gradient⟩⟩, ⟨1, bareLabel, .layer scaling⟩]

theorem results_reach_operands_scaled_parameter :
    ∃ c p, compileNodes [] (fun _ => true) scaledParameter none plainOptions = .ok c ∧
      c.net.backward = [backwardOf (slotIn scaledParameter) p] ∧
      ∃ v, adjointResults extraCalls (slotIn scaledParameter) (turningState extraCalls c).store
          1 scaling = .ok [v] ∧
        AddsShares [(0, v)] (turningState extraCalls c).store
          (backwardStep extraCalls (backwardOf (slotIn scaledParameter) p, 0)
            (turningState extraCalls c)).state.store := by
  obtain ⟨c, hc⟩ := exists_of_isOk
    (show (compileNodes [] (fun _ => true) scaledParameter none plainOptions).isOk = true from rfl)
  obtain ⟨layers, hplaces, hbackward, hlayers⟩ := results_reach_operands hc
  obtain ⟨⟨place, name, source, layer⟩, rfl, hp⟩ := List.map_eq_singleton_iff.mp hplaces
  obtain ⟨rfl, rfl⟩ : place = 1 ∧ layer = scaling := Prod.mk.inj hp
  have hfirst : CountedFirst (derNumber (slotIn scaledParameter) scaling) scaling.args := by
    intro q h hq _
    match q with
    | 0 => exact Nat.one_pos
    | 1 => cases hq
    | 2 => cases hq
  obtain ⟨-, hadds⟩ := hlayers _ (List.mem_singleton_self _) Extra.scaledAdjoint.fn rfl rfl
    (fun n hn => by cases hn) (fun x hx => by cases hx) hfirst extraCalls 0
    (turningState extraCalls c) (by cases hc; rfl)
  obtain ⟨out, hout, hadds⟩ := hadds (by cases hc; rfl)
  have hresult : ∃ x, adjointResults extraCalls (slotIn scaledParameter)
      (turningState extraCalls c).store 1 scaling = .ok [.real x] := by
    cases hc
    exact ⟨_, rfl⟩
  obtain ⟨x, hx⟩ := hresult
  obtain rfl : out = [.real x] := Except.ok.inj (hout.symm.trans hx)
  exact ⟨c, _, hc, hbackward, .real x, hx, hadds⟩

/-- The sum of an operand and a setting that is a node itself. -/
def mixing : Application ℚ :=
  ⟨⟨"mix", Extra.mix.fn, some Extra.mixAdjoint.fn, false, 0⟩,
    [.node ⟨0, .param, ""⟩, .text "with", .node ⟨1, .param, ""⟩], [], .same, .same, [], none⟩

/-- Two parameters and their sum, the second given by name. -/
def mixedParameters : List (Node ℚ) :=
  [⟨0, bareLabel, .param ⟨.real 2, .none, .none, .gradient⟩⟩,
    ⟨1, bareLabel, .param ⟨.real 5, .none, .none, .gradient⟩⟩, ⟨2, bareLabel, .layer mixing⟩]

/-- Three results are counted, and the third one is for the argument behind the text, which does not
get it. -/
theorem result_behind_text_is_lost :
    ∃ c p, compileNodes [] (fun _ => true) mixedParameters none plainOptions = .ok c ∧
      c.net.backward = [backwardOf (slotIn mixedParameters) p] ∧
      p.layer.op.scatter = false ∧ p.layer.op.adjoint = some Extra.mixAdjoint.fn ∧
      p.layer.derCount = none ∧ derNumber (slotIn mixedParameters) p.layer = 3 ∧
      ∃ out, out = [.real 1, .none, .real 1] ∧
        adjointResults extraCalls (slotIn mixedParameters) (turningState extraCalls c).store
          p.place p.layer = .ok out ∧
        shares (slotIn mixedParameters) id p.layer.args out = [(0, .real 1), (2, .real 1)] ∧
        (backwardStep extraCalls (backwardOf (slotIn mixedParameters) p, 0)
            (turningState extraCalls c)).error = none ∧
        ¬AddsShares (shares (slotIn mixedParameters) id p.layer.args out)
          (turningState extraCalls c).store
          (backwardStep extraCalls (backwardOf (slotIn mixedParameters) p, 0)
            (turningState extraCalls c)).state.store := by
  obtain ⟨c, hc⟩ := exists_of_isOk
    (show (compileNodes [] (fun _ => true) mixedParameters none plainOptions).isOk = true from rfl)
  obtain ⟨-, layers, hs⟩ := compileNodes_streams hc
  obtain ⟨⟨place, name, source, layer⟩, rfl, hp⟩ := List.map_eq_singleton_iff.mp hs.places
  obtain ⟨rfl, rfl⟩ : place = 2 ∧ layer = mixing := Prod.mk.inj hp
  refine ⟨c, _, hc, hs.backward, rfl, rfl, rfl, rfl, _, rfl, ?_, rfl, ?_, ?_⟩
  · cases hc
    rfl
  · cases hc
    rfl
  · intro hadds
    -- The second parameter's derivative slot still holds the zero of the reset.
    have hzero : (backwardStep extraCalls (backwardOf (slotIn mixedParameters)
        ⟨2, name, source, mixing⟩, 0) (turningState extraCalls c)).state.store.content 3
          = Store.zero := by
      cases hc
      rfl
    have hbefore : (turningState extraCalls c).store.content 3 = Store.zero := by
      cases hc
      rfl
    have hsum := hadds.content 3
    rw [hzero, hbefore] at hsum
    have hadd : (Store.zero : Value ℚ).plus (.real 1) = .ok (.real (0 + 1)) := rfl
    change [Value.real 1].foldlM Value.plus Store.zero = .ok Store.zero at hsum
    rw [List.foldlM_cons, hadd] at hsum
    have hreal : Value.real (0 + 1 : ℚ) = .real 0 := Except.ok.inj hsum
    exact one_ne_zero ((zero_add (1 : ℚ)).symm.trans (Value.real.inj hreal))

end SlotGrad
