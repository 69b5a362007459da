import SlotGrad.Proofs.Contributions
import SlotGrad.Proofs.StaleSlots

/-!
# Evaluation as a system of equations

A completed forward pass leaves a store on which every layer's op answers what the layer's value
slot holds, and a completed backward pass leaves one on which every derivative slot holds the sum of
what the adjoints answer.  The converse holds, too: an evaluation that has such a store before it
completes and ends with it.  So the equations decide whether an evaluation completes and with what,
and they do not mention the steps that it takes.

## Main definitions

* `Outcome.Leaves` — a run that completes and leaves a store.
* `Value.plus` — the sum in a slot, where the absent value counts as zero.
* `forwardLayer`, `backwardLayer` — what a layer's instructions do to a store.
* `adjointAnswer` — what is taken of a layer's adjoint.
* `Adds` — a store that comes from another by sums in derivative slots.

## Main results

* `forwardAll_eq_ok`, `backwardAll_eq_ok` — passes over layers as equations on the last store.
* `runForward_leaves`, `runBackward_leaves` — the same for streams of instructions.
-/

namespace SlotGrad

variable {F : Type}

/-! ### Runs that complete -/

/-- A run that completes and leaves a store. -/
def Outcome.Leaves (o : Outcome (RunState F)) (t : Store F) : Prop :=
  o.error = none ∧ o.state.store = t

theorem Outcome.leaves_done {r : RunState F} {t : Store F} :
    (Outcome.done r).Leaves t ↔ r.store = t :=
  ⟨fun h => h.2, fun h => ⟨rfl, h⟩⟩

theorem Outcome.not_leaves_stopped {r : RunState F} {e : Error} {t : Store F} :
    ¬ (Outcome.stopped r e).Leaves t := by
  rintro ⟨h, -⟩
  cases h

theorem Outcome.leaves_andThen {o : Outcome (RunState F)} {f : RunState F → Outcome (RunState F)}
    {t : Store F} : (o.andThen f).Leaves t ↔ o.error = none ∧ (f o.state).Leaves t := by
  unfold Leaves
  rw [andThen_completed]
  constructor
  · rintro ⟨⟨ho, hf⟩, ht⟩
    rw [andThen_state f ho] at ht
    exact ⟨ho, hf, ht⟩
  · rintro ⟨ho, hf, ht⟩
    rw [andThen_state f ho]
    exact ⟨⟨ho, hf⟩, ht⟩

/-- A change of the store alone. -/
theorem Outcome.leaves_attempt {r : RunState F} {x : Attempt (RunState F)} {t : Store F} :
    (Outcome.attempt r x).Leaves t ↔ ∃ r', x = .ok r' ∧ r'.store = t := by
  cases x with
  | ok r' => simp [attempt_ok, leaves_done]
  | error e => simp [attempt_error, not_leaves_stopped]

/-- A run whose steps are computations on stores is an accumulation of these. -/
theorem runAll_leaves {α β : Type} {step : α → RunState F → Outcome (RunState F)}
    {f : Store F → β → Attempt (Store F)} {I : Store F → Prop} {Q : α → β → Prop} {bs : List β}
    (hstep : ∀ a, ∀ b ∈ bs, Q a b → ∀ r t, I r.store → ((step a r).Leaves t ↔ f r.store b = .ok t))
    (hkeep : ∀ b ∈ bs, ∀ s t, I s → f s b = .ok t → I t) {as : List α} (hrel : List.Forall₂ Q as bs)
    {r : RunState F} (hr : I r.store) {t : Store F} :
    (runAll step as r).Leaves t ↔ bs.foldlM f r.store = .ok t := by
  induction hrel generalizing r with
  | nil => rw [runAll_nil, Outcome.leaves_done, List.foldlM_nil, pure_eq_ok]
  | @cons a b as bs hab _ ih =>
    have hfirst := hstep a b (List.mem_cons_self ..) hab r
    have ih := @ih (fun a c hc => hstep a c (List.mem_cons_of_mem _ hc))
      fun c hc => hkeep c (List.mem_cons_of_mem _ hc)
    rw [runAll_cons, Outcome.leaves_andThen, List.foldlM_cons, bind_eq_ok]
    constructor
    · rintro ⟨hdone, hrest⟩
      have hb := (hfirst _ hr).mp ⟨hdone, rfl⟩
      exact ⟨_, hb, (ih (hkeep b (List.mem_cons_self ..) _ _ hr hb)).mp hrest⟩
    · rintro ⟨s, hs, hrest⟩
      obtain ⟨hdone, rfl⟩ := (hfirst s hr).mpr hs
      exact ⟨hdone, (ih (hkeep b (List.mem_cons_self ..) _ _ hr hs)).mpr hrest⟩

section

variable {slotOf : Handle → Option Nat}

/-! ### The forward pass -/

/-- What a layer's forward instruction does to a store. -/
def forwardLayer (call : Calls F) (slotOf : Handle → Option Nat) (s : Store F) (p : Placed F) :
    Attempt (Store F) :=
  (layerCall call slotOf s p.layer).map (s.setAt (valueSlot p.place))

theorem forwardLayer_eq_ok {call : Calls F} {s t : Store F} {p : Placed F} :
    forwardLayer call slotOf s p = .ok t ↔
      ∃ v, layerCall call slotOf s p.layer = .ok v ∧ s.setAt (valueSlot p.place) v = t := by
  unfold forwardLayer
  cases layerCall call slotOf s p.layer <;> simp [Except.map]

/-- The forward pass ends with a store exactly if on that store every layer's op answers what its
value slot holds, and nothing but value slots of layers was changed. -/
theorem forwardAll_eq_ok {call : Calls F} :
    ∀ {layers : List (Placed F)} {s t : Store F}, WellPlaced slotOf s.size layers →
      (layers.foldlM (forwardLayer call slotOf) s = .ok t ↔
        t.size = s.size ∧
        (∀ p ∈ layers, layerCall call slotOf t p.layer = .ok (t.content (valueSlot p.place))) ∧
        ∀ k, (∀ p ∈ layers, k ≠ valueSlot p.place) → t.content k = s.content k) := by
  intro layers
  induction layers with
  | nil =>
    intro s t _
    rw [List.foldlM_nil, pure_eq_ok]
    constructor
    · rintro rfl
      exact ⟨rfl, by simp, fun _ _ => rfl⟩
    · rintro ⟨hsize, -, hcontent⟩
      exact (Store.ext_content hsize fun k => hcontent k (by simp)).symm
  | cons p ps ih =>
    intro s t hw
    have hplace := hw.value_lt (List.mem_cons_self ..)
    have hlater : ∀ q ∈ ps, p.place < q.place := (List.pairwise_cons.mp hw.increasing).1
    -- What the layer reads is never written from here on.
    have hcall : ∀ u : Store F, (∀ k, (∀ q ∈ p :: ps, k ≠ valueSlot q.place) →
        u.content k = s.content k) → layerCall call slotOf u p.layer
          = layerCall call slotOf s p.layer := by
      intro u hu
      refine hw.layerCall_eq (List.mem_cons_self ..) call fun j hj => hu _ fun q hq => ?_
      have hle : p.place ≤ q.place := by
        rcases List.mem_cons.mp hq with rfl | hq
        · exact Nat.le_refl _
        · exact Nat.le_of_lt (hlater q hq)
      have := valueSlot_lt_valueSlot.mpr (hj.trans_le hle)
      omega
    have hown : ∀ q ∈ ps, valueSlot p.place ≠ valueSlot q.place := fun q hq =>
      (valueSlot_lt_valueSlot.mpr (hlater q hq)).ne
    rw [List.foldlM_cons, bind_eq_ok]
    constructor
    · rintro ⟨u, hu, hrest⟩
      obtain ⟨v, hv, rfl⟩ := forwardLayer_eq_ok.mp hu
      obtain ⟨hsize, hcalls, hother⟩ := (ih (by rw [Store.size_setAt]; exact hw.tail)).mp hrest
      have hframe : ∀ k, (∀ q ∈ p :: ps, k ≠ valueSlot q.place) → t.content k = s.content k := by
        intro k hk
        rw [hother k fun q hq => hk q (List.mem_cons_of_mem _ hq)]
        exact Store.content_setAt_of_ne _ (hk p (List.mem_cons_self ..)) v
      refine ⟨by rw [hsize, Store.size_setAt], fun q hq => ?_, hframe⟩
      rcases List.mem_cons.mp hq with rfl | hq
      · rw [hcall t hframe, hv, hother _ hown, Store.content_setAt_self hplace]
      · exact hcalls q hq
    · rintro ⟨hsize, hcalls, hother⟩
      have hv := hcalls p (List.mem_cons_self ..)
      rw [hcall t hother] at hv
      -- The first layer computes what the final store holds, and the rest goes on from there.
      refine ⟨_, forwardLayer_eq_ok.mpr ⟨_, hv, rfl⟩, ?_⟩
      refine (ih (by rw [Store.size_setAt]; exact hw.tail)).mpr ⟨by rw [hsize, Store.size_setAt],
        fun q hq => hcalls q (List.mem_cons_of_mem _ hq), fun k hk => ?_⟩
      by_cases hkp : k = valueSlot p.place
      · rw [hkp, Store.content_setAt_self hplace]
      · rw [Store.content_setAt_of_ne _ hkp]
        refine hother k fun q hq => ?_
        rcases List.mem_cons.mp hq with rfl | hq
        · exact hkp
        · exact hk q hq

/-- The forward stream ends with a store exactly if the store satisfies the forward equations. -/
theorem runForward_leaves {call : Calls F} {stage : Stage} {layers : List (Placed F)}
    {r : RunState F} (hw : WellPlaced slotOf r.store.size layers) {t : Store F} :
    (runForward call stage (layers.map (forwardOf slotOf)) r).Leaves t ↔
      t.size = r.store.size ∧
      (∀ p ∈ layers, layerCall call slotOf t p.layer = .ok (t.content (valueSlot p.place))) ∧
      ∀ k, (∀ p ∈ layers, k ≠ valueSlot p.place) → t.content k = r.store.content k := by
  rw [← forwardAll_eq_ok hw]
  unfold runForward
  refine runAll_leaves (I := fun s => s.size = r.store.size) ?_ ?_ (forall₂_zipIdx_map _ _ _) rfl
  · rintro ⟨i, index⟩ p hp hq r' t hsize
    have hq : i = forwardOf slotOf p := hq
    subst hq
    have hsize : r'.store.size = r.store.size := hsize
    rw [forwardStep_forwardOf (hsize ▸ hw.slot_lt) (hsize ▸ hw.value_lt hp), forwardLayer_eq_ok,
      Outcome.leaves_attempt]
    cases layerCall call slotOf r'.store p.layer <;> simp [Except.map, RunState.record]
  · intro p _ s u hsize hu
    obtain ⟨v, -, rfl⟩ := forwardLayer_eq_ok.mp hu
    rw [Store.size_setAt]
    exact hsize

/-! ### What a layer's backward instruction does -/

variable [Arith F]

/-- The sum in a slot, where the absent value counts as zero. -/
def Value.plus (v w : Value F) : Fallible (Value F) := (if v.isNone then Store.zero else v).add w

/-- What is taken of a layer's adjoint; nothing is, and the adjoint is not called, if no derivatives
are asked for. -/
def adjointAnswer (call : Calls F) (c : Count F) (a : Application F) (args : List (Value F)) :
    Attempt (List (Value F)) :=
  if c.isActive then
    match a.op.adjoint with
    | none => .error (.noAdjoint a.op.name "" "")
    | some f => do
      let out ← call f ⟨args, a.kwargs⟩
      return takeResults (← c.taken) (resultsOf out)
  else .ok []

/-- Add the result at an operand's place to the operand's derivative, unless there is none or an
absent one. -/
def addResult (out : List (Value F)) (s : Store F) (b : Int × Int) : Attempt (Store F) := do
  match ← resultAt out b.2 with
  | none => return s
  | some v => if v.isNone then return s else return ← s.accumulate (derSlot b.1) v

/-- What the backward instruction of a layer does to a store. -/
def backwardLayer (call : Calls F) (slotOf : Handle → Option Nat) (s : Store F) (p : Placed F) :
    Attempt (Store F) := do
  let out ← adjointAnswer call (derCountOf slotOf p.layer) p.layer
    (adjointArguments slotOf s p.place p.layer.args)
  (adjointOperands slotOf p.layer.args).foldlM (addResult out) s

theorem contribute_leaves {out : List (Value F)} {b : Int × Int} {r : RunState F} {t : Store F} :
    (contribute out b r).Leaves t ↔ addResult out r.store b = .ok t := by
  unfold contribute addResult
  rw [Outcome.leaves_attempt]
  cases resultAt out b.2 with
  | error f => simp [liftM_eq_lift, Fallible.lift, bind, Except.bind, Except.mapError]
  | ok o =>
    cases o with
    | none => simp [liftM_eq_lift, bind, Except.bind, pure, Except.pure]
    | some v =>
      cases hv : v.isNone with
      | true => simp [hv, liftM_eq_lift, bind, Except.bind, pure, Except.pure]
      | false =>
        cases hsum : r.store.accumulate (derSlot b.1) v with
        | error f =>
          simp [hv, hsum, liftM_eq_lift, Fallible.lift, bind, Except.bind, Except.mapError]
        | ok u => simp [hv, hsum, liftM_eq_lift, bind, Except.bind, pure, Except.pure, RunState.put]

theorem adjointStep_leaves {call : Calls F} {p : Placed F} {args : List (Value F)}
    {r : RunState F} {t : Store F} (hactive : (derCountOf slotOf p.layer).isActive = true) :
    (adjointStep call (backwardOf slotOf p) (derCountOf slotOf p.layer) args r).Leaves t ↔
      ∃ out, adjointAnswer call (derCountOf slotOf p.layer) p.layer args = .ok out ∧
        (adjointOperands slotOf p.layer.args).foldlM (addResult out) r.store = .ok t := by
  have hrun : ∀ out : List (Value F),
      (runAll (contribute out) (operands (backwardOf slotOf p)) r).Leaves t ↔
        (adjointOperands slotOf p.layer.args).foldlM (addResult out) r.store = .ok t := by
    intro out
    rw [operands_backwardOf]
    exact runAll_leaves (I := fun _ => True) (Q := Eq)
      (fun a b _ hab r t _ => by rw [hab]; exact contribute_leaves) (fun _ _ _ _ _ _ => trivial)
      (List.forall₂_same.mpr fun _ _ => rfl) trivial
  unfold adjointStep adjointAnswer
  rw [if_pos hactive]
  have hfunction : (backwardOf slotOf p).function? = p.layer.op.adjoint := rfl
  have hkwargs : (backwardOf slotOf p).kwargs = p.layer.kwargs := rfl
  dsimp only
  rw [hfunction, hkwargs]
  cases p.layer.op.adjoint with
  | none => simp [Outcome.not_leaves_stopped, throw, throwThe, MonadExceptOf.throw]
  | some f =>
    dsimp only
    cases call f ⟨args, p.layer.kwargs⟩ with
    | error e => simp [Outcome.not_leaves_stopped, bind, Except.bind]
    | ok v =>
      cases (derCountOf slotOf p.layer).taken with
      | error e =>
        simp [Outcome.not_leaves_stopped, liftM_eq_lift, Fallible.lift, bind, Except.bind,
          Except.mapError]
      | ok n => simp [hrun, liftM_eq_lift, bind, Except.bind, pure, Except.pure]

/-- The backward instruction of a layer that is no indexing layer is a computation on the store. -/
theorem backwardStep_leaves {call : Calls F} {p : Placed F} {index : Nat} {r : RunState F}
    {t : Store F} (hslots : ∀ h k, slotOf h = some k → k < r.store.size)
    (hplace : valueSlot p.place + 1 < r.store.size) (hscatter : p.layer.op.scatter = false) :
    (backwardStep call (backwardOf slotOf p, index) r).Leaves t ↔
      backwardLayer call slotOf r.store p = .ok t := by
  have hrecord : ∀ o : Outcome (RunState F),
      (o.andThen fun r => .done (r.record index .backward (backwardOf slotOf p))).Leaves t ↔
        o.Leaves t := by
    intro o
    rw [Outcome.leaves_andThen, Outcome.leaves_done]
    rfl
  have hsc : ¬ (backwardOf slotOf p).op.scatter = true := by
    change ¬ p.layer.op.scatter = true
    rw [hscatter]
    exact Bool.false_ne_true
  have hder : (backwardOf slotOf p).derCount = some (derCountOf slotOf p.layer) := rfl
  unfold backwardStep
  dsimp only
  rw [hrecord, backwardOf_bind hslots p hplace]
  dsimp only
  rw [if_neg hsc, hder]
  dsimp only
  unfold backwardLayer
  rw [bind_eq_ok]
  cases hactive : (derCountOf slotOf p.layer).isActive with
  | true => rw [if_pos rfl, adjointStep_leaves hactive]
  | false =>
    rw [if_neg Bool.false_ne_true, Outcome.leaves_done]
    have hanswer : ∀ args, adjointAnswer call (derCountOf slotOf p.layer) p.layer args
        = .ok [] := by
      intro args
      unfold adjointAnswer
      rw [if_neg (by simp [hactive])]
    -- Of no answers nothing is added, whichever operands there are.
    have hnothing : ∀ bs : List (Int × Int), (∀ b ∈ bs, 0 ≤ b.2) →
        bs.foldlM (addResult ([] : List (Value F))) r.store = .ok r.store := by
      intro bs
      induction bs with
      | nil => exact fun _ => rfl
      | cons b bs ih =>
        intro hbs
        have hnone : resultAt ([] : List (Value F)) b.2 = .ok none := by
          unfold resultAt
          rw [if_pos (by simpa using hbs b (List.mem_cons_self ..))]
        have hb : addResult ([] : List (Value F)) r.store b = .ok r.store := by
          unfold addResult
          rw [hnone]
          rfl
        rw [List.foldlM_cons, hb]
        exact ih fun c hc => hbs c (List.mem_cons_of_mem _ hc)
    have hplaces : ∀ b ∈ adjointOperands slotOf p.layer.args, 0 ≤ b.2 := by
      intro b hb
      rcases List.mem_append.mp hb with hb | hb
      all_goals
        obtain ⟨q, h, k, -, -, rfl⟩ := mem_operandSlots.mp hb
        exact Int.natCast_nonneg _
    simp only [hanswer, Except.ok.injEq, exists_eq_left', hnothing _ hplaces]

end

/-! ### Sums in derivative slots -/

section

variable [Arith F]

/-- The store comes from another by adding values into derivative slots, for each node in order. -/
structure Adds (added : Nat → List (Value F)) (s t : Store F) : Prop where
  /-- The stores have one size. -/
  size : t.size = s.size
  /-- Value slots are the same. -/
  values : ∀ k, k % 2 = 0 → t.content k = s.content k
  /-- Every derivative slot holds the sum from the left. -/
  ders : ∀ n, valueSlot n + 1 < s.size →
    (added n).foldlM Value.plus (s.content (valueSlot n + 1)) = .ok (t.content (valueSlot n + 1))

/-- A slot into which nothing is added keeps its content. -/
theorem Adds.content_eq {added : Nat → List (Value F)} {s t : Store F}
    (h : Adds added s t) {n : Nat} (hn : added n = []) :
    t.content (valueSlot n + 1) = s.content (valueSlot n + 1) := by
  by_cases hlt : valueSlot n + 1 < s.size
  · have hders := h.ders n hlt
    rw [hn, List.foldlM_nil, pure_eq_ok] at hders
    exact hders.symm
  · rw [Store.content_of_le (by have := h.size; omega), Store.content_of_le (by omega)]

/-- Nothing is added exactly between equal stores. -/
theorem adds_nil {s t : Store F} : Adds (fun _ => []) s t ↔ s = t := by
  constructor
  · intro h
    refine (Store.ext_content h.size fun k => ?_).symm
    rcases Nat.mod_two_eq_zero_or_one k with heven | hodd
    · exact h.values k heven
    · obtain ⟨j, rfl⟩ := exists_valueSlot_succ hodd
      exact h.content_eq rfl
  · rintro rfl
    exact ⟨rfl, fun _ _ => rfl, fun _ _ => rfl⟩

/-- The store with values added into the derivative slots; where a sum does not exist, the slot is
left alone. -/
def Store.addAll (added : Nat → List (Value F)) (s : Store F) : Store F :=
  ⟨s.slots.mapIdx fun k v =>
    if k % 2 = 1 then
      match (added (k / 2)).foldlM Value.plus v with
      | .ok w => w
      | .error _ => v
    else v, by simpa using s.even⟩

theorem Store.adds_addAll (added : Nat → List (Value F)) (s : Store F)
    (h : ∀ n, valueSlot n + 1 < s.size →
      ∃ w, (added n).foldlM Value.plus (s.content (valueSlot n + 1)) = .ok w) :
    Adds added s (s.addAll added) := by
  have hsize : (s.addAll added).size = s.size := by simp [size, addAll]
  have hcontent : ∀ k, k < s.size → (s.addAll added).content k
      = if k % 2 = 1 then
          match (added (k / 2)).foldlM Value.plus (s.content k) with
          | .ok w => w
          | .error _ => s.content k
        else s.content k := by
    intro k hk
    unfold content addAll
    rw [Array.getElem?_mapIdx, Array.getElem?_eq_getElem hk]
    rfl
  refine ⟨hsize, fun k hk => ?_, fun n hn => ?_⟩
  · by_cases hlt : k < s.size
    · rw [hcontent k hlt, if_neg (by omega)]
    · rw [content_of_le (by omega), content_of_le (by omega)]
  · obtain ⟨w, hw⟩ := h n hn
    rw [hcontent _ hn, if_pos (valueSlot_succ_mod_two n), valueSlot_succ_div_two, hw]

/-- Values are added in two goes exactly if they can be added one after another. -/
theorem adds_append {a b : Nat → List (Value F)} {s t : Store F} :
    Adds (fun n => a n ++ b n) s t ↔ ∃ u, Adds a s u ∧ Adds b u t := by
  constructor
  · intro h
    have hmid : ∀ n, valueSlot n + 1 < s.size → ∃ w,
        (a n).foldlM Value.plus (s.content (valueSlot n + 1)) = .ok w ∧
          (b n).foldlM Value.plus w = .ok (t.content (valueSlot n + 1)) :=
      fun n hn => foldlM_append_eq_ok.mp (h.ders n hn)
    have hfirst := Store.adds_addAll a s fun n hn =>
      (hmid n hn).imp fun _ hw => hw.1
    refine ⟨s.addAll a, hfirst, h.size.trans hfirst.size.symm,
      fun k hk => (h.values k hk).trans (hfirst.values k hk).symm, fun n hn => ?_⟩
    rw [hfirst.size] at hn
    obtain ⟨w, hw, hrest⟩ := hmid n hn
    have hsum := hfirst.ders n hn
    rw [hw] at hsum
    rw [← Except.ok.inj hsum]
    exact hrest
  · rintro ⟨u, hfirst, hsecond⟩
    refine ⟨hsecond.size.trans hfirst.size, fun k hk =>
      (hsecond.values k hk).trans (hfirst.values k hk), fun n hn => ?_⟩
    exact foldlM_append_eq_ok.mpr ⟨_, hfirst.ders n hn, hsecond.ders n (hfirst.size ▸ hn)⟩

theorem Store.accumulate_natCast_eq_ok {s t : Store F} {k : Nat} {v : Value F} (hk : k < s.size) :
    s.accumulate (k : Int) v = .ok t ↔
      ∃ u, (s.content k).plus v = .ok u ∧ s.setAt k u = t := by
  rw [Store.accumulate_eq_ok, Store.get_natCast hk]
  constructor
  · rintro ⟨w, u, hw, hu, ht⟩
    cases hw
    exact ⟨u, hu, (Store.set_natCast_eq_ok.mp ht).2⟩
  · rintro ⟨u, hu, rfl⟩
    exact ⟨_, u, rfl, hu, Store.set_natCast hk u⟩

/-- A single value is added to a slot. -/
theorem adds_single {j : Nat} {v : Value F} {s t : Store F} (hj : valueSlot j + 1 < s.size) :
    Adds (fun n => if n = j then [v] else []) s t ↔
      ∃ u, (s.content (valueSlot j + 1)).plus v = .ok u ∧ s.setAt (valueSlot j + 1) u = t := by
  have hfold : ∀ c u : Value F, [v].foldlM Value.plus c = .ok u ↔ c.plus v = .ok u := by
    intro c u
    rw [List.foldlM_cons, bind_eq_ok]
    simp [pure_eq_ok]
  constructor
  · intro h
    have hsum := h.ders j hj
    rw [if_pos rfl, hfold] at hsum
    refine ⟨_, hsum, Store.ext_content (by rw [Store.size_setAt, h.size]) fun k => ?_⟩
    by_cases hk : k = valueSlot j + 1
    · rw [hk, Store.content_setAt_self hj]
    · rw [Store.content_setAt_of_ne _ hk]
      rcases Nat.mod_two_eq_zero_or_one k with heven | hodd
      · exact (h.values k heven).symm
      · obtain ⟨n, rfl⟩ := exists_valueSlot_succ hodd
        exact (h.content_eq (if_neg (by simpa using hk))).symm
  · rintro ⟨u, hu, rfl⟩
    refine ⟨Store.size_setAt .., fun k hk =>
      Store.content_setAt_of_ne _ (ne_valueSlot_succ hk j) u, fun n hn => ?_⟩
    by_cases hnj : n = j
    · subst hnj
      rw [if_pos rfl, hfold, hu, Store.content_setAt_self hn]
    · rw [if_neg hnj, Store.content_setAt_of_ne _ (by simpa using hnj)]
      rfl

omit [Arith F] in
/-- What a single operand picks of the results. -/
theorem picks_single (out : List (Value F)) (n j q : Nat) :
    picks out n [(((valueSlot j : Nat) : Int), (q : Int))]
      = if n = j then ((out[q]?).filter fun v => !v.isNone).toList else [] := by
  have hiff : ((valueSlot j : Nat) : Int) = ((valueSlot n : Nat) : Int) ↔ n = j :=
    natCast_valueSlot_inj.trans eq_comm
  unfold picks
  by_cases hn : n = j
  · rw [if_pos hn, List.filterMap_cons, if_pos (hiff.mpr hn), Int.toNat_natCast]
    cases (out[q]?).filter fun v => !v.isNone <;> rfl
  · rw [if_neg hn, List.filterMap_cons, if_neg fun h => hn (hiff.mp h)]
    rfl

/-- One result is added to the derivative of its operand. -/
theorem addResult_eq_ok {out : List (Value F)} {j q : Nat} {s t : Store F}
    (hj : valueSlot j + 1 < s.size) :
    addResult out s (((valueSlot j : Nat) : Int), (q : Int)) = .ok t ↔
      Adds (fun n => picks out n [(((valueSlot j : Nat) : Int), (q : Int))]) s t := by
  simp only [picks_single]
  unfold addResult
  dsimp only
  rw [resultAt_natCast]
  cases hfilter : (out[q]?).filter fun v => !v.isNone with
  | none =>
    -- There is no result, or an absent one.
    have hsame : Adds (fun n => if n = j then (none : Option (Value F)).toList else []) s t ↔
        s = t := by
      rw [← adds_nil]
      simp
    rw [hsame]
    cases hout : out[q]? with
    | none => exact pure_eq_ok
    | some v =>
      have hv : v.isNone = true := by simpa [hout, Option.filter] using hfilter
      simp only [liftM_eq_lift, Fallible.lift_ok, bind, Except.bind]
      rw [if_pos hv]
      exact pure_eq_ok
  | some v =>
    obtain ⟨hout, hv⟩ := Option.filter_eq_some_iff.mp hfilter
    have hslot : derSlot ((valueSlot j : Nat) : Int) = ((valueSlot j + 1 : Nat) : Int) := rfl
    rw [hout]
    simp only [liftM_eq_lift, Fallible.lift_ok, bind, Except.bind]
    rw [if_neg (by simpa using hv), hslot, Option.toList_some, adds_single hj,
      ← Store.accumulate_natCast_eq_ok hj, ← lift_eq_ok]

/-- The results of one layer are added, in the order of the operands. -/
theorem foldlM_addResult_eq_ok {out : List (Value F)} :
    ∀ {bs : List (Int × Int)} {s t : Store F},
      (∀ b ∈ bs, ∃ j q : Nat, b = (((valueSlot j : Nat) : Int), (q : Int)) ∧
        valueSlot j + 1 < s.size) →
      (bs.foldlM (addResult out) s = .ok t ↔ Adds (fun n => picks out n bs) s t) := by
  intro bs
  induction bs with
  | nil =>
    intro s t _
    rw [List.foldlM_nil, pure_eq_ok, ← adds_nil]
    simp [picks]
  | cons b bs ih =>
    intro s t hbs
    obtain ⟨j, q, rfl, hj⟩ := hbs b (List.mem_cons_self ..)
    have hsplit : (fun n => picks out n ((((valueSlot j : Nat) : Int), (q : Int)) :: bs))
        = fun n => picks out n [(((valueSlot j : Nat) : Int), (q : Int))] ++ picks out n bs := by
      funext n
      unfold picks
      rw [← List.filterMap_append]
      rfl
    rw [hsplit, adds_append, List.foldlM_cons, bind_eq_ok]
    refine exists_congr fun u => ?_
    rw [addResult_eq_ok hj]
    refine and_congr_right fun hu => ih fun b' hb' => ?_
    obtain ⟨j', q', rfl, hj'⟩ := hbs b' (List.mem_cons_of_mem _ hb')
    exact ⟨j', q', rfl, hu.size ▸ hj'⟩

/-! ### The backward pass -/

variable {slotOf : Handle → Option Nat}

omit [Arith F] in
/-- What an adjoint is called with depends on the values that the layer reads and on its own
derivative. -/
theorem adjointArguments_congr {s t : Store F} {place : Nat} {args : List (Value F)}
    (hargs : ∀ v ∈ args, t.argument slotOf v = s.argument slotOf v)
    (hder : t.content (valueSlot place + 1) = s.content (valueSlot place + 1)) :
    adjointArguments slotOf t place args = adjointArguments slotOf s place args := by
  unfold adjointArguments
  rw [hder, List.map_congr_left fun v hv => hargs v (List.mem_of_mem_take hv),
    List.map_congr_left fun v hv => hargs v (List.mem_of_mem_drop hv)]

omit [Arith F] in
/-- The operands of a layer are the nodes among its arguments. -/
theorem exists_of_mem_adjointOperands {args : List (Value F)} {b : Int × Int}
    (hb : b ∈ adjointOperands slotOf args) :
    ∃ (q : Nat) (h : Handle) (k : Nat), Value.node h ∈ args ∧ slotOf h = some k ∧
      b = ((k : Int), (q : Int)) := by
  rcases List.mem_append.mp hb with hb | hb
  · obtain ⟨q, h, k, hq, hk, rfl⟩ := mem_operandSlots.mp hb
    exact ⟨0 + q, h, k, List.mem_of_mem_take (List.mem_of_getElem? hq), hk, rfl⟩
  · obtain ⟨q, h, k, hq, hk, rfl⟩ := mem_operandSlots.mp hb
    exact ⟨_, h, k, List.mem_of_mem_drop (List.mem_of_getElem? hq), hk, rfl⟩

omit [Arith F] in
/-- The operands of a well placed layer are nodes at smaller places. -/
theorem WellPlaced.operands {size : Nat} {layers : List (Placed F)}
    (hw : WellPlaced slotOf size layers) {p : Placed F} (hp : p ∈ layers) {b : Int × Int}
    (hb : b ∈ adjointOperands slotOf p.layer.args) :
    ∃ j q : Nat, b = (((valueSlot j : Nat) : Int), (q : Int)) ∧ j < p.place := by
  obtain ⟨q, h, k, hh, hk, rfl⟩ := exists_of_mem_adjointOperands hb
  obtain ⟨j, hj, hslot⟩ := hw.earlier p hp h hh
  rw [hk] at hslot
  cases hslot
  exact ⟨j, q, rfl, hj⟩

omit [Arith F] in
/-- The operands of a layer have smaller places. -/
theorem WellPlaced.operand_lt {size : Nat} {layers : List (Placed F)}
    (hw : WellPlaced slotOf size layers) {p : Placed F} (hp : p ∈ layers) {j q : Nat}
    (hjq : (((valueSlot j : Nat) : Int), (q : Int)) ∈ adjointOperands slotOf p.layer.args) :
    j < p.place := by
  obtain ⟨j', q', heq, hj⟩ := hw.operands hp hjq
  rwa [natCast_valueSlot_inj.mp (congrArg Prod.fst heq)]

omit [Arith F] in
/-- A layer adds nothing to derivatives of places from its own on. -/
theorem WellPlaced.picks_eq_nil {size : Nat} {layers : List (Placed F)}
    (hw : WellPlaced slotOf size layers) {p : Placed F} (hp : p ∈ layers) {n : Nat}
    (hn : p.place ≤ n) (out : List (Value F)) :
    picks out n (adjointOperands slotOf p.layer.args) = [] := by
  unfold picks
  rw [List.filterMap_eq_nil_iff]
  intro b hb
  obtain ⟨j, q, rfl, hj⟩ := hw.operands hp hb
  exact if_neg fun heq => absurd (natCast_valueSlot_inj.mp heq) (by omega)

/-- The backward instruction of a well placed layer adds what is taken of the adjoint on the
store. -/
theorem backwardLayer_eq_ok {call : Calls F} {layers : List (Placed F)} {s t : Store F}
    (hw : WellPlaced slotOf s.size layers) {p : Placed F} (hp : p ∈ layers) :
    backwardLayer call slotOf s p = .ok t ↔
      ∃ out, adjointAnswer call (derCountOf slotOf p.layer) p.layer
          (adjointArguments slotOf s p.place p.layer.args) = .ok out ∧
        Adds (fun n => picks out n (adjointOperands slotOf p.layer.args)) s t := by
  unfold backwardLayer
  rw [bind_eq_ok]
  refine exists_congr fun out => and_congr_right fun _ => foldlM_addResult_eq_ok fun b hb => ?_
  obtain ⟨j, q, rfl, hj⟩ := hw.operands hp hb
  have hplace := hw.inStore p hp
  have := valueSlot_lt_valueSlot.mpr hj
  exact ⟨j, q, rfl, by omega⟩

/-- What the layers of a list add, each by its own results. -/
def addedBy (slotOf : Handle → Option Nat) (out : Nat → List (Value F)) (ls : List (Placed F))
    (n : Nat) : List (Value F) :=
  ls.flatMap fun p => picks (out p.place) n (adjointOperands slotOf p.layer.args)

/-- The backward pass ends with a store exactly if every derivative slot holds the sum of what the
layers' adjoints answer on that store. -/
theorem backwardAll_eq_ok (call : Calls F) {layers : List (Placed F)} {size : Nat}
    (hw : WellPlaced slotOf size layers) :
    ∀ (ls : List (Placed F)), (∀ p ∈ ls, p ∈ layers) →
      ls.Pairwise (fun p q => q.place < p.place) → ∀ {s t : Store F}, s.size = size →
        (ls.foldlM (backwardLayer call slotOf) s = .ok t ↔
          ∃ out : Nat → List (Value F),
            (∀ p ∈ ls, adjointAnswer call (derCountOf slotOf p.layer) p.layer
              (adjointArguments slotOf t p.place p.layer.args) = .ok (out p.place)) ∧
            Adds (addedBy slotOf out ls) s t) := by
  intro ls
  induction ls with
  | nil =>
    intro _ _ s t _
    rw [List.foldlM_nil, pure_eq_ok, ← adds_nil]
    constructor
    · intro h
      exact ⟨fun _ => [], by simp, h⟩
    · rintro ⟨out, -, h⟩
      exact h
  | cons p ls ih =>
    intro hmem hdec s t hsize
    have hp := hmem p (List.mem_cons_self ..)
    have hlater : ∀ q ∈ ls, q.place < p.place := (List.pairwise_cons.mp hdec).1
    have hws : WellPlaced slotOf s.size layers := hsize ▸ hw
    -- The layer's own derivative is final when the layer runs, and values do not change.
    have hfinal : ∀ (o : List (Value F)) (out : Nat → List (Value F)) (u : Store F),
        Adds (fun n => picks o n (adjointOperands slotOf p.layer.args)) s u →
          Adds (addedBy slotOf out ls) u t →
            adjointArguments slotOf t p.place p.layer.args
              = adjointArguments slotOf s p.place p.layer.args := by
      intro o out u hu ht
      have hlast : addedBy slotOf out ls p.place = [] :=
        List.flatMap_eq_nil_iff.mpr fun q hq => hw.picks_eq_nil
          (hmem q (List.mem_cons_of_mem _ hq)) (Nat.le_of_lt (hlater q hq)) _
      refine adjointArguments_congr ?_ ?_
      · intro v hv
        refine Store.argument_congr ?_
        rintro n k rfl hk
        obtain ⟨j, -, hslot⟩ := hw.earlier p hp n hv
        rw [hk] at hslot
        cases hslot
        rw [ht.values _ (valueSlot_mod_two j), hu.values _ (valueSlot_mod_two j)]
      · rw [ht.content_eq hlast, hu.content_eq (hw.picks_eq_nil hp (Nat.le_refl _) o)]
    rw [List.foldlM_cons, bind_eq_ok]
    constructor
    · rintro ⟨u, hu, hrest⟩
      obtain ⟨o, ho, hadds⟩ := (backwardLayer_eq_ok hws hp).mp hu
      obtain ⟨out, hout, hrest⟩ := (ih (fun q hq => hmem q (List.mem_cons_of_mem _ hq))
        (List.pairwise_cons.mp hdec).2 (hadds.size.trans hsize)).mp hrest
      have hne : ∀ q ∈ ls, q.place ≠ p.place := fun q hq => Nat.ne_of_lt (hlater q hq)
      -- The layer's own answers are put before those of the layers that follow.
      have hsame : ∀ n, addedBy slotOf (Function.update out p.place o) (p :: ls) n
          = picks o n (adjointOperands slotOf p.layer.args) ++ addedBy slotOf out ls n := by
        intro n
        unfold addedBy
        rw [List.flatMap_cons, Function.update_self]
        congr 1
        refine List.flatMap_congr fun q hq => ?_
        rw [Function.update_of_ne (hne q hq)]
      refine ⟨Function.update out p.place o, fun q hq => ?_, ?_⟩
      · rcases List.mem_cons.mp hq with rfl | hq
        · rw [Function.update_self, hfinal o out u hadds hrest]
          exact ho
        · rw [Function.update_of_ne (hne q hq)]
          exact hout q hq
      · rw [show addedBy slotOf (Function.update out p.place o) (p :: ls) = _ from funext hsame]
        exact adds_append.mpr ⟨u, hadds, hrest⟩
    · rintro ⟨out, hout, hadds⟩
      obtain ⟨u, hu, hrest⟩ := adds_append.mp hadds
      have ho := hout p (List.mem_cons_self ..)
      rw [hfinal _ out u hu hrest] at ho
      refine ⟨u, (backwardLayer_eq_ok hws hp).mpr ⟨_, ho, hu⟩, ?_⟩
      exact (ih (fun q hq => hmem q (List.mem_cons_of_mem _ hq)) (List.pairwise_cons.mp hdec).2
        (hu.size.trans hsize)).mpr ⟨out, fun q hq => hout q (List.mem_cons_of_mem _ hq), hrest⟩

/-- The backward stream ends with a store exactly if the store satisfies the backward equations. -/
theorem runBackward_leaves {call : Calls F} {layers : List (Placed F)} {r : RunState F}
    (hw : WellPlaced slotOf r.store.size layers)
    (hscatter : ∀ p ∈ layers, p.layer.op.scatter = false) {t : Store F} :
    (runBackward call (layers.reverse.map (backwardOf slotOf)) r).Leaves t ↔
      ∃ out : Nat → List (Value F),
        (∀ p ∈ layers, adjointAnswer call (derCountOf slotOf p.layer) p.layer
          (adjointArguments slotOf t p.place p.layer.args) = .ok (out p.place)) ∧
        Adds (addedBy slotOf out layers.reverse) r.store t := by
  have hall := backwardAll_eq_ok call hw layers.reverse
    (fun p hp => List.mem_reverse.mp hp) (List.pairwise_reverse.mpr hw.increasing)
    (s := r.store) (t := t) rfl
  simp only [List.mem_reverse] at hall
  rw [← hall]
  unfold runBackward
  refine runAll_leaves (I := fun s => s.size = r.store.size) (r := { r with owned := [] }) ?_ ?_
    (forall₂_zipIdx_map _ _ _) rfl
  · rintro ⟨i, index⟩ p hp hq r' t hsize
    have hq : i = backwardOf slotOf p := hq
    subst hq
    have hsize : r'.store.size = r.store.size := hsize
    have hp := List.mem_reverse.mp hp
    exact backwardStep_leaves (hsize ▸ hw.slot_lt) (hsize ▸ hw.inStore p hp) (hscatter p hp)
  · intro p hp s u hsize hu
    have hsize : s.size = r.store.size := hsize
    obtain ⟨o, -, hadds⟩ := (backwardLayer_eq_ok (hsize ▸ hw) (List.mem_reverse.mp hp)).mp hu
    exact hadds.size.trans hsize

end

/-! ### A whole evaluation -/

section

variable {nodes : List (Node F)} {layers : List (Placed F)} {net : CompiledNet F}

/-- The store with the value slots of another one. -/
def Store.withValues (s t : Store F) : Store F :=
  ⟨s.slots.mapIdx fun k v => if k % 2 = 0 then t.content k else v, by simpa using s.even⟩

@[simp] theorem Store.size_withValues (s t : Store F) : (s.withValues t).size = s.size := by
  simp [size, withValues]

theorem Store.content_withValues {s t : Store F} (hsize : t.size = s.size) (k : Nat) :
    (s.withValues t).content k = if k % 2 = 0 then t.content k else s.content k := by
  by_cases hk : k < s.size
  · unfold content withValues
    rw [Array.getElem?_mapIdx, Array.getElem?_eq_getElem hk]
    rfl
  · rw [content_of_le (by simp; omega), content_of_le (s := t) (by omega),
      content_of_le (s := s) (by omega), ite_self]

variable [Arith F]

/-- What the derivative of the node at a place starts from: the seed for the last one, and zero for
any other one unless it is a parameter whose derivative is kept. -/
def startAt (nodes : List (Node F)) (o : EvalOptions F) (s : Store F) (k : Nat) : Value F :=
  if k + 1 = nodes.length then o.seed
  else if o.accumulate = true ∧ (nodes[k]?).map Node.kind = some .param then
    s.content (valueSlot k + 1)
  else Store.zero

/-- What a derivative starts from depends on its own slot only. -/
theorem startAt_congr {o : EvalOptions F} {s t : Store F} {k : Nat}
    (h : t.content (valueSlot k + 1) = s.content (valueSlot k + 1)) :
    startAt nodes o s k = startAt nodes o t k := by
  unfold startAt
  rw [h]

/-- Before the backward pass every derivative is what it starts from, and values are as they
were. -/
theorem seedDers_start {o : EvalOptions F} (hkept : ∀ slot, slot ∈ keptSlots net o ↔
      o.accumulate = true ∧ ∃ k, (nodes[k]?).map Node.kind = some .param ∧
        slot = ((valueSlot k + 1 : Nat) : Int)) {r : RunState F}
    (hsize : r.store.size = 2 * nodes.length) (hne : nodes ≠ []) :
    (seedDers net o r).error = none ∧
      (seedDers net o r).state.store.size = 2 * nodes.length ∧
      (∀ k, k % 2 = 0 → (seedDers net o r).state.store.content k = r.store.content k) ∧
      ∀ k, k < nodes.length → (seedDers net o r).state.store.content (valueSlot k + 1)
        = startAt nodes o r.store k := by
  have hpos : 0 < nodes.length := List.length_pos_iff.mpr hne
  have hreset : (r.store.resetDers (keptSlots net o)).size = 2 * nodes.length := by
    rw [Store.size_resetDers, hsize]
  have hlast : ((r.store.resetDers (keptSlots net o)).size : Int) - 1
      = ((2 * nodes.length - 1 : Nat) : Int) := by
    omega
  have hseeded : seedDers net o r = .done { r with
      store := (r.store.resetDers (keptSlots net o)).setAt (2 * nodes.length - 1) o.seed } := by
    rw [seedDers_eq net o r rfl, hlast, Store.set_natCast (by omega)]
  refine ⟨by rw [hseeded]; rfl, ?_, fun k hk => (seedDers_frame hk).2, fun k hk => ?_⟩
  · rw [(seedDers_frame (k := 0) rfl).1, hsize]
  · rw [hseeded]
    change ((r.store.resetDers (keptSlots net o)).setAt (2 * nodes.length - 1) o.seed).content
      (valueSlot k + 1) = _
    unfold startAt
    -- The seed is put at the last node; all others were reset, or kept.
    by_cases hroot : k + 1 = nodes.length
    · rw [if_pos hroot, valueSlot_succ_eq_last.mpr hroot, Store.content_setAt_self (by omega)]
    · have hparam : ((valueSlot k + 1 : Nat) : Int) ∈ keptSlots net o ↔
          o.accumulate = true ∧ (nodes[k]?).map Node.kind = some .param := by
        rw [hkept]
        refine and_congr_right fun _ => ⟨?_, fun h => ⟨k, h, rfl⟩⟩
        rintro ⟨j, hj, heq⟩
        obtain rfl : k = j := by simpa using Int.ofNat_inj.mp heq
        exact hj
      rw [if_neg hroot, Store.content_setAt_of_ne _ (mt valueSlot_succ_eq_last.mp hroot),
        Store.content_resetDers (hsize ▸ valueSlot_succ_lt.mpr hk)]
      unfold Store.resetSlot
      by_cases hkeep : ((valueSlot k + 1 : Nat) : Int) ∈ keptSlots net o
      · rw [if_neg fun h => h.2 hkeep, if_pos (hparam.mp hkeep)]
      · rw [if_pos ⟨valueSlot_succ_mod_two k, hkeep⟩, if_neg fun h => hkeep (hparam.mpr h)]

/-- **Evaluation as a system of equations.**  An evaluation in normal mode of a net without indexing
layers completes with a store exactly if on that store every layer's op answers what the layer's
value slot holds, inputs and parameters have their values, and every derivative slot holds the sum
of its start and what the layers' adjoints answer, the last layer first. -/
theorem Streams.evaluate_leaves (h : Streams nodes layers net) (ho : Ordered nodes)
    (hne : nodes ≠ []) {o : EvalOptions F} (hkept : ∀ slot, slot ∈ keptSlots net o ↔
      o.accumulate = true ∧ ∃ k, (nodes[k]?).map Node.kind = some .param ∧
        slot = ((valueSlot k + 1 : Nat) : Int))
    (hscatter : ∀ p ∈ layers, p.layer.op.scatter = false) {call : Calls F}
    {r : RunState F} (hseed : isEmptySeed o.seed = false)
    (hsize : r.store.size = 2 * nodes.length) {t : Store F} :
    (evaluate call net .normal o r).Leaves t ↔
      t.size = 2 * nodes.length ∧
      (∀ p ∈ layers, layerCall call (slotIn nodes) t p.layer
        = .ok (t.content (valueSlot p.place))) ∧
      (∀ k n, nodes[k]? = some n → n.application? = none →
        t.content (valueSlot k) = r.store.content (valueSlot k)) ∧
      ∃ out : Nat → List (Value F),
        (∀ p ∈ layers, adjointAnswer call (derCountOf (slotIn nodes) p.layer) p.layer
          (adjointArguments (slotIn nodes) t p.place p.layer.args) = .ok (out p.place)) ∧
        ∀ k, k < nodes.length →
          (addedBy (slotIn nodes) out layers.reverse k).foldlM Value.plus
            (startAt nodes o r.store k) = .ok (t.content (valueSlot k + 1)) := by
  have hw := h.wellPlaced ho
  have hcheck : checkRequest net .normal o r.store = .ok () := by
    have hnum := h.numVars
    unfold checkRequest
    rw [if_neg (by simp [hseed])]
    simp [hsize, hnum, pure, Except.pure]
  -- What a layer's op answers depends on value slots only.
  have hcongr : ∀ u v : Store F, (∀ k, k % 2 = 0 → v.content k = u.content k) → ∀ p ∈ layers,
      layerCall call (slotIn nodes) v p.layer = layerCall call (slotIn nodes) u p.layer := by
    exact fun u v huv p hp => hw.layerCall_eq hp call fun j _ => huv _ (valueSlot_mod_two j)
  unfold evaluate
  rw [hcheck]
  dsimp only
  rw [Outcome.andThen_assoc, Outcome.leaves_andThen, h.forward, h.backward]
  constructor
  · rintro ⟨hforward, hrest⟩
    obtain ⟨hfsize, hcalls, hframe⟩ := (runForward_leaves (hsize ▸ hw)).mp ⟨hforward, rfl⟩
    generalize (runForward call .forward (layers.map (forwardOf (slotIn nodes))) r).state = u
      at hrest hfsize hcalls hframe
    obtain ⟨-, hssize, hvalues, hstart⟩ :=
      seedDers_start hkept (hfsize.trans hsize) hne
    obtain ⟨-, hback⟩ := Outcome.leaves_andThen.mp hrest
    obtain ⟨out, hout, hadds⟩ := (runBackward_leaves (hssize ▸ hw) hscatter).mp hback
    -- The values of the final store are those that the forward pass left.
    have htu : ∀ k, k % 2 = 0 → t.content k = u.store.content k := fun k hk =>
      (hadds.values k hk).trans (hvalues k hk)
    refine ⟨hadds.size.trans hssize, fun p hp => ?_, fun k n hn hrole => ?_, out, hout,
      fun k hk => ?_⟩
    · rw [hcongr _ _ htu p hp, htu _ (valueSlot_mod_two _)]
      exact hcalls p hp
    · rw [htu _ (valueSlot_mod_two k), hframe]
      exact fun p hp => mt valueSlot_inj.mp (h.ne_of_leaf hn hrole hp).symm
    · rw [startAt_congr (hframe _ fun p _ => ne_valueSlot (valueSlot_succ_mod_two k) p.place),
        ← hstart k hk]
      exact hadds.ders k (hssize ▸ valueSlot_succ_lt.mpr hk)
  · rintro ⟨htsize, hcalls, hleaves, out, hout, hders⟩
    -- The forward pass ends with the values of the store and the derivatives that it found.
    have hmid := Store.content_withValues (s := r.store) (htsize.trans hsize.symm)
    have hmidt : ∀ k, k % 2 = 0 → (r.store.withValues t).content k = t.content k := fun k hk => by
      rw [hmid, if_pos hk]
    have hforward : (runForward call .forward (layers.map (forwardOf (slotIn nodes))) r).Leaves
        (r.store.withValues t) := by
      refine (runForward_leaves (hsize ▸ hw)).mpr ⟨Store.size_withValues .., fun p hp => ?_,
        fun k hk => ?_⟩
      · rw [hcongr t _ hmidt p hp, hmidt _ (valueSlot_mod_two _)]
        exact hcalls p hp
      · rw [hmid]
        split
        · rename_i hk2
          by_cases hlt : k < 2 * nodes.length
          · obtain ⟨j, rfl⟩ := exists_valueSlot hk2
            have hj := valueSlot_lt.mp hlt
            have hn : nodes[j]? = some nodes[j] := List.getElem?_eq_getElem hj
            exact hleaves _ _ hn (h.leaf_of_ne hn fun p hp hpk => hk p hp (by rw [hpk]))
          · rw [Store.content_of_le (by omega), Store.content_of_le (by omega)]
        · rfl
    obtain ⟨hdone, hstore⟩ := hforward
    refine ⟨hdone, ?_⟩
    generalize (runForward call .forward (layers.map (forwardOf (slotIn nodes))) r).state = u
      at hstore
    have husize : u.store.size = 2 * nodes.length := by
      rw [hstore, Store.size_withValues, hsize]
    obtain ⟨hseeded, hssize, hvalues, hstart⟩ := seedDers_start hkept husize hne
    refine Outcome.leaves_andThen.mpr ⟨hseeded, ?_⟩
    refine (runBackward_leaves (hssize ▸ hw) hscatter).mpr ⟨out, hout, htsize.trans hssize.symm,
      fun k hk => ?_, fun k hk => ?_⟩
    · rw [hvalues k hk, hstore, hmidt k hk]
    · have hk : k < nodes.length := valueSlot_succ_lt.mp (hssize ▸ hk)
      -- The forward pass leaves derivatives alone, so the starts are those of the store found.
      have hder : u.store.content (valueSlot k + 1) = r.store.content (valueSlot k + 1) := by
        rw [hstore, hmid, if_neg (by simp [valueSlot_succ_mod_two])]
      rw [hstart k hk, ← startAt_congr hder]
      exact hders k hk

end

end SlotGrad
