import SlotGrad.Proofs.ForwardPass

/-!
# Derivatives are folds of partial derivatives

The backward pass adds the results of adjoints into derivative slots one at a time.  Addition is
not taken to be associative, so the order is part of the statement: a node's derivative is the left
fold, over the layers in reverse order and over the argument places of a layer in increasing order,
of the results that belong to the node.  A layer reads its own derivative slot when it runs, and
what it finds there is final: every layer that reads the node comes later in the list and so has
run, and layers that still run write slots of smaller places only.

## Main definitions

* `adjointResults` — what is taken of a layer's adjoint on a store.
* `partialsAt`, `consumerPartials` — the results for a node in one layer and in all of them.
* `Accumulates` — a store that comes from another by additions into derivative slots.

## Main results

* `Value.isNone_add` — a sum is never the absent value.
* `runAll_contribute` — the contributions of one layer.
* `runBackward_accumulates` — the contributions of a whole pass, on its final store.
* `derivative_eq_fold` — the content of every derivative slot after an evaluation.
-/

namespace SlotGrad

variable {F : Type} [Arith F]

/-! ### Sums are present values -/

theorem exists_of_mem_ofFn {α : Type} {s : Shape} {f : List Nat → α} {x : α}
    (h : x ∈ (Grid.ofFn s f).toList) : ∃ i, x = f i := by
  unfold Grid.toList Grid.ofFn at h
  simp only [List.mem_map] at h
  obtain ⟨i, -, rfl⟩ := h
  exact ⟨i, rfl⟩

theorem Weak.isNone_combine {op : Operator} {a b : Weak F} {v : Value F}
    (h : a.combine op b = .ok v) : v.isNone = false := by
  unfold combine at h
  split at h
  · unfold combineInts at h
    cases op with
    | div =>
      dsimp only at h
      unfold quotient at h
      split at h
      · cases h
      · dsimp only at h
        split at h
        · cases h
        · split at h
          · cases h; rfl
          · cases h; rfl
    | _ => cases h; rfl
  · obtain ⟨x, -, h⟩ := bind_eq_ok.mp h
    obtain ⟨y, -, h⟩ := bind_eq_ok.mp h
    unfold combineReals at h
    cases op with
    | div =>
      dsimp only at h
      split at h
      · cases h
      · cases h; rfl
    | _ => cases h; rfl

theorem Value.isNone_reduced (t : Tensor F) : (Value.reduced t).isNone = false := by
  obtain ⟨d, g⟩ := t
  unfold reduced
  dsimp only
  split <;> rfl

omit [Arith F] in
theorem Value.isNone_zipObjects {f : Value F → Value F → Fallible (Value F)}
    (hf : ∀ a b v, f a b = .ok v → v.isNone = false) {a b : Grid (Value F)} {v : Value F}
    (h : Value.zipObjects f a b = .ok v) : v.isNone = false := by
  unfold zipObjects at h
  split at h
  · cases h
  · rename_i g hg
    obtain ⟨xs, hxs, h⟩ := bind_eq_ok.mp h
    split at h
    · rename_i x
      rw [← pure_eq_ok.mp h]
      -- A single member is an answer of the function.
      obtain ⟨c, hc, hcx⟩ := exists_of_mem_mapM hxs (List.mem_singleton.mpr rfl)
      unfold Grid.zipWith? at hg
      obtain ⟨s, -, rfl⟩ := Option.map_eq_some_iff.mp hg
      obtain ⟨i, rfl⟩ := exists_of_mem_ofFn hc
      exact hf _ _ _ hcx
    · rw [← pure_eq_ok.mp h]
      rfl

theorem Value.isNone_add {a b v : Value F} (h : a.add b = .ok v) : v.isNone = false := by
  unfold add operate at h
  split at h
  · exact Weak.isNone_combine h
  · rw [if_neg (by simp), if_neg (by simp)] at h
    split at h
    · unfold operateArrays at h
      obtain ⟨x, -, h⟩ := bind_eq_ok.mp h
      obtain ⟨y, -, h⟩ := bind_eq_ok.mp h
      split at h
      · obtain ⟨d, -, h⟩ := bind_eq_ok.mp h
        obtain ⟨t, -, h⟩ := bind_eq_ok.mp h
        rw [← pure_eq_ok.mp h]
        exact Value.isNone_reduced t
      · obtain ⟨c, -, h⟩ := bind_eq_ok.mp h
        obtain ⟨d, -, h⟩ := bind_eq_ok.mp h
        refine Value.isNone_zipObjects ?_ h
        intro p q w hw
        unfold operateMembers at hw
        split at hw
        · exact Weak.isNone_combine hw
        · cases hw
    · have h := ofOption_eq_ok.mp h
      unfold append? at h
      split at h <;> cases h <;> rfl
/-! ### What adjoints answer -/

/-- How many results of a layer's adjoint are taken; a count that is no number takes none. -/
def derNumber (slotOf : Handle → Option Nat) (a : Application F) : Nat :=
  match derCountOf slotOf a with
  | .whole n => n.toNat
  | .flag b => if b then 1 else 0
  | .real _ => 0

/-- What is taken of a layer's adjoint on a store.  An adjoint of which nothing is taken is not
called. -/
def adjointResults (call : Calls F) (slotOf : Handle → Option Nat) (s : Store F) (place : Nat)
    (a : Application F) : Attempt (List (Value F)) :=
  if derNumber slotOf a = 0 then .ok []
  else do
    let some f := a.op.adjoint | throw (.noAdjoint a.op.name "" "")
    let out ← call f ⟨adjointArguments slotOf s place a.args, a.kwargs⟩
    return (resultsOf out).take (derNumber slotOf a)

/-- The results that belong to the node at a place: those at its places among the operands, unless
they are absent. -/
def picks (out : List (Value F)) (n : Nat) (bs : List (Int × Int)) : List (Value F) :=
  bs.filterMap fun b =>
    if b.1 = ((valueSlot n : Nat) : Int) then (out[b.2.toNat]?).filter fun v => !v.isNone else none

/-- The results for the node at a place in some layers, one after another. -/
def partialsFrom (call : Calls F) (slotOf : Handle → Option Nat) (s : Store F) (n : Nat)
    (ls : List (Nat × Application F)) : Attempt (List (Value F)) := do
  return (← ls.mapM fun L => do
    return picks (← adjointResults call slotOf s L.1 L.2) n
      (operandSlots slotOf 0 L.2.args)).flatten

/-- The results for the node of an identity in one layer: for each of the layer's arguments that is
the node, in order, the result at the argument's place, unless there is none or an absent one. -/
def partialsAt (id : Nat) (args out : List (Value F)) : List (Value F) :=
  (args.zipIdx).filterMap fun q =>
    if q.1.node?.map Handle.id = some id then (out[q.2]?).filter fun v => !v.isNone else none

/-- The results for the node of an identity in all layers of a list, the last layer first. -/
def consumerPartials (call : Calls F) (nodes : List (Node F)) (s : Store F) (id : Nat) :
    Attempt (List (Value F)) := do
  return (← (layersOf nodes).reverse.mapM fun L => do
    return partialsAt id L.2.args (← adjointResults call (slotIn nodes) s L.1 L.2)).flatten

/-- The store comes from another by adding values into derivative slots, for each node in order. -/
structure Accumulates (added : Nat → List (Value F)) (s t : Store F) : Prop where
  /-- The stores have one size. -/
  size : t.size = s.size
  /-- Value slots are the same. -/
  values : ∀ k, k % 2 = 0 → t.content k = s.content k
  /-- Every derivative slot holds the sum from the left. -/
  ders : ∀ n, (added n).foldlM Value.add (s.content (valueSlot n + 1))
    = .ok (t.content (valueSlot n + 1))

/-- The derivative slots of the nodes of a store hold something. -/
def DersPresent (s : Store F) : Prop :=
  ∀ n, valueSlot n + 1 < s.size → (s.content (valueSlot n + 1)).isNone = false

theorem Accumulates.refl (s : Store F) : Accumulates (fun _ => []) s s :=
  ⟨rfl, fun _ _ => rfl, fun _ => rfl⟩

theorem Accumulates.trans {a b : Nat → List (Value F)} {s t u : Store F}
    (h : Accumulates a s t) (h' : Accumulates b t u) :
    Accumulates (fun n => a n ++ b n) s u :=
  ⟨h'.size.trans h.size, fun k hk => (h'.values k hk).trans (h.values k hk),
    fun n => foldlM_append_eq_ok.mpr ⟨_, h.ders n, h'.ders n⟩⟩

/-- A slot into which nothing is added keeps its content. -/
theorem Accumulates.content_eq {a : Nat → List (Value F)} {s t : Store F}
    (h : Accumulates a s t) {n : Nat} (hn : a n = []) :
    t.content (valueSlot n + 1) = s.content (valueSlot n + 1) := by
  have hders := h.ders n
  rw [hn, List.foldlM_nil, pure_eq_ok] at hders
  exact hders.symm

theorem Accumulates.dersPresent {a : Nat → List (Value F)} {s t : Store F}
    (h : Accumulates a s t) (hs : DersPresent s) : DersPresent t := by
  intro n hn
  rw [h.size] at hn
  exact foldlM_keeps (P := fun v : Value F => v.isNone = false)
    (fun v _ x y _ hxy => Value.isNone_add hxy) (hs n hn) (h.ders n)

/-! ### One layer -/

omit [Arith F] in
theorem resultAt_natCast (out : List (Value F)) (q : Nat) :
    resultAt out (q : Int) = .ok (out[q]?) := by
  unfold resultAt
  by_cases hq : q < out.length
  · rw [if_neg (by omega), locate?_natCast hq]
  · rw [if_pos (by omega), List.getElem?_eq_none (by omega)]

/-- One contribution adds the result at an operand's place to the operand's derivative. -/
theorem contribute_accumulates {out : List (Value F)} {j q : Nat} {r : RunState F}
    (hj : valueSlot j + 1 < r.store.size) (hpresent : DersPresent r.store)
    (hdone : (contribute out (((valueSlot j : Nat) : Int), (q : Int)) r).error = none) :
    Accumulates (fun n => picks out n [(((valueSlot j : Nat) : Int), (q : Int))]) r.store
      (contribute out (((valueSlot j : Nat) : Int), (q : Int)) r).state.store := by
  have hcompleted := Outcome.attempt_completed.mp hdone
  change _ = Except.ok (contribute out (((valueSlot j : Nat) : Int), (q : Int)) r).state
    at hcompleted
  generalize (contribute out (((valueSlot j : Nat) : Int), (q : Int)) r).state = r' at hcompleted ⊢
  dsimp only at hcompleted
  rw [resultAt_natCast] at hcompleted
  obtain ⟨o, ho, h⟩ := bind_eq_ok.mp hcompleted
  cases ho
  -- Nothing is added where there is no result or an absent one.
  have hskip : (out[q]?).filter (fun v => !v.isNone) = none → r = r' →
      Accumulates (fun n => picks out n [(((valueSlot j : Nat) : Int), (q : Int))])
        r.store r'.store := by
    rintro hnone rfl
    have hpicks : (fun n => picks out n [(((valueSlot j : Nat) : Int), (q : Int))])
        = fun _ => [] := by
      funext n
      simp [picks, hnone]
    rw [hpicks]
    exact Accumulates.refl _
  cases hres : out[q]? with
  | none =>
    rw [hres] at h
    exact hskip (by rw [hres]; rfl) (pure_eq_ok.mp h)
  | some v =>
    rw [hres] at h
    dsimp only at h
    split at h
    · rename_i hv
      exact hskip (by rw [hres]; simp [Option.filter, hv]) (pure_eq_ok.mp h)
    · rename_i hv
      -- A result that is there is added to one derivative.
      obtain ⟨s, hs, h⟩ := bind_eq_ok.mp h
      obtain ⟨w, u, hw, hu, hset⟩ := Store.accumulate_eq_ok.mp (liftM_eq_ok.mp hs)
      have hslot : derSlot ((valueSlot j : Nat) : Int) = ((valueSlot j + 1 : Nat) : Int) := rfl
      rw [hslot] at hw hset
      rw [Store.get_natCast hj] at hw
      cases hw
      rw [if_neg (by rw [hpresent j hj]; simp)] at hu
      obtain ⟨-, rfl⟩ := Store.set_natCast_eq_ok.mp hset
      rw [← pure_eq_ok.mp h, RunState.put]
      refine ⟨Store.size_setAt .., ?_, ?_⟩
      · exact fun k hk => Store.content_setAt_of_ne _ (ne_valueSlot_succ hk j) u
      · intro n
        by_cases hn : n = j
        · subst hn
          have hpicks : picks out n [(((valueSlot n : Nat) : Int), (q : Int))] = [v] := by
            simp [picks, hres, Option.filter, hv]
          dsimp only
          rw [hpicks, List.foldlM_cons, hu, Store.content_setAt_self hj]
          rfl
        · have hslots : ¬ ((valueSlot j : Nat) : Int) = ((valueSlot n : Nat) : Int) := fun heq =>
            hn (natCast_valueSlot_inj.mp heq).symm
          have hpicks : picks out n [(((valueSlot j : Nat) : Int), (q : Int))] = [] := by
            simp [picks, hslots]
          dsimp only
          rw [hpicks, Store.content_setAt_of_ne]
          · rfl
          · simpa using hn

/-- The contributions of a layer add its results, in the order of the operands. -/
theorem runAll_contribute {out : List (Value F)} :
    ∀ {bs : List (Int × Int)} {r : RunState F},
      (∀ b ∈ bs, ∃ j q : Nat, b = (((valueSlot j : Nat) : Int), (q : Int)) ∧
        valueSlot j + 1 < r.store.size) →
      DersPresent r.store → (runAll (contribute out) bs r).error = none →
        Accumulates (fun n => picks out n bs) r.store
          (runAll (contribute out) bs r).state.store := by
  intro bs
  induction bs with
  | nil =>
    intro r _ _ _
    exact Accumulates.refl _
  | cons b bs ih =>
    intro r hbs hpresent hdone
    obtain ⟨hb, hrest⟩ := runAll_cons_completed.mp hdone
    obtain ⟨j, q, rfl, hj⟩ := hbs b (List.mem_cons_self ..)
    have hstep := contribute_accumulates hj hpresent hb
    rw [runAll_cons_state bs hb]
    have hsplit : (fun n => picks out n ((((valueSlot j : Nat) : Int), (q : Int)) :: bs))
        = fun n => picks out n [(((valueSlot j : Nat) : Int), (q : Int))] ++ picks out n bs := by
      funext n
      unfold picks
      rw [← List.filterMap_append]
      rfl
    rw [hsplit]
    refine hstep.trans (ih ?_ (hstep.dersPresent hpresent) hrest)
    intro b' hb'
    obtain ⟨j', q', rfl, hj'⟩ := hbs b' (List.mem_cons_of_mem _ hb')
    exact ⟨j', q', rfl, hstep.size ▸ hj'⟩

/-- A place that is read is counted by an inferred count. -/
theorem lt_inferredCount {ps : List Int} {p : Int} (h : p ∈ ps) : p < inferredCount ps := by
  have hle : ∀ (qs : List Int) (q : Int), q ≤ qs.foldl max q ∧ ∀ q' ∈ qs, q' ≤ qs.foldl max q := by
    intro qs
    induction qs with
    | nil =>
      intro q
      exact ⟨Int.le_refl q, fun q' hq' => by cases hq'⟩
    | cons q' qs ih =>
      intro q
      obtain ⟨hfirst, hrest⟩ := ih (max q q')
      refine ⟨Int.le_trans (Int.le_max_left q q') hfirst, fun q'' hq'' => ?_⟩
      rcases List.mem_cons.mp hq'' with rfl | hq''
      · exact Int.le_trans (Int.le_max_right q q'') hfirst
      · exact hrest q'' hq''
  cases ps with
  | nil => cases h
  | cons q qs =>
    obtain ⟨hfirst, hrest⟩ := hle qs q
    unfold inferredCount
    dsimp only
    rcases List.mem_cons.mp h with rfl | h
    · omega
    · have := hrest p h
      omega

/-- The greatest place and all before it are counted, so a count that is inferred is natural. -/
theorem inferredCount_nonneg {ps : List Int} (h : ∀ p ∈ ps, 0 ≤ p) : 0 ≤ inferredCount ps := by
  cases ps with
  | nil => exact Int.le_refl 0
  | cons p ps =>
    have hp := h p (List.mem_cons_self ..)
    have hlt := lt_inferredCount (List.mem_cons_self (a := p) (l := ps))
    omega

section

variable {slotOf : Handle → Option Nat}

/-- A count that is inferred or not negative. -/
def NaturalCount (a : Application F) : Prop := ∀ n, a.derCount = some (.whole n) → 0 ≤ n

omit [Arith F] in
theorem NaturalCount.derCountOf {a : Application F} (h : NaturalCount a) {n : Int}
    (hn : derCountOf slotOf a = .whole n) : 0 ≤ n := by
  unfold SlotGrad.derCountOf at hn
  cases hcount : a.derCount with
  | none =>
    rw [hcount] at hn
    cases hn
    refine inferredCount_nonneg ?_
    intro p hp
    obtain ⟨b, hb, rfl⟩ := List.mem_map.mp hp
    obtain ⟨q, _, _, -, -, rfl⟩ := mem_operandSlots.mp hb
    exact Int.natCast_nonneg _
  | some c =>
    rw [hcount, Option.getD_some] at hn
    exact h n (by rw [hcount, hn])

theorem derNumber_eq_zero {a : Application F}
    (hactive : (derCountOf slotOf a).isActive = false) : derNumber slotOf a = 0 := by
  unfold derNumber
  cases hcount : derCountOf slotOf a with
  | whole n =>
    rw [hcount] at hactive
    have hn : n = 0 := by simpa [Count.isActive] using hactive
    rw [hn]
    rfl
  | flag b =>
    rw [hcount] at hactive
    have hb : b = false := hactive
    rw [hb]
    rfl
  | real x => rfl

theorem taken_derCountOf {a : Application F} (hcount : NaturalCount a)
    (hactive : (derCountOf slotOf a).isActive = true) {n : Int}
    (hn : (derCountOf slotOf a).taken = .ok n) :
    n = (derNumber slotOf a : Nat) ∧ derNumber slotOf a ≠ 0 := by
  unfold derNumber
  cases hc : derCountOf slotOf a with
  | whole m =>
    rw [hc] at hn hactive
    cases hn
    have hm := hcount.derCountOf hc
    have hne : n ≠ 0 := by simpa [Count.isActive] using hactive
    dsimp only
    omega
  | flag b =>
    rw [hc] at hn hactive
    have hb : b = true := hactive
    rw [hb] at hn ⊢
    cases hn
    exact ⟨rfl, by simp⟩
  | real x =>
    rw [hc] at hn
    cases hn

/-- A completed backward instruction adds what is taken of the layer's adjoint on the store that
it found. -/
theorem backwardStep_accumulates {call : Calls F} {p : Placed F} {index : Nat} {r : RunState F}
    (hslots : ∀ h k, slotOf h = some k → k < r.store.size)
    (hplace : valueSlot p.place + 1 < r.store.size)
    (hoperands : ∀ b ∈ adjointOperands slotOf p.layer.args,
      ∃ j q : Nat, b = (((valueSlot j : Nat) : Int), (q : Int)) ∧ valueSlot j + 1 < r.store.size)
    (hscatter : p.layer.op.scatter = false) (hcount : NaturalCount p.layer)
    (hpresent : DersPresent r.store)
    (hdone : (backwardStep call (backwardOf slotOf p, index) r).error = none) :
    ∃ out, adjointResults call slotOf r.store p.place p.layer = .ok out ∧
      Accumulates (fun n => picks out n (adjointOperands slotOf p.layer.args)) r.store
        (backwardStep call (backwardOf slotOf p, index) r).state.store := by
  unfold backwardStep at hdone ⊢
  dsimp only at hdone ⊢
  obtain ⟨hworked, -⟩ := Outcome.andThen_completed.mp hdone
  rw [Outcome.andThen_state _ hworked]
  rw [backwardOf_bind hslots p hplace] at hworked ⊢
  have hsc : ¬ (backwardOf slotOf p).op.scatter = true := by
    change ¬ p.layer.op.scatter = true
    rw [hscatter]
    exact Bool.false_ne_true
  have hder : (backwardOf slotOf p).derCount = some (derCountOf slotOf p.layer) := rfl
  dsimp only at hworked ⊢
  rw [if_neg hsc, hder] at hworked ⊢
  dsimp only at hworked ⊢
  -- An instruction with nothing to count does nothing, and has no results.
  cases hactive : (derCountOf slotOf p.layer).isActive with
  | false =>
    rw [if_neg (by simp)]
    refine ⟨[], ?_, ?_⟩
    · unfold adjointResults
      rw [if_pos (derNumber_eq_zero hactive)]
    · have hnone : (fun n => picks ([] : List (Value F)) n (adjointOperands slotOf p.layer.args))
          = fun _ => [] := by
        funext n
        simp [picks]
      rw [hnone]
      exact Accumulates.refl _
  | true =>
    rw [if_pos hactive] at hworked
    rw [if_pos rfl]
    unfold adjointStep at hworked ⊢
    dsimp only at hworked ⊢
    split at hworked
    · cases hworked
    · rename_i out hresults
      rw [operands_backwardOf] at hworked ⊢
      refine ⟨out, ?_, runAll_contribute hoperands hpresent hworked⟩
      have hfunction : (backwardOf slotOf p).function? = p.layer.op.adjoint := rfl
      rw [hfunction] at hresults
      unfold adjointResults
      cases hadjoint : p.layer.op.adjoint with
      | none =>
        rw [hadjoint] at hresults
        cases hresults
      | some f =>
        rw [hadjoint] at hresults
        obtain ⟨v, hv, h⟩ := bind_eq_ok.mp hresults
        obtain ⟨n, hn, h⟩ := bind_eq_ok.mp h
        -- The engine cuts the answer at the counted number, which is a natural one.
        obtain ⟨rfl, hne⟩ := taken_derCountOf hcount hactive (liftM_eq_ok.mp hn)
        have htake : takeResults ((derNumber slotOf p.layer : Nat) : Int) (resultsOf v)
            = (resultsOf v).take (derNumber slotOf p.layer) := by
          unfold takeResults
          rw [if_pos (Int.natCast_nonneg _), Int.toNat_natCast]
        rw [if_neg hne]
        refine bind_eq_ok.mpr ⟨v, hv, ?_⟩
        rw [pure_eq_ok, ← htake]
        exact pure_eq_ok.mp h

/-! ### A whole pass -/

/-- No node comes after a text among the arguments. -/
def NodesFirst (args : List (Value F)) : Prop :=
  ∀ (i j : Nat) (s : String) (h : Handle),
    args[i]? = some (.text s) → args[j]? = some (.node h) → j < i

omit [Arith F] in
/-- The derivative of the output is put in behind all nodes, so no operand moves. -/
theorem NodesFirst.adjointOperands {args : List (Value F)} (h : NodesFirst args) :
    adjointOperands slotOf args = operandSlots slotOf 0 args := by
  have hnone : ∀ k, operandSlots slotOf k (args.drop (seedPlace args)) = [] := by
    intro k
    rw [List.eq_nil_iff_forall_not_mem]
    intro b hb
    obtain ⟨q, n, _, hq, -, -⟩ := mem_operandSlots.mp hb
    rw [List.getElem?_drop] at hq
    have hlt : seedPlace args < args.length := by
      have := (List.getElem?_eq_some_iff.mp hq).1
      omega
    have htext : args[seedPlace args].isText = true := List.findIdx_getElem
    obtain ⟨s, hs⟩ : ∃ s, args[seedPlace args] = .text s := by
      cases hv : args[seedPlace args]
      case text s => exact ⟨s, rfl⟩
      all_goals
        rw [hv] at htext
        cases htext
    have hget : args[seedPlace args]? = some (.text s) := by
      rw [List.getElem?_eq_getElem hlt, hs]
    have := h _ _ s n hget hq
    omega
  unfold SlotGrad.adjointOperands
  rw [operandSlots_split args, hnone, hnone]

omit [Arith F] in
theorem adjointResults_congr {call : Calls F} {s t : Store F} {place : Nat} {a : Application F}
    (hargs : ∀ v ∈ a.args, t.argument slotOf v = s.argument slotOf v)
    (hder : t.content (valueSlot place + 1) = s.content (valueSlot place + 1)) :
    adjointResults call slotOf t place a = adjointResults call slotOf s place a := by
  have harguments : adjointArguments slotOf t place a.args
      = adjointArguments slotOf s place a.args := by
    unfold adjointArguments
    rw [hder, List.map_congr_left fun v hv => hargs v (List.mem_of_mem_take hv),
      List.map_congr_left fun v hv => hargs v (List.mem_of_mem_drop hv)]
  unfold adjointResults
  rw [harguments]

omit [Arith F] in
theorem partialsFrom_cons {call : Calls F} {s : Store F} {n : Nat} {L : Nat × Application F}
    {ls : List (Nat × Application F)} {out rest : List (Value F)}
    (hout : adjointResults call slotOf s L.1 L.2 = .ok out)
    (hrest : partialsFrom call slotOf s n ls = .ok rest) :
    partialsFrom call slotOf s n (L :: ls)
      = .ok (picks out n (operandSlots slotOf 0 L.2.args) ++ rest) := by
  unfold partialsFrom at hrest ⊢
  obtain ⟨parts, hparts, h⟩ := bind_eq_ok.mp hrest
  rw [← pure_eq_ok.mp h]
  refine bind_eq_ok.mpr ⟨picks out n (operandSlots slotOf 0 L.2.args) :: parts, ?_, rfl⟩
  rw [List.mapM_cons]
  refine bind_eq_ok.mpr ⟨_, bind_eq_ok.mpr ⟨out, hout, rfl⟩, ?_⟩
  exact bind_eq_ok.mpr ⟨parts, hparts, rfl⟩

/-- A completed backward pass adds, for every node, what the layers' adjoints answer on the store
that the pass ends with. -/
theorem runAll_backwardStep_accumulates {call : Calls F} {layers : List (Placed F)} {size : Nat}
    (hw : WellPlaced slotOf size layers)
    (hlayers : ∀ p ∈ layers, p.layer.op.scatter = false ∧ NaturalCount p.layer ∧
      NodesFirst p.layer.args) :
    ∀ {stream : List (Instruction F × Nat)} {ls : List (Placed F)},
      List.Forall₂ (fun q p => q.1 = backwardOf slotOf p) stream ls → (∀ p ∈ ls, p ∈ layers) →
        ls.Pairwise (fun p q => q.place < p.place) →
          ∀ {r : RunState F}, r.store.size = size → DersPresent r.store →
            (runAll (backwardStep call) stream r).error = none →
              ∀ t, (runAll (backwardStep call) stream r).state.store = t →
                ∃ added : Nat → List (Value F),
                  (∀ n, partialsFrom call slotOf t n (ls.map fun p => (p.place, p.layer))
                    = .ok (added n)) ∧
                  Accumulates added r.store t ∧
                  ∀ n, (∀ p ∈ ls, p.place ≤ n) → added n = [] := by
  intro stream ls hrel
  induction hrel with
  | nil =>
    rintro - - r - - - t rfl
    exact ⟨fun _ => [], fun _ => rfl, Accumulates.refl _, fun _ _ => rfl⟩
  | @cons q p stream ls hq _ ih =>
    intro hmem hdec r hsize hpresent hdone t ht
    obtain ⟨i, index⟩ := q
    have hq : i = backwardOf slotOf p := hq
    subst hq
    have hp := hmem p (List.mem_cons_self ..)
    obtain ⟨hscatter, hcount, hfirst⟩ := hlayers p hp
    obtain ⟨hstep, hrest⟩ := runAll_cons_completed.mp hdone
    rw [runAll_cons_state stream hstep] at ht
    -- Operands are nodes at smaller places.
    have hoperands : ∀ b ∈ operandSlots slotOf 0 p.layer.args, ∃ j q : Nat,
        b = (((valueSlot j : Nat) : Int), (q : Int)) ∧ j < p.place := by
      intro b hb
      obtain ⟨q, h, k, hq, hk, rfl⟩ := mem_operandSlots.mp hb
      obtain ⟨j, hj, hslot⟩ := hw.earlier p hp h (List.mem_of_getElem? hq)
      rw [hk] at hslot
      cases hslot
      exact ⟨j, 0 + q, rfl, hj⟩
    have hplace := hw.inStore p hp
    obtain ⟨out, hout, hadded⟩ := backwardStep_accumulates
      (hsize ▸ hw.slot_lt) (hsize ▸ hplace)
      (fun b hb => by
        rw [hfirst.adjointOperands] at hb
        obtain ⟨j, q, hb, hj⟩ := hoperands b hb
        have := valueSlot_lt_valueSlot.mpr hj
        exact ⟨j, q, hb, by omega⟩)
      hscatter hcount hpresent hstep
    rw [hfirst.adjointOperands] at hadded
    obtain ⟨added, hpartials, haccumulates, hnone⟩ := ih
      (fun q hq => hmem q (List.mem_cons_of_mem _ hq)) (List.pairwise_cons.mp hdec).2
      (hadded.size.trans hsize) (hadded.dersPresent hpresent) hrest t ht
    have hpicks : ∀ n, p.place ≤ n → picks out n (operandSlots slotOf 0 p.layer.args) = [] := by
      intro n hn
      unfold picks
      rw [List.filterMap_eq_nil_iff]
      intro b hb
      obtain ⟨j, q, rfl, hj⟩ := hoperands b hb
      rw [if_neg]
      exact fun heq => by have := natCast_valueSlot_inj.mp heq; omega
    have htotal := hadded.trans haccumulates
    have hlater : ∀ q ∈ ls, q.place ≤ p.place := fun q hq =>
      Nat.le_of_lt ((List.pairwise_cons.mp hdec).1 q hq)
    -- The layer's own derivative is final when the layer runs, and values do not change.
    have hfinal : adjointResults call slotOf t p.place p.layer = .ok out := by
      rw [← hout]
      refine adjointResults_congr ?_ (htotal.content_eq ?_)
      · intro v hv
        refine Store.argument_congr ?_
        rintro n k rfl hk
        obtain ⟨j, -, hslot⟩ := hw.earlier p hp n hv
        rw [hk] at hslot
        cases hslot
        exact htotal.values _ (valueSlot_mod_two j)
      · rw [hpicks _ (Nat.le_refl _), hnone _ hlater]
        rfl
    refine ⟨_, fun n => ?_, htotal, ?_⟩
    · exact partialsFrom_cons (L := (p.place, p.layer)) hfinal (hpartials n)
    · intro n hn
      rw [hpicks n (hn p (List.mem_cons_self ..)),
        hnone n fun q hq => hn q (List.mem_cons_of_mem _ hq)]
      rfl

end

/-! ### Evaluation -/

section

variable {nodes : List (Node F)}

omit [Arith F] in
/-- A reference has the slot of a place exactly if it means the node there. -/
theorem slotIn_eq_valueSlot (hd : (nodes.map Node.id).Nodup) {n : Nat} {m : Node F}
    (hm : nodes[n]? = some m) {h : Handle} : slotIn nodes h = some (valueSlot n) ↔ h.id = m.id := by
  rw [slotIn_eq_some]
  constructor
  · rintro ⟨j, hj, hjn⟩
    obtain ⟨m', hm', hid⟩ := position?_sound hj
    rw [valueSlot_inj.mp hjn, hm] at hm'
    cases hm'
    exact hid.symm
  · intro hid
    exact ⟨n, (position?_eq_some_iff hd).mpr ⟨m, hm, hid.symm⟩, rfl⟩

omit [Arith F] in
/-- The results that belong to a place are those that belong to the identity of its node, wherever
the places of the arguments start. -/
theorem picks_operandSlots_from (hd : (nodes.map Node.id).Nodup) {n : Nat} {m : Node F}
    (hm : nodes[n]? = some m) (args out : List (Value F)) (k : Nat) :
    picks out n (operandSlots (slotIn nodes) k args)
      = (args.zipIdx k).filterMap fun q =>
        if q.1.node?.map Handle.id = some m.id then (out[q.2]?).filter fun v => !v.isNone
        else none := by
  have hslot : ∀ h, slotIn nodes h = some (valueSlot n) ↔ h.id = m.id := fun h =>
    slotIn_eq_valueSlot hd hm
  induction args generalizing k with
  | nil => rfl
  | cons v vs ih =>
    rw [List.zipIdx_cons, List.filterMap_cons, ← ih (k + 1), operandSlots]
    cases hv : v.node? with
    | none => rfl
    | some h =>
      simp only [Option.bind_some, Option.map_some, Option.some.injEq]
      cases hk : slotIn nodes h with
      | none =>
        rw [if_neg]
        intro hid
        rw [(hslot h).mpr hid] at hk
        cases hk
      | some slot =>
        -- Slots tell nodes apart, so the slot may stand for the identity.
        by_cases hid : h.id = m.id
        · rw [(hslot h).mpr hid] at hk
          cases hk
          rw [if_pos hid]
          unfold picks
          rw [List.filterMap_cons, if_pos rfl, Int.toNat_natCast]
        · have hne : ¬ (slot : Int) = ((valueSlot n : Nat) : Int) := by
            intro he
            have he : slot = valueSlot n := by omega
            rw [he] at hk
            exact hid ((hslot h).mp hk)
          rw [if_neg hid]
          unfold picks
          rw [List.filterMap_cons, if_neg hne]

omit [Arith F] in
/-- The results that belong to a place are those that belong to the identity of its node. -/
theorem picks_operandSlots (hd : (nodes.map Node.id).Nodup) {n : Nat} {m : Node F}
    (hm : nodes[n]? = some m) (args out : List (Value F)) :
    picks out n (operandSlots (slotIn nodes) 0 args) = partialsAt m.id args out :=
  picks_operandSlots_from hd hm args out 0

omit [Arith F] in
theorem partialsFrom_layersOf (hd : (nodes.map Node.id).Nodup) {n : Nat} {m : Node F}
    (hm : nodes[n]? = some m) (call : Calls F) (s : Store F) :
    partialsFrom call (slotIn nodes) s n (layersOf nodes).reverse
      = consumerPartials call nodes s m.id := by
  unfold partialsFrom consumerPartials
  simp only [picks_operandSlots hd hm]

omit [Arith F] in
/-- A request that is accepted has a seed where one is needed, and a store of the net's size. -/
theorem checkRequest_accepts {c : CompiledNet F} {mode : Mode} {o : EvalOptions F} {s : Store F}
    (h : checkRequest c mode o s = .ok ()) :
    (mode = .normal → isEmptySeed o.seed = false) ∧ (s.size : Int) = c.numVars := by
  unfold checkRequest at h
  dsimp only at h
  split at h
  · cases h
  · rename_i hempty
    split at h
    · cases h
    · rename_i hsize
      refine ⟨?_, not_not.mp hsize⟩
      intro hmode
      by_contra hne
      exact hempty ⟨hmode, by simpa using hne⟩

/-- A completed seeding leaves the seed in the last derivative slot, zero in every other one, and
the value slots as they were. -/
theorem seedDers_completed {c : CompiledNet F} {o : EvalOptions F} {r : RunState F} {pairs : Nat}
    (hacc : o.accumulate = false) (hsize : r.store.size = 2 * pairs)
    (hdone : (seedDers c o r).error = none) :
    (seedDers c o r).state.store.size = 2 * pairs ∧
      (∀ k, k % 2 = 0 → (seedDers c o r).state.store.content k = r.store.content k) ∧
      ∀ k, k < pairs → (seedDers c o r).state.store.content (valueSlot k + 1)
        = if k + 1 = pairs then o.seed else Store.zero := by
  refine ⟨?_, fun k hk => (seedDers_frame hk).2, ?_⟩
  · rw [← hsize]
    exact (seedDers_frame (k := 0) rfl).1
  · intro k hk
    unfold seedDers at hdone ⊢
    dsimp only at hdone ⊢
    obtain ⟨s, hs, h⟩ := bind_eq_ok.mp (Outcome.attempt_completed.mp hdone)
    -- Without accumulation no derivative is kept.
    have hkept : keptSlots c o = [] := by
      unfold keptSlots
      rw [hacc]
      rfl
    rw [hkept] at hs h ⊢
    have hs := liftM_eq_ok.mp hs
    have hreset : (r.store.resetDers []).size = 2 * pairs := by
      rw [Store.size_resetDers, hsize]
    have hlast : (((r.store.resetDers []).size : Nat) : Int) - 1
        = ((2 * pairs - 1 : Nat) : Int) := by
      omega
    rw [hlast] at hs
    obtain ⟨-, rfl⟩ := Store.set_natCast_eq_ok.mp hs
    rw [← pure_eq_ok.mp h]
    dsimp only
    split
    · rename_i heq
      rw [valueSlot_succ_eq_last.mpr heq]
      exact Store.content_setAt_self (by omega) _
    · rename_i hne
      rw [Store.content_setAt_of_ne _ (mt valueSlot_succ_eq_last.mp hne)]
      -- Every other derivative is reset, since it has an odd slot.
      have hlt : valueSlot k + 1 < r.store.slots.size := by
        unfold Store.size at hsize
        exact hsize ▸ valueSlot_succ_lt.mpr hk
      have hodd := valueSlot_succ_mod_two k
      unfold Store.content Store.resetDers
      rw [Array.getElem?_mapIdx, Array.getElem?_eq_getElem hlt]
      simp [Store.resetSlot, hodd]

end

/-- **Derivatives are folds of partial derivatives.**  After a completed evaluation in normal mode
that does not accumulate, the derivative slot of every node holds the sum, from the left and in
this order, of the seed (for the last node) or zero (for any other) and the results for the node in
its consumers, the last consumer first; each consumer's adjoint is taken on the store that the
evaluation ends with. -/
theorem derivative_eq_fold [Interchange F] {checks : Checks F} {known : Node F → Bool}
    {nodes : List (Node F)} {roots : Option (List Handle)} {options : Options F}
    {c : Compilation F} (hc : compileNodes checks known nodes roots options = .ok c)
    (ho : Ordered nodes)
    (hlayers : ∀ k a, (k, a) ∈ layersOf nodes →
      a.op.scatter = false ∧ NaturalCount a ∧ NodesFirst a.args)
    (call : Calls F) (o : EvalOptions F) (hacc : o.accumulate = false) (r : RunState F)
    (hdone : (evaluate call c.net .normal o r).error = none) {k : Nat} {n : Node F}
    (hn : nodes[k]? = some n) :
    ∃ partials,
      consumerPartials call nodes (evaluate call c.net .normal o r).state.store n.id
        = .ok partials ∧
      partials.foldlM Value.add (if k + 1 = nodes.length then o.seed else Store.zero)
        = .ok ((evaluate call c.net .normal o r).state.store.content (valueSlot k + 1)) := by
  obtain ⟨-, layers, hs⟩ := compileNodes_streams hc
  generalize ht : (evaluate call c.net .normal o r).state.store = t
  unfold evaluate at hdone ht
  cases hcheck : checkRequest c.net .normal o r.store with
  | error e =>
    rw [hcheck] at hdone
    cases hdone
  | ok u =>
    rw [hcheck] at hdone ht
    dsimp only at hdone ht
    -- The request was accepted, so the seed is present and the store has the net's size.
    obtain ⟨hempty, hnum⟩ := checkRequest_accepts hcheck
    have hseed := hempty rfl
    have hsize : r.store.size = 2 * nodes.length := by
      have := hs.numVars
      omega
    obtain ⟨hseeded, hback⟩ := Outcome.andThen_completed.mp hdone
    rw [Outcome.andThen_state _ hseeded] at ht
    obtain ⟨hforward, hseeding⟩ := Outcome.andThen_completed.mp hseeded
    rw [Outcome.andThen_state _ hforward] at ht hback
    rw [hs.forward] at ht hback hforward hseeding
    have hw := hs.wellPlaced ho
    obtain ⟨hfsize, -, -⟩ := runForward_computes (hsize ▸ hw) hforward rfl
    obtain ⟨hssize, -, hders⟩ := seedDers_completed hacc (hfsize.trans hsize) hseeding
    -- After the reset no derivative is absent.
    have hpresent : DersPresent (seedDers c.net o (runForward call .forward
        (layers.map (forwardOf (slotIn nodes))) r).state).state.store := by
      intro j hj
      rw [hssize] at hj
      rw [hders j (valueSlot_succ_lt.mp hj)]
      split
      · cases hv : o.seed with
        | none =>
          rw [hv] at hseed
          cases hseed
        | _ => rfl
      · rfl
    rw [hs.backward] at ht hback
    obtain ⟨added, hpartials, haccumulates, -⟩ := runAll_backwardStep_accumulates hw
      (fun p hp => hlayers _ _ (hs.mem_layersOf hp)) (forall₂_zipIdx_map _ _ _)
      (fun p hp => List.mem_reverse.mp hp) (List.pairwise_reverse.mpr hw.increasing)
      (r := { (seedDers c.net o (runForward call .forward
        (layers.map (forwardOf (slotIn nodes))) r).state).state with owned := [] })
      hssize hpresent hback t ht
    have hk : k < nodes.length := (List.getElem?_eq_some_iff.mp hn).1
    -- The stream runs backwards, and so do the consumers.
    refine ⟨added k, ?_, ?_⟩
    · rw [← partialsFrom_layersOf ho.distinct hn, ← hs.places, ← List.map_reverse]
      exact hpartials k
    · rw [← haccumulates.ders k, ← hders k hk]

/-- A parameter times itself. -/
def squaredParameter : List (Node ℚ) :=
  [⟨0, bareLabel, .param ⟨.real 3, .none, .none, .gradient⟩⟩,
    ⟨1, bareLabel, .layer ⟨Builtin.times.op, [.node ⟨0, .param, ""⟩, .node ⟨0, .param, ""⟩], [],
      .same, .same, [], none⟩⟩]

theorem derivative_eq_fold_squared_parameter :
    ∃ c, compileNodes [] (fun _ => true) squaredParameter none plainOptions = .ok c ∧
      ∃ partials, partials.length = 2 ∧
        consumerPartials builtinCalls squaredParameter (evaluate builtinCalls c.net .normal
          ⟨.real 1, false⟩ ⟨c.store, [], none⟩).state.store 0 = .ok partials ∧
        partials.foldlM Value.add Store.zero = .ok ((evaluate builtinCalls c.net .normal
          ⟨.real 1, false⟩ ⟨c.store, [], none⟩).state.store.content 1) := by
  obtain ⟨c, hc⟩ := exists_of_isOk
    (show (compileNodes [] (fun _ => true) squaredParameter none plainOptions).isOk = true from rfl)
  have ho : Ordered squaredParameter := ⟨by decide, violations_eq_nil_iff.mp rfl⟩
  have hlayers : ∀ k a, (k, a) ∈ layersOf squaredParameter →
      a.op.scatter = false ∧ NaturalCount a ∧ NodesFirst a.args := by
    intro k a hL
    have hmem : (k, a) ∈ [(1, (⟨Builtin.times.op, [.node ⟨0, .param, ""⟩, .node ⟨0, .param, ""⟩],
        [], .same, .same, [], none⟩ : Application ℚ))] := hL
    cases List.mem_singleton.mp hmem
    refine ⟨rfl, ?_, ?_⟩
    · intro n hn
      cases hn
    · intro i j s h hi
      rcases i with _ | _ | i <;> cases hi
  have hdone : (evaluate builtinCalls c.net .normal ⟨.real 1, false⟩
      ⟨c.store, [], none⟩).error = none := by
    cases hc
    rfl
  obtain ⟨partials, hpartials, hfold⟩ :=
    derivative_eq_fold hc ho hlayers builtinCalls ⟨.real 1, false⟩ rfl ⟨c.store, [], none⟩ hdone
      (k := 0) rfl
  refine ⟨c, hc, partials, ?_, hpartials, hfold⟩
  have htwo : (consumerPartials builtinCalls squaredParameter (evaluate builtinCalls c.net .normal
      ⟨.real 1, false⟩ ⟨c.store, [], none⟩).state.store 0).map List.length = .ok 2 := by
    cases hc
    rfl
  rw [show consumerPartials builtinCalls squaredParameter _ 0 = .ok partials from hpartials]
    at htwo
  exact Except.ok.inj htwo

end SlotGrad
