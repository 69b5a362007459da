import SlotGrad.Proofs.AssembledNets
import SlotGrad.Proofs.FilledDerivatives
import SlotGrad.Proofs.ParallelRuns

/-!
# Backward passes that complete

Which derivatives a backward pass fills can be told before it runs.  At the start it is at most
the root's, and a layer's instruction fills those of the nodes that its adjoint answers for,
unless it only passes a number on.  This is followed layer by layer beside the pass.  Where
every adjoint accepts the derivative that it finds, the pass completes and the derivatives are
filled as was told; where one does not, the pass stops there.

A layer's own derivative is final when its adjoint is called, since the layers after it fill
derivatives of smaller places only.

## Main definitions

* `Builtin.ofOp?` — the built-in op that an op is.
* `Application.feeds`, `Application.feedsNode` — for which arguments, and for which nodes, a layer's
  backward instruction adds derivatives.
* `filledStep`, `filledBy` — which derivatives one instruction and a whole pass fill.
* `Builtin.Conforms` — a layer that applies a built-in op within its conventions.
* `Derived` — a store whose derivatives are filled as was told.
* `ReadsPart` — an indexing layer on a store.

## Main results

* `filledBy_iff` — the derivatives that a pass fills, without its steps.
* `Derived.backwardStep` — one backward instruction.
* `Derived.runAll_backwardStep` — a backward stream.
-/

namespace SlotGrad

variable {F : Type}

/-! ### Which derivatives are filled -/

/-- The built-in op that an op is. -/
def Builtin.ofOp? (o : Op) : Option Builtin := all.find? fun b => b.op == o

@[simp] theorem Builtin.ofOp?_op (b : Builtin) : ofOp? b.op = some b := by
  cases b <;> decide +kernel

theorem Builtin.op_injective : Function.Injective Builtin.op := fun b b' h => by
  simpa using congrArg ofOp? h

/-- Whether a layer's backward instruction adds a derivative for the argument at a place. -/
def Application.feeds (slotOf : Handle → Option Nat) (a : Application F) (q : Nat) : Bool :=
  (a.op.scatter || decide (q < derNumber slotOf a)) && (Builtin.ofOp? a.op).any fun b => b.feeds q

/-- Whether a layer's backward instruction adds a derivative for the node at a place. -/
def Application.feedsNode (slotOf : Handle → Option Nat) (a : Application F) (j : Nat) : Bool :=
  (operandSlots slotOf 0 a.args).any fun b =>
    b.1 == ((valueSlot j : Nat) : Int) && a.feeds slotOf b.2.toNat

/-- The places whose derivatives are filled after a layer's backward instruction. -/
def filledStep (slotOf : Handle → Option Nat) (filled : Nat → Bool) (L : Nat × Application F) :
    Nat → Bool := fun j =>
  filled j ||
    (L.2.feedsNode slotOf j && (Builtin.ofOp? L.2.op).any fun b => b.fillsFrom (filled L.1))

/-- The places whose derivatives a backward pass fills, from a seed of the root's shape or from
a plain number. -/
def filledBy (whole : Bool) (nodes : List (Node F)) : Nat → Bool :=
  (layersOf nodes).reverse.foldl (filledStep (slotIn nodes)) fun j => whole && j + 1 == nodes.length

section

variable {slotOf : Handle → Option Nat} {filled : Nat → Bool} {a : Application F} {j k : Nat}

theorem Application.feedsNode_eq_true : a.feedsNode slotOf j = true ↔
    ∃ (q : Nat) (h : Handle), a.args[q]? = some (.node h) ∧ slotOf h = some (valueSlot j) ∧
      a.feeds slotOf q = true := by
  unfold feedsNode
  rw [List.any_eq_true]
  constructor
  · rintro ⟨b, hb, hboth⟩
    obtain ⟨q, h, slot, hq, hslot, rfl⟩ := mem_operandSlots.mp hb
    obtain ⟨heq, hfed⟩ := Bool.and_eq_true_iff.mp hboth
    have hslot' : slot = valueSlot j := by simpa using heq
    exact ⟨q, h, hq, hslot' ▸ hslot, by simpa using hfed⟩
  · rintro ⟨q, h, hq, hslot, hfed⟩
    exact ⟨_, mem_operandSlots.mpr ⟨q, h, _, hq, hslot, rfl⟩, by simp [hfed]⟩

/-- Layers that read smaller places than their own. -/
def FeedsEarlier (slotOf : Handle → Option Nat) (ls : List (Nat × Application F)) : Prop :=
  ∀ L ∈ ls, ∀ j, L.2.feedsNode slotOf j = true → j < L.1

/-- A layer fills derivatives of smaller places only. -/
theorem filledStep_of_le (hL : a.feedsNode slotOf j = true → j < k) (hj : k ≤ j) :
    filledStep slotOf filled (k, a) j = filled j := by
  unfold filledStep
  cases hfed : a.feedsNode slotOf j with
  | false => simp
  | true =>
    have := hL hfed
    omega

/-- What was told of a derivative does not change when the layers left have smaller places. -/
theorem foldl_filledStep_of_le {ls : List (Nat × Application F)} (hearlier : FeedsEarlier slotOf ls)
    (hle : ∀ L ∈ ls, L.1 ≤ j) : ls.foldl (filledStep slotOf) filled j = filled j := by
  induction ls generalizing filled with
  | nil => rfl
  | cons L ls ih =>
    rw [List.foldl_cons, ih (fun L' hL' => hearlier L' (List.mem_cons_of_mem _ hL'))
      fun L' hL' => hle L' (List.mem_cons_of_mem _ hL')]
    exact filledStep_of_le (hearlier L (List.mem_cons_self ..) j) (hle L (List.mem_cons_self ..))

/-- Layers at decreasing places fill what was filled and what they feed. -/
theorem foldl_filledStep_iff {ls : List (Nat × Application F)} (hearlier : FeedsEarlier slotOf ls)
    (hdec : ls.Pairwise fun L L' => L'.1 < L.1) :
    ls.foldl (filledStep slotOf) filled j = true ↔ filled j = true ∨
      ∃ L ∈ ls, L.2.feedsNode slotOf j = true ∧ ∃ b, Builtin.ofOp? L.2.op = some b ∧
        b.fillsFrom (ls.foldl (filledStep slotOf) filled L.1) = true := by
  induction ls generalizing filled with
  | nil => simp
  | cons L ls ih =>
    obtain ⟨hlater, hdec⟩ := List.pairwise_cons.mp hdec
    have hhead := hearlier L (List.mem_cons_self ..)
    have htail : FeedsEarlier slotOf ls := fun L' hL' => hearlier L' (List.mem_cons_of_mem _ hL')
    -- The head's own derivative is final before it runs.
    have hown : (L :: ls).foldl (filledStep slotOf) filled L.1 = filled L.1 :=
      foldl_filledStep_of_le hearlier (List.forall_mem_cons.mpr
        ⟨Nat.le_refl _, fun L' hL' => Nat.le_of_lt (hlater L' hL')⟩)
    have hstep : filledStep slotOf filled L j = true ↔ filled j = true ∨
        (L.2.feedsNode slotOf j = true ∧
          ∃ b, Builtin.ofOp? L.2.op = some b ∧ b.fillsFrom (filled L.1) = true) := by
      unfold filledStep
      rw [Bool.or_eq_true, Bool.and_eq_true, Option.any_eq_true]
    rw [List.foldl_cons, ih htail hdec, hstep, List.exists_mem_cons_iff, ← List.foldl_cons, hown,
      or_assoc]

/-- In a list in dependency order, layers read smaller places. -/
theorem feedsEarlier_of_ordered {nodes : List (Node F)} (ho : Ordered nodes) :
    FeedsEarlier (slotIn nodes) (layersOf nodes).reverse := by
  intro L hL j hfed
  obtain ⟨q, h, hq, hslot, -⟩ := Application.feedsNode_eq_true.mp hfed
  obtain ⟨i, hi, hposition⟩ := ho.position_lt (List.mem_reverse.mp hL) (List.mem_of_getElem? hq)
  obtain ⟨i', hi', hslot⟩ := slotIn_eq_some.mp hslot
  cases hposition.symm.trans hi'
  rwa [valueSlot_inj.mp hslot] at hi

/-- **A pass fills the derivatives that its layers feed**: those of a layer's operands, unless
it passes on a derivative that is not filled. -/
theorem filledBy_iff {nodes : List (Node F)} (ho : Ordered nodes) {whole : Bool} :
    filledBy whole nodes j = true ↔ (whole = true ∧ j + 1 = nodes.length) ∨
      ∃ k a, (k, a) ∈ layersOf nodes ∧ a.feedsNode (slotIn nodes) j = true ∧
        ∃ b, Builtin.ofOp? a.op = some b ∧ b.fillsFrom (filledBy whole nodes k) = true := by
  unfold filledBy
  rw [foldl_filledStep_iff (feedsEarlier_of_ordered ho)
    (List.pairwise_reverse.mpr (layersOf_increasing nodes))]
  refine or_congr (by simp) ⟨?_, ?_⟩
  · rintro ⟨⟨k, a⟩, hL, h⟩
    exact ⟨k, a, List.mem_reverse.mp hL, h⟩
  · rintro ⟨k, a, hL, h⟩
    exact ⟨(k, a), List.mem_reverse.mpr hL, h⟩

end

/-! ### Layers within their conventions -/

variable [Arith F]

/-- Whether a layer's backward instruction does anything. -/
def Application.Works (slotOf : Handle → Option Nat) (a : Application F) : Prop :=
  a.op.scatter = true ∨ (derCountOf slotOf a).isActive = true

/-- A layer that applies a built-in op within its conventions to what its arguments stand for on a
store. -/
structure Builtin.Conforms (b : Builtin) (bound : Nat) (slotOf : Handle → Option Nat) (t : Store F)
    (a : Application F) : Prop where
  /-- The layer's op is the built-in one. -/
  op : a.op = b.op
  /-- As many derivatives are asked for as a natural number says. -/
  natural : NaturalCount a
  /-- Their number is no real number. -/
  whole : a.CountsWhole
  /-- Nothing but an axis is given by name. -/
  named : ∀ p ∈ a.kwargs, p.1 = "axis"
  /-- No argument is a text. -/
  texts : ∀ v ∈ a.args, v.isText = false
  /-- Operands are numbers. -/
  operands : ∀ x ∈ b.operands (a.args.map (t.argument slotOf)), x.Within bound
  /-- The op admits them. -/
  admits : b.Admits (a.args.map (t.argument slotOf)) Store.zero
  /-- Parts are taken of nodes that have axes, at an index that is a constant. -/
  source : b = slice → ∃ h index, a.args = [.node h, index] ∧ index.node? = none ∧
    (t.argument slotOf (.node h)).shape ≠ .ok []

section

variable {slotOf : Handle → Option Nat} {b : Builtin} {bound : Nat} {s t : Store F}
  {a : Application F} {k : Nat}

omit [Arith F] in
/-- Without texts the derivative of the output stands at the end. -/
theorem adjointArguments_of_texts (htexts : ∀ v ∈ a.args, v.isText = false) :
    adjointArguments slotOf s k a.args
      = a.args.map (s.argument slotOf) ++ [s.content (valueSlot k + 1)] := by
  have hplace : seedPlace a.args = a.args.length := List.findIdx_eq_length.mpr htexts
  unfold adjointArguments
  rw [hplace, List.take_length, List.drop_length]
  rfl

omit [Arith F] in
theorem adjointOperands_of_texts (htexts : ∀ v ∈ a.args, v.isText = false) :
    adjointOperands slotOf a.args = operandSlots slotOf 0 a.args :=
  NodesFirst.adjointOperands fun i _ text _ hi _ => by
    cases htexts _ (List.mem_of_getElem? hi)

theorem Builtin.Conforms.feeds_eq (h : b.Conforms bound slotOf t a) (q : Nat) :
    a.feeds slotOf q = ((b == slice || decide (q < derNumber slotOf a)) && b.feeds q) := by
  unfold Application.feeds
  rw [h.op, Builtin.ofOp?_op]
  rfl

/-- The derivatives that are asked for are taken of what the adjoint answers. -/
theorem Builtin.Conforms.taken (h : b.Conforms bound slotOf t a)
    (hactive : (derCountOf slotOf a).isActive = true) :
    (derCountOf slotOf a).taken = .ok ((derNumber slotOf a : Nat) : Int) := by
  obtain ⟨n, hn⟩ := h.whole.exists_taken slotOf
  rw [hn, (taken_derCountOf h.natural hactive hn).1]

end

/-! ### Stores with filled derivatives -/

/-- A store with the values of another one, whose derivatives are filled as was told. -/
structure Derived (nodes : List (Node F)) (t : Store F) (filled : Nat → Bool) (s : Store F) :
    Prop where
  /-- Every node has two slots. -/
  size : s.size = 2 * nodes.length
  /-- The values are those of the other store. -/
  values : ∀ k, k % 2 = 0 → s.content k = t.content k
  /-- Every derivative is one for the value beside it. -/
  ders : ∀ j, j < nodes.length →
    Value.IsDerivative (filled j) (t.content (valueSlot j)) (s.content (valueSlot j + 1))
  /-- Derivatives other than the root's are no tensors of the accelerator library. -/
  made : ∀ j, j + 1 < nodes.length → (s.content (valueSlot j + 1)).isDevice = false

section

variable {nodes : List (Node F)} {t s : Store F} {filled : Nat → Bool} {f g : Bool} {i j q : Nat}
  {out : List (Value F)}

/-- A derivative is written to the slot of a node that is not the root. -/
theorem Derived.setAt (h : Derived nodes t filled s) (hj : j + 1 < nodes.length) {u : Value F}
    (hu : Value.IsDerivative g (t.content (valueSlot j)) u) (hmade : u.isDevice = false)
    {filled' : Nat → Bool} (hown : filled' j = g) (hother : ∀ i, i ≠ j → filled' i = filled i) :
    Derived nodes t filled' (s.setAt (valueSlot j + 1) u) := by
  have hlt : valueSlot j + 1 < s.size := h.size ▸ valueSlot_succ_lt.mpr (Nat.lt_of_succ_lt hj)
  have hcontent : ∀ i, (s.setAt (valueSlot j + 1) u).content (valueSlot i + 1)
      = if i = j then u else s.content (valueSlot i + 1) := by
    intro i
    split_ifs with hij
    · rw [hij, Store.content_setAt_self hlt]
    · exact Store.content_setAt_of_ne _ (by simpa using hij) u
  refine ⟨by rw [Store.size_setAt, h.size], fun k hk => ?_, fun i hi => ?_, fun i hi => ?_⟩
  · rw [Store.content_setAt_of_ne _ (ne_valueSlot_succ hk j)]
    exact h.values k hk
  · rw [hcontent]
    split_ifs with hij
    · rw [hij, hown]
      exact hu
    · rw [hother i hij]
      exact h.ders i hi
  · rw [hcontent]
    split_ifs
    · exact hmade
    · exact h.made i hi

/-- What an adjoint answered for the argument at a place: a derivative, or nothing. -/
def Answered (out : List (Value F)) (q : Nat) (fed g : Bool) (x : Value F) : Prop :=
  (fed = true → ∃ d, out[q]? = some d ∧ Value.IsDerivative g x d) ∧
    (fed = false → ∀ d, out[q]? = some d → d.isNone = true)

/-- What is answered is taken, unless it is absent. -/
theorem Answered.taken? {fed : Bool} {x : Value F} (h : Answered out q fed g x) :
    SlotGrad.taken? out q = if fed then out[q]? else none := by
  unfold SlotGrad.taken?
  cases fed with
  | true =>
    obtain ⟨d, hd, hder⟩ := h.1 rfl
    rw [hd, Option.filter_some, hder.isNone]
    rfl
  | false =>
    refine Option.filter_eq_none_iff.mpr fun d hd => ?_
    rw [h.2 rfl d hd]
    decide

/-- **One answer is added to the derivative of its operand.** -/
theorem Derived.addResult (h : Derived nodes t filled s) (hj : j + 1 < nodes.length) {fed : Bool}
    (hout : Answered out q fed g (t.content (valueSlot j))) :
    ∃ s', addResult out s (((valueSlot j : Nat) : Int), (q : Int)) = .ok s' ∧
      Derived nodes t (fun i => filled i || (decide (i = j) && fed && g)) s' := by
  unfold SlotGrad.addResult
  dsimp only
  rw [resultAt_natCast]
  cases fed with
  | false =>
    have hsame : (fun i => filled i || (decide (i = j) && false && g)) = filled := by
      funext i
      simp
    rw [hsame]
    refine ⟨s, ?_, h⟩
    cases hq : out[q]? with
    | none => rfl
    | some d =>
      simp only [liftM_eq_lift, Fallible.lift_ok, ok_bind, hout.2 rfl d hq, if_true]
      rfl
  | true =>
    obtain ⟨d, hd, hder⟩ := hout.1 rfl
    have hlt : valueSlot j + 1 < s.size := h.size ▸ valueSlot_succ_lt.mpr (Nat.lt_of_succ_lt hj)
    obtain ⟨u, hu, hsum, hmade⟩ := (h.ders j (by omega)).plus hder
    refine ⟨_, ?_, h.setAt hj hsum hmade (by simp) fun i hi => by simp [hi]⟩
    have hadd : s.accumulate (derSlot ((valueSlot j : Nat) : Int)) d
        = .ok (s.setAt (valueSlot j + 1) u) := by
      rw [show derSlot ((valueSlot j : Nat) : Int) = ((valueSlot j + 1 : Nat) : Int) from rfl,
        Store.accumulate_natCast hlt, hu]
      rfl
    rw [hd]
    simp only [liftM_eq_lift, Fallible.lift_ok, ok_bind, hder.isNone, Bool.false_eq_true,
      if_false, hadd]

/-- Answers are added one after another. -/
theorem Derived.addResults (h : Derived nodes t filled s) (fed : Nat → Bool) (g : Bool)
    {bs : List (Int × Int)} (hbs : ∀ b ∈ bs, ∃ j q : Nat,
      b = (((valueSlot j : Nat) : Int), (q : Int)) ∧ j + 1 < nodes.length ∧
        Answered out q (fed q) g (t.content (valueSlot j))) :
    ∃ s', bs.foldlM (SlotGrad.addResult out) s = .ok s' ∧
      Derived nodes t (fun i => filled i || (bs.any (fun b =>
        b.1 == ((valueSlot i : Nat) : Int) && fed b.2.toNat) && g)) s' := by
  induction bs generalizing filled s with
  | nil =>
    refine ⟨s, rfl, ?_⟩
    simpa using h
  | cons b bs ih =>
    obtain ⟨j, q, rfl, hj, hout⟩ := hbs b (List.mem_cons_self ..)
    obtain ⟨s₁, hs₁, h₁⟩ := h.addResult hj hout
    obtain ⟨s₂, hs₂, h₂⟩ := ih h₁ fun b' hb' => hbs b' (List.mem_cons_of_mem _ hb')
    refine ⟨s₂, ?_, ?_⟩
    · rw [List.foldlM_cons, hs₁]
      exact hs₂
    · have hslot : ∀ i, (((valueSlot j : Nat) : Int) == ((valueSlot i : Nat) : Int))
          = decide (i = j) := by
        intro i
        rw [Bool.eq_iff_iff, beq_iff_eq, decide_eq_true_eq, natCast_valueSlot_inj, eq_comm]
      refine cast (congrArg (Derived nodes t · s₂) (funext fun i => ?_)) h₂
      rw [List.any_cons, hslot, Int.toNat_natCast, Bool.and_or_distrib_right, Bool.or_assoc]

end

/-! ### One backward instruction -/

/-- Results are taken up to a number, and beyond it there are none. -/
theorem Builtin.DerivesAs.answered {b : Builtin} {g : Bool} {xs outs : List (Value F)}
    (h : b.DerivesAs g xs outs) (n : Nat) {q : Nat} {x : Value F} (hx : xs[q]? = some x) :
    Answered (outs.take n) q (decide (q < n) && b.feeds q) g x := by
  rw [Answered, List.getElem?_take]
  constructor
  · intro hfed
    obtain ⟨hq, hfeeds⟩ := Bool.and_eq_true_iff.mp hfed
    rw [if_pos (of_decide_eq_true hq)]
    exact h.fed q x hx hfeeds
  · intro hfed d hd
    split_ifs at hd with hq
    rw [decide_eq_true hq, Bool.true_and] at hfed
    exact h.unfed q d hfed hd

/-- A layer's adjoint accepts the derivative that it finds, if the layer's backward instruction does
anything. -/
def Application.Accepts (slotOf : Handle → Option Nat) (t : Store F) (filled : Bool)
    (a : Application F) : Prop :=
  a.Works slotOf → ∀ b, a.op = Builtin.op b → b.Accepts filled (a.args.map (t.argument slotOf))

section

variable {nodes : List (Node F)} {layers : List (Placed F)} {t : Store F} {filled : Nat → Bool}
  {bound : Nat} {call : Calls F} {p : Placed F} {b : Builtin} {index : Nat} {r : RunState F}

/-- A layer whose instruction does something and whose op answers its value on a store. -/
structure Evaluated (call : Calls F) (bound : Nat) (nodes : List (Node F)) (t : Store F)
    (p : Placed F) : Prop where
  /-- The value is what the op answers. -/
  value : layerCall call (slotIn nodes) t p.layer = .ok (t.content (valueSlot p.place))
  /-- The op is a built-in one, used within its conventions. -/
  conforms : p.layer.Works (slotIn nodes) →
    ∃ b : Builtin, b.Conforms bound (slotIn nodes) t p.layer

/-- The value of a layer is what the built-in op answers. -/
theorem Evaluated.forwardCall (heval : Evaluated call bound nodes t p) (hcall : RunsBuiltins call)
    (hop : p.layer.op = b.op) :
    b.forwardCall ⟨p.layer.args.map (t.argument (slotIn nodes)), p.layer.kwargs⟩
      = .ok (t.content (valueSlot p.place)) :=
  (hcall.layerCall_eq_ok hop).mp heval.value

/-- What a layer's arguments stand for while derivatives are added. -/
theorem Derived.arguments (h : Derived nodes t filled r.store)
    (hw : WellPlaced (slotIn nodes) (2 * nodes.length) layers) (hp : p ∈ layers) :
    p.layer.args.map (r.store.argument (slotIn nodes))
        = p.layer.args.map (t.argument (slotIn nodes)) :=
  hw.argument_eq hp fun j _ => h.values _ (valueSlot_mod_two j)

/-- What the adjoint of a layer answers on a store, if it answers. -/
theorem Builtin.Conforms.adjointAnswer_eq (hb : b.Conforms bound (slotIn nodes) t p.layer)
    (hcall : RunsBuiltins call) (hactive : (derCountOf (slotIn nodes) p.layer).isActive = true)
    (xs : List (Value F)) :
    adjointAnswer call (derCountOf (slotIn nodes) p.layer) p.layer xs
      = (b.adjointCall ⟨xs, p.layer.kwargs⟩).lift.map fun out =>
          (resultsOf out).take (derNumber (slotIn nodes) p.layer) := by
  unfold adjointAnswer
  rw [if_pos hactive, hb.op]
  change (do
    let out ← call b.adjoint ⟨xs, p.layer.kwargs⟩
    return takeResults (← (derCountOf (slotIn nodes) p.layer).taken) (resultsOf out) :
      Attempt (List (Value F))) = _
  rw [hcall.adjoint, hb.taken hactive]
  cases b.adjointCall ⟨xs, p.layer.kwargs⟩ with
  | error e => rfl
  | ok out =>
    change Except.ok
      (takeResults ((derNumber (slotIn nodes) p.layer : Nat) : Int) (resultsOf out)) = _
    unfold takeResults
    rw [if_pos (Int.natCast_nonneg _), Int.toNat_natCast]
    rfl

/-- An answer of a layer is taken of what the adjoint answers. -/
theorem Builtin.Conforms.exists_adjointCall (hb : b.Conforms bound (slotIn nodes) t p.layer)
    (hcall : RunsBuiltins call) (hactive : (derCountOf (slotIn nodes) p.layer).isActive = true)
    {xs out : List (Value F)}
    (hout : adjointAnswer call (derCountOf (slotIn nodes) p.layer) p.layer xs = .ok out) :
    ∃ v, b.adjointCall ⟨xs, p.layer.kwargs⟩ = .ok v ∧
      (resultsOf v).take (derNumber (slotIn nodes) p.layer) = out := by
  rw [hb.adjointAnswer_eq hcall hactive] at hout
  cases hadjoint : b.adjointCall ⟨xs, p.layer.kwargs⟩ with
  | error e =>
    rw [hadjoint] at hout
    cases hout
  | ok v =>
    rw [hadjoint] at hout
    exact ⟨v, rfl, Except.ok.inj hout⟩

omit [Arith F] in
/-- The operands of a layer are nodes of smaller places, and stand for their values. -/
theorem WellPlaced.exists_operand (hw : WellPlaced (slotIn nodes) (2 * nodes.length) layers)
    (hp : p ∈ layers) {c : Int × Int} (hc : c ∈ operandSlots (slotIn nodes) 0 p.layer.args) :
    ∃ j q : Nat, c = (((valueSlot j : Nat) : Int), (q : Int)) ∧ j + 1 < nodes.length ∧
      (p.layer.args.map (t.argument (slotIn nodes)))[q]? = some (t.content (valueSlot j)) := by
  obtain ⟨q, h, slot, hq, hslot, rfl⟩ := mem_operandSlots.mp hc
  obtain ⟨j, hj, hslot'⟩ := hw.earlier p hp h (List.mem_of_getElem? hq)
  cases hslot.symm.trans hslot'
  refine ⟨j, q, by rw [Nat.zero_add], ?_, ?_⟩
  · have := hw.place_lt hp
    omega
  · rw [List.getElem?_map, hq, Option.map_some, Store.argument_node, hslot']
    rfl

/-- The instruction of a layer that calls its adjoint completes exactly if the adjoint accepts the
derivative that it finds. -/
theorem Derived.backwardLayer (h : Derived nodes t filled r.store) (hF : Arith.FiniteUpTo F bound)
    (hcall : RunsBuiltins call) (hw : WellPlaced (slotIn nodes) (2 * nodes.length) layers)
    (hp : p ∈ layers) (hscatter : p.layer.op.scatter = false)
    (heval : Evaluated call bound nodes t p) :
    (p.layer.Accepts (slotIn nodes) t (filled p.place) →
      ∃ s', SlotGrad.backwardLayer call (slotIn nodes) r.store p = .ok s' ∧
        Derived nodes t (filledStep (slotIn nodes) filled (p.place, p.layer)) s') ∧
      (¬ p.layer.Accepts (slotIn nodes) t (filled p.place) →
        ∀ s', SlotGrad.backwardLayer call (slotIn nodes) r.store p ≠ .ok s') := by
  have hplace := hw.place_lt hp
  cases hactive : (derCountOf (slotIn nodes) p.layer).isActive with
  | false =>
    -- Nothing is taken of the adjoint, which is not called.
    have hidle : ¬ p.layer.Works (slotIn nodes) := by
      rintro (hworks | hworks)
      · rw [hscatter] at hworks
        cases hworks
      · rw [hactive] at hworks
        cases hworks
    refine ⟨fun _ => ?_, fun hnot => absurd (fun hworks => absurd hworks hidle) hnot⟩
    have hfilled : filledStep (slotIn nodes) filled (p.place, p.layer) = filled := by
      funext i
      have hfeeds : p.layer.feedsNode (slotIn nodes) i = false := by
        unfold Application.feedsNode Application.feeds
        simp [hscatter, derNumber_eq_zero hactive]
      simp [filledStep, hfeeds]
    have hnone : ∀ c ∈ adjointOperands (slotIn nodes) p.layer.args, ∃ j q : Nat,
        c = (((valueSlot j : Nat) : Int), (q : Int)) ∧ j + 1 < nodes.length ∧
          Answered [] q false false (t.content (valueSlot j)) := by
      intro c hc
      obtain ⟨j, q, rfl, hj⟩ := hw.operands hp hc
      exact ⟨j, q, rfl, by omega, nofun, nofun⟩
    obtain ⟨s', hs', hderived⟩ := h.addResults (fun _ => false) false hnone
    refine ⟨s', ?_, ?_⟩
    · unfold SlotGrad.backwardLayer adjointAnswer
      rw [hactive, if_neg Bool.false_ne_true, ok_bind, hs']
    · rw [hfilled]
      simpa using hderived
  | true =>
    obtain ⟨b, hb⟩ := heval.conforms (.inr hactive)
    set xs := p.layer.args.map (t.argument (slotIn nodes)) with hxs
    set dy := r.store.content (valueSlot p.place + 1) with hdy
    -- The adjoint is called with the values of the forward pass and the derivative it finds.
    have hder : Value.IsDerivative (filled p.place) (t.content (valueSlot p.place)) dy :=
      h.ders _ hplace
    have hvalue : b.forwardCall ⟨xs, p.layer.kwargs⟩ = .ok (t.content (valueSlot p.place)) :=
      heval.forwardCall hcall hb.op
    have hlayer : SlotGrad.backwardLayer call (slotIn nodes) r.store p = (do
        let out ← (b.adjointCall ⟨xs ++ [dy], p.layer.kwargs⟩).lift.map fun out =>
          (resultsOf out).take (derNumber (slotIn nodes) p.layer)
        (operandSlots (slotIn nodes) 0 p.layer.args).foldlM (SlotGrad.addResult out) r.store) := by
      unfold SlotGrad.backwardLayer
      rw [adjointArguments_of_texts hb.texts, h.arguments hw hp, hb.adjointAnswer_eq hcall hactive,
        adjointOperands_of_texts hb.texts]
    have hslice : (b == .slice) = false := by
      have hop : b.op.scatter = false := hb.op ▸ hscatter
      simpa [Builtin.op] using hop
    rw [hlayer]
    constructor
    · intro haccepts
      obtain ⟨out, hout, hderives⟩ :=
        b.exists_answer hF (a := ⟨xs, p.layer.kwargs⟩) hb.named hvalue hder
        hb.operands hb.admits (haccepts (.inr hactive) b hb.op)
      -- What is answered at the place of an operand has the shape of that operand's value.
      have hanswered : ∀ c ∈ operandSlots (slotIn nodes) 0 p.layer.args, ∃ j q : Nat,
          c = (((valueSlot j : Nat) : Int), (q : Int)) ∧ j + 1 < nodes.length ∧
            Answered ((resultsOf out).take (derNumber (slotIn nodes) p.layer)) q
              (p.layer.feeds (slotIn nodes) q) (b.fillsFrom (filled p.place))
              (t.content (valueSlot j)) := by
        intro c hc
        obtain ⟨j, q, rfl, hj, hx⟩ := hw.exists_operand hp hc
        refine ⟨j, q, rfl, hj, ?_⟩
        rw [hb.feeds_eq, hslice, Bool.false_or]
        exact hderives.answered _ hx
      obtain ⟨s', hs', hderived⟩ := h.addResults _ _ hanswered
      refine ⟨s', ?_, ?_⟩
      · rw [hout]
        exact hs'
      · refine cast (congrArg (Derived nodes t · s') (funext fun i => ?_)) hderived
        simp [filledStep, Application.feedsNode, hb.op]
    -- An adjoint that does not accept its derivative answers nothing, so nothing is added.
    · intro hnot s' hs'
      obtain ⟨out, hout, -⟩ := bind_eq_ok.mp hs'
      have hb' : ¬ b.Accepts (filled p.place) xs := fun haccepts => hnot fun _ b' hb' => by
        obtain rfl := Builtin.op_injective (hb'.symm.trans hb.op)
        exact haccepts
      cases hadjoint : b.adjointCall ⟨xs ++ [dy], p.layer.kwargs⟩ with
      | error e =>
        rw [hadjoint] at hout
        cases hout
      | ok v =>
        exact b.adjointCall_of_not_accepts (a := ⟨xs, p.layer.kwargs⟩) hb.named hvalue hder
          hb.operands hb' v hadjoint

/-- An indexing layer on a store: the node and the index that it is applied to, the source's
place and shape, and what the index selects of it. -/
structure ReadsPart (nodes : List (Node F)) (t : Store F) (p : Placed F) (n : Handle) (i : Value F)
    (j : Nat) (s : Shape) (picks : List Pick) (sel : Selection) : Prop where
  /-- The source is a node. -/
  args : p.layer.args = [.node n, i]
  /-- The index is a constant. -/
  constant : i.node? = none
  /-- The source comes before. -/
  earlier : j < p.place
  /-- It has a slot. -/
  slot : slotIn nodes n = some (valueSlot j)
  /-- What the arguments stand for. -/
  values : p.layer.args.map (t.argument (slotIn nodes)) = [t.content (valueSlot j), i]
  /-- The source has a shape. -/
  source : (t.content (valueSlot j)).Shaped s
  /-- It has axes. -/
  axes : s ≠ []
  /-- The index is one. -/
  index : i.picks = .ok picks
  /-- It selects a part. -/
  selects : Selection.resolve picks s = .ok sel
  /-- The layer's value has the shape of the part. -/
  part : (t.content (valueSlot p.place)).shape = .ok sel.shape

/-- Indexing layers within their conventions read a part of a node. -/
theorem Builtin.Conforms.exists_readsPart
    (hb : Builtin.slice.Conforms bound (slotIn nodes) t p.layer) (hcall : RunsBuiltins call)
    (hw : WellPlaced (slotIn nodes) (2 * nodes.length) layers) (hp : p ∈ layers)
    (heval : Evaluated call bound nodes t p) :
    ∃ n i j s picks sel, ReadsPart nodes t p n i j s picks sel := by
  obtain ⟨n, i, hargs, hconstant, haxes⟩ := hb.source rfl
  obtain ⟨j, hj, hslot⟩ := hw.earlier p hp n (by rw [hargs]; exact List.mem_cons_self ..)
  have hsource : t.argument (slotIn nodes) (.node n) = t.content (valueSlot j) := by
    rw [Store.argument_node, hslot]
    rfl
  have hxs : p.layer.args.map (t.argument (slotIn nodes)) = [t.content (valueSlot j), i] := by
    rw [hargs, List.map_cons, List.map_singleton, hsource, Store.argument_of_not_node _ _ hconstant]
  have hoperands := hb.operands
  rw [hxs] at hoperands
  obtain ⟨s, hs⟩ := (hoperands _ (List.mem_singleton_self _)).shaped
  have hvalue := heval.forwardCall hcall hb.op
  rw [hxs] at hvalue
  obtain ⟨x, i', hpos, hpart⟩ := Arguments.call2_positional hvalue hb.named (by decide)
  cases (Arguments.mk.inj hpos).1
  obtain ⟨picks, sel, hpicks, hsel, hr⟩ := Kernel.getAt_shape hs hpart
  refine ⟨n, i, j, s, picks, sel, hargs, hconstant, hj, hslot, hxs, hs, ?_, hpicks, hsel, hr⟩
  rintro rfl
  rw [hsource] at haxes
  exact haxes hs.shape

/-- An indexing layer feeds its source alone. -/
theorem ReadsPart.feedsNode {n : Handle} {i : Value F} {j : Nat} {s : Shape} {picks : List Pick}
    {sel : Selection} (h : ReadsPart nodes t p n i j s picks sel)
    (hb : Builtin.slice.Conforms bound (slotIn nodes) t p.layer) (k : Nat) :
    p.layer.feedsNode (slotIn nodes) k = decide (k = j) := by
  rw [Bool.eq_iff_iff, decide_eq_true_eq, Application.feedsNode_eq_true, h.args]
  constructor
  · rintro ⟨q, m, hq, hm, -⟩
    match q with
    | 0 =>
      cases hq
      exact valueSlot_inj.mp (Option.some.inj (hm.symm.trans h.slot))
    | 1 =>
      cases hq
      cases h.constant
  · rintro rfl
    exact ⟨0, n, rfl, h.slot, by rw [hb.feeds_eq]; rfl⟩

/-- A layer with a sparse update is an indexing layer. -/
theorem Evaluated.conforms_slice (heval : Evaluated call bound nodes t p)
    (hscatter : p.layer.op.scatter = true) :
    Builtin.slice.Conforms bound (slotIn nodes) t p.layer := by
  obtain ⟨b, hb⟩ := heval.conforms (.inl hscatter)
  obtain rfl : b = .slice := by
    have hop : b.op.scatter = true := hb.op ▸ hscatter
    simpa [Builtin.op] using hop
  exact hb

/-- The instruction of an indexing layer is a sparse update. -/
theorem backwardStep_of_scatter {call : Calls F} {i : Instruction F} {args : List (Value F)}
    (hbind : i.bind r.store = .ok args) (hscatter : i.op.scatter = true) :
    SlotGrad.backwardStep call (i, index) r
      = (scatterStep i args r).andThen fun r => .done (r.record index .backward i) := by
  unfold SlotGrad.backwardStep
  dsimp only
  rw [hbind]
  dsimp only
  rw [if_pos hscatter]

/-- An indexing layer's instruction completes, and fills the derivative of the source. -/
theorem Derived.backwardStep_scatter (h : Derived nodes t filled r.store)
    (hcall : RunsBuiltins call) (hw : WellPlaced (slotIn nodes) (2 * nodes.length) layers)
    (hp : p ∈ layers) (hscatter : p.layer.op.scatter = true)
    (heval : Evaluated call bound nodes t p) :
    (backwardStep call (backwardOf (slotIn nodes) p, index) r).error = none ∧
      Derived nodes t (filledStep (slotIn nodes) filled (p.place, p.layer))
        (backwardStep call (backwardOf (slotIn nodes) p, index) r).state.store := by
  have hb := heval.conforms_slice hscatter
  obtain ⟨n, i, j, s, picks, sel, hreads⟩ := hb.exists_readsPart hcall hw hp heval
  have hfeeds := hreads.feedsNode hb
  have hplace := hw.inStore p hp
  have hearlier := hreads.earlier
  have hown := hw.place_lt hp
  have hj : j + 1 < nodes.length := by omega
  have hlt : valueSlot j + 1 < r.store.size := h.size ▸ valueSlot_succ_lt.mpr (Nat.lt_of_succ_lt hj)
  -- What is added, and to what.
  have hdy := (h.ders _ hown).realOver hreads.part
  obtain ⟨u, -, hdys⟩ := hdy.realFits
  obtain ⟨w, htarget, hws, hreal⟩ := (h.ders j (by omega)).exists_scatterTarget
    (r.owned.contains ((valueSlot j + 1 : Nat) : Int)) (h.made j hj) hreads.source hreads.axes hdys
  obtain ⟨z, hz, hzs, hzreal⟩ := Kernel.exists_addAtIndex hreal hreads.index (hws ▸ hreads.selects)
    hdy.realFits
  have hadded : addInto (.array w) i (r.store.content (valueSlot p.place + 1))
      = .ok (.array z) := by
    unfold addInto
    dsimp only
    rw [hz]
    rfl
  have harguments : scatterArguments (adjointArguments (slotIn nodes) r.store p.place p.layer.args)
      = .ok (t.content (valueSlot j), i, r.store.content (valueSlot p.place + 1)) := by
    rw [adjointArguments_of_texts hb.texts, h.arguments hw hp, hreads.values]
    rfl
  have hvar : ((backwardOf (slotIn nodes) p).inputVars.head?).map derSlot
      = some ((valueSlot j + 1 : Nat) : Int) := by
    rw [hw.head_inputVars_backwardOf hp, hreads.args, List.findSome?_cons, Value.node?_node,
      Option.bind_some, hreads.slot]
    rfl
  rw [backwardStep_of_scatter
    (backwardOf_bind (slotIn_lt_size h.size) p (by rw [h.size]; exact hplace)) hscatter,
    scatterStep_eq_done hvar hlt harguments htarget hadded, Store.setAt_setAt]
  refine ⟨rfl, h.setAt (u := .array z) (g := true) hj
    ⟨s, hreads.source.shape, hzs.trans hws ▸ Value.realShaped_array hzreal⟩ rfl ?_ fun k hk => ?_⟩
  · simp [filledStep, hfeeds, hb.op, Builtin.fillsFrom]
  · simp [filledStep, hfeeds, hk]

/-- **A backward instruction completes exactly if the adjoint accepts the derivative that it
finds**, and then fills the derivatives that were told. -/
theorem Derived.backwardStep (h : Derived nodes t filled r.store) (hF : Arith.FiniteUpTo F bound)
    (hcall : RunsBuiltins call) (hw : WellPlaced (slotIn nodes) (2 * nodes.length) layers)
    (hp : p ∈ layers) (heval : Evaluated call bound nodes t p) (index : Nat) :
    ((SlotGrad.backwardStep call (backwardOf (slotIn nodes) p, index) r).error = none ↔
      p.layer.Accepts (slotIn nodes) t (filled p.place)) ∧
      ((SlotGrad.backwardStep call (backwardOf (slotIn nodes) p, index) r).error = none →
        Derived nodes t (filledStep (slotIn nodes) filled (p.place, p.layer))
          (SlotGrad.backwardStep call (backwardOf (slotIn nodes) p, index) r).state.store) := by
  cases hscatter : p.layer.op.scatter with
  | true =>
    obtain ⟨hdone, hderived⟩ := h.backwardStep_scatter hcall hw hp hscatter heval
    refine ⟨⟨fun _ _ b hb => ?_, fun _ => hdone⟩, fun _ => hderived⟩
    obtain rfl := Builtin.op_injective (hb.symm.trans (heval.conforms_slice hscatter).op)
    trivial
  | false =>
    obtain ⟨haccepted, hrefused⟩ := h.backwardLayer hF hcall hw hp hscatter heval
    have hleaves : ∀ s',
      (SlotGrad.backwardStep call (backwardOf (slotIn nodes) p, index) r).Leaves s' ↔
        SlotGrad.backwardLayer call (slotIn nodes) r.store p = .ok s' := fun s' =>
      backwardStep_leaves (slotIn_lt_size h.size) (by rw [h.size]; exact hw.inStore p hp) hscatter
    by_cases haccepts : p.layer.Accepts (slotIn nodes) t (filled p.place)
    · obtain ⟨s', hs', hderived⟩ := haccepted haccepts
      obtain ⟨hdone, rfl⟩ := (hleaves s').mpr hs'
      exact ⟨⟨fun _ => haccepts, fun _ => hdone⟩, fun _ => hderived⟩
    · have hstopped : (SlotGrad.backwardStep call (backwardOf (slotIn nodes) p, index) r).error
          ≠ none :=
        fun hdone => hrefused haccepts _ ((hleaves _).mp ⟨hdone, rfl⟩)
      exact ⟨⟨fun hdone => absurd hdone hstopped, fun h => absurd h haccepts⟩,
        fun hdone => absurd hdone hstopped⟩

omit [Arith F] in
/-- Well placed layers read smaller places. -/
theorem WellPlaced.feedsEarlier {slotOf : Handle → Option Nat} {size : Nat}
    (hw : WellPlaced slotOf size layers) {ls : List (Placed F)} (hls : ∀ p ∈ ls, p ∈ layers) :
    FeedsEarlier slotOf (ls.map fun p => (p.place, p.layer)) := by
  intro L hL j hfed
  obtain ⟨p, hp, rfl⟩ := List.mem_map.mp hL
  obtain ⟨q, n, hq, hslot, -⟩ := Application.feedsNode_eq_true.mp hfed
  obtain ⟨i, hi, hslot'⟩ := hw.earlier p (hls p hp) n (List.mem_of_getElem? hq)
  rwa [valueSlot_inj.mp (Option.some.inj (hslot.symm.trans hslot'))]

/-- **A backward stream completes exactly if every adjoint accepts the derivative that it
finds**, and then fills the derivatives that were told. -/
theorem Derived.runAll_backwardStep (h : Derived nodes t filled r.store)
    (hF : Arith.FiniteUpTo F bound) (hcall : RunsBuiltins call)
    (hw : WellPlaced (slotIn nodes) (2 * nodes.length) layers) {stream : List (Instruction F × Nat)}
    {ls : List (Placed F)}
    (hstream : List.Forall₂ (fun q p => q.1 = backwardOf (slotIn nodes) p) stream ls)
    (hls : ∀ p ∈ ls, p ∈ layers) (hdec : ls.Pairwise fun p q => q.place < p.place)
    (heval : ∀ p ∈ ls, Evaluated call bound nodes t p) {final : Nat → Bool}
    (hfinal : (ls.map fun p => (p.place, p.layer)).foldl
      (filledStep (slotIn nodes)) filled = final) :
    ((runAll (SlotGrad.backwardStep call) stream r).error = none ↔
      ∀ p ∈ ls, p.layer.Accepts (slotIn nodes) t (final p.place)) ∧
      ((runAll (SlotGrad.backwardStep call) stream r).error = none →
        Derived nodes t final (runAll (SlotGrad.backwardStep call) stream r).state.store) := by
  induction hstream generalizing r filled with
  | nil =>
    cases hfinal
    exact ⟨⟨fun _ => by simp, fun _ => rfl⟩, fun _ => h⟩
  | @cons q p stream ls hq _ ih =>
    obtain ⟨i, index⟩ := q
    have hq : i = backwardOf (slotIn nodes) p := hq
    subst hq
    obtain ⟨hlater, hdec⟩ := List.pairwise_cons.mp hdec
    have hp := hls p (List.mem_cons_self ..)
    -- What the adjoint finds is final.
    have hown : final p.place = filled p.place := by
      rw [← hfinal]
      refine foldl_filledStep_of_le (hw.feedsEarlier hls) fun L hL => ?_
      obtain ⟨p', hp', rfl⟩ := List.mem_map.mp hL
      rcases List.mem_cons.mp hp' with rfl | hp'
      · exact Nat.le_refl _
      · exact Nat.le_of_lt (hlater p' hp')
    obtain ⟨hstep, hnext⟩ := h.backwardStep hF hcall hw hp (heval p (List.mem_cons_self ..)) index
    rw [runAll_cons_completed, List.forall_mem_cons, hown, ← hstep]
    have hrest := fun hdone =>
      ih (hnext hdone) (fun p' hp' => hls p' (List.mem_cons_of_mem _ hp')) hdec
      (fun p' hp' => heval p' (List.mem_cons_of_mem _ hp')) hfinal
    refine ⟨and_congr_right fun hdone => (hrest hdone).1, fun hboth => ?_⟩
    rw [runAll_cons_state stream hboth.1]
    exact (hrest hboth.1).2 hboth.2

end

end SlotGrad
