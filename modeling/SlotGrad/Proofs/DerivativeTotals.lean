import SlotGrad.Proofs.AdditiveSeeds
import SlotGrad.Proofs.Amounts
import SlotGrad.Proofs.SharedValues

/-!
# What derivatives amount to

After a completed backward pass the derivative of a node amounts to the sum of what its readers add:
what their adjoints answer for it, and what sparse updates add at an index.  Both are told from the
values and derivatives of nodes, so the sum does not depend on the net's order or slots.

Values are those of the forward pass.  An indexing layer that reads no node writes the value
slot after its own, but only when no later instruction reads it, so that adjoints are called on
the values of the forward pass all the same.

## Main definitions

* `evaluationReading` — what an evaluation leaves, told about nodes.
* `sparseAmount`, `Node.addend` — what a node adds to the derivative of another.
* `AnswersNumbers` — a reading on which what is answered for a node are numbers.
* `AddsReals` — a reading on which sparse updates make real arrays.
* `Differentiates` — a reading whose derivatives are sums of what readers add.

## Main results

* `Streams.backward_run` — the induction over a completed backward stream.
* `Streams.backwardStep_amount`, `Streams.backward_amount` — a backward instruction adds what
  its layer adds, and so does a stream.
* `Streams.evaluationReading_evaluates`, `Streams.differentiates` — what a completed evaluation
  leaves.
-/

namespace SlotGrad

section

variable {F : Type} [Arith F]

/-- What an evaluation leaves, told about nodes: the values of its forward pass, and the
derivatives of its backward pass. -/
def evaluationReading (call : Calls F) (net : CompiledNet F) (nodes : List (Node F))
    (o : EvalOptions F) (r : RunState F) : Reading F where
  value := ((runForward call .forward net.forward r).state.store.reading nodes).value
  der := ((evaluate call net .normal o r).state.store.reading nodes).der

/-- Sparse updates make real arrays. -/
def AddsReals (nodes : List (Node F)) (v : Reading F) : Prop :=
  ∀ n ∈ nodes, ∀ a, n.role = .layer a → a.op.scatter = true → ∀ source index dy d,
    scatterArguments (v.adjointArguments n.id a.args) = .ok (source, index, dy) →
      source.commonDtype dy = .ok d → d.isReal = true

/-- What adjoints answer for the node of an identity are numbers. -/
def AnswersNumbers (call : Calls F) (nodes : List (Node F)) (v : Reading F) (id : Nat) : Prop :=
  ∀ n ∈ nodes, ∀ a, n.role = .layer a → a.op.scatter = false → ∀ out,
    adjointAnswer call (countOf a) a (v.adjointArguments n.id a.args) = .ok out →
      ∀ w ∈ contributions id n out, w.figures?.isSome

variable {nodes : List (Node F)} {layers : List (Placed F)} {net : CompiledNet F} {call : Calls F}

omit [Arith F] in
/-- An adjoint is called on a store as on a reading that agrees with it on what the layer reads. -/
theorem Streams.adjointArguments_reading (h : Streams nodes layers net) (ho : Ordered nodes)
    {p : Placed F} (hp : p ∈ layers) {n : Node F} (hn : nodes[p.place]? = some n) {v : Reading F}
    {s : Store F} (hvalues : ∀ k m, k < p.place → nodes[k]? = some m →
      s.content (valueSlot k) = v.value m.id)
    (hder : s.content (valueSlot p.place + 1) = v.der n.id) :
    adjointArguments (slotIn nodes) s p.place p.layer.args
      = v.adjointArguments n.id p.layer.args := by
  have hargument : ∀ w ∈ p.layer.args, s.argument (slotIn nodes) w = v.argument w := by
    intro w hw
    cases w with
    | node m =>
      obtain ⟨n', hn', hrole⟩ := SlotGrad.mem_layersOf.mp (h.mem_layersOf hp)
      obtain rfl := Option.some.inj (hn.symm.trans hn')
      obtain ⟨k, hk, x, hx, hid⟩ := ho.earlier p.place n hn m (mem_deps_of_arg hrole hw)
      have hslot := (slotIn_eq_valueSlot ho.distinct hx).mpr hid.symm
      rw [Store.argument_node, hslot, Option.map_some, Option.getD_some, hvalues k x hk hx, hid]
      rfl
    | _ => rfl
  unfold adjointArguments Reading.adjointArguments
  rw [hder, List.map_congr_left fun w hw => hargument w (List.mem_of_mem_take hw),
    List.map_congr_left fun w hw => hargument w (List.mem_of_mem_drop hw)]

/-- **The induction over a completed backward stream.**  What holds of the state and of the
layers that are still to come is kept if it is kept by every completed instruction that is
called on the values and final derivatives of nodes. -/
theorem Streams.backward_run (h : Streams nodes layers net) (ho : Ordered nodes) {v : Reading F}
    {motive : List (Placed F) → RunState F → Prop} {stream : List (Instruction F × Nat)}
    {ls : List (Placed F)}
    (hstream : List.Forall₂ (fun q p => q.1 = backwardOf (slotIn nodes) p) stream ls)
    (hls : ∀ p ∈ ls, p ∈ layers) (hdec : ls.Pairwise fun p q => q.place < p.place) {r : RunState F}
    (hsize : r.store.size = 2 * nodes.length)
    (hdone : (runAll (backwardStep call) stream r).error = none)
    (hvalues : ∀ p ∈ ls, ∀ k m, k < p.place → nodes[k]? = some m →
      r.store.content (valueSlot k) = v.value m.id)
    (hders : ∀ k m, nodes[k]? = some m →
      (runAll (backwardStep call) stream r).state.store.content (valueSlot k + 1) = v.der m.id)
    (hinit : motive ls r)
    (hstep : ∀ p ∈ layers, ∀ n, nodes[p.place]? = some n → ∀ rest index r',
      r'.store.size = 2 * nodes.length →
      adjointArguments (slotIn nodes) r'.store p.place p.layer.args
        = v.adjointArguments n.id p.layer.args →
      (backwardStep call (backwardOf (slotIn nodes) p, index) r').error = none →
      motive (p :: rest) r' →
        motive rest (backwardStep call (backwardOf (slotIn nodes) p, index) r').state) :
    motive [] (runAll (backwardStep call) stream r).state := by
  have hw := h.wellPlaced ho
  induction hstream generalizing r with
  | nil => exact hinit
  | @cons q p stream ls hq hrest ih =>
    obtain ⟨i, index⟩ := q
    have hq : i = backwardOf (slotIn nodes) p := hq
    subst hq
    have hp := hls p (List.mem_cons_self ..)
    have hls' : ∀ p' ∈ ls, p' ∈ layers := fun p' hp' => hls p' (List.mem_cons_of_mem _ hp')
    have hlater := (List.pairwise_cons.mp hdec).1
    obtain ⟨n, hn, -⟩ := SlotGrad.mem_layersOf.mp (h.mem_layersOf hp)
    obtain ⟨hfirst, hothers⟩ := runAll_cons_completed.mp hdone
    have hstate := runAll_cons_state stream hfirst
    have hkeeps := fun {k : Nat} hk => hw.backwardStep_keeps hp call index (k := k) hk r
    -- The layer's own derivative is changed neither by its instruction nor by later ones.
    have hown : r.store.content (valueSlot p.place + 1) = v.der n.id := by
      have hodd := valueSlot_succ_mod_two p.place
      rw [← hders p.place n hn, hstate, ← (hkeeps (.inr ⟨hodd, by omega⟩)).2]
      refine (hw.backward_keeps hrest hls' call (fun p' hp' => .inr ⟨hodd, ?_⟩) _).2.symm
      have := valueSlot_lt_valueSlot.mpr (hlater p' hp')
      omega
    have hargs := h.adjointArguments_reading ho hp hn (hvalues p (List.mem_cons_self ..)) hown
    rw [hstate]
    refine ih hls' (List.pairwise_cons.mp hdec).2
      ((hkeeps (.inl ⟨rfl, Nat.zero_le _⟩)).1.trans hsize)
      hothers (fun p' hp' k m hk hm => ?_) (fun k m hm => ?_)
      (hstep p hp n hn ls index r hsize hargs hfirst hinit)
    · have := hlater p' hp'
      rw [(hkeeps (.inl ⟨by unfold valueSlot; omega, by unfold valueSlot; omega⟩)).2]
      exact hvalues p (List.mem_cons_self ..) k m (by omega) hm
    · rw [← hstate]
      exact hders k m hm

end

variable {K : Type} [Field K] [Arith K] [ExactArith K]

/-- What a sparse update adds that is called with some arguments. -/
noncomputable def sparseAmount (args : List (Value K)) : Amount K :=
  match scatterArguments args with
  | .ok (source, index, dy) =>
    match sparseAddend source index dy with
    | .ok h => h.amount
    | .error _ => fun _ => ⊤
  | .error _ => fun _ => ⊤

/-- What a node adds to the derivative of the node of an identity.  A sparse update is for the first
node that the layer reads. -/
noncomputable def Node.addend (call : Calls K) (v : Reading K) (n : Node K) (id : Nat) : Amount K :=
  match n.application? with
  | none => 0
  | some a =>
    if a.op.scatter then
      if (a.args.findSome? Value.node?).map Handle.id = some id then
        sparseAmount (v.adjointArguments n.id a.args)
      else 0
    else
      match adjointAnswer call (countOf a) a (v.adjointArguments n.id a.args) with
      | .ok out => ((contributions id n out).map Value.amount).sum
      | .error _ => 0

omit [ExactArith K] in
theorem Node.addend_of_leaf {n : Node K} (hleaf : n.application? = none) (call : Calls K)
    (v : Reading K) (id : Nat) : n.addend call v id = 0 := by
  unfold Node.addend
  rw [hleaf]

omit [ExactArith K] in
theorem Node.addend_of_dense {n : Node K} {a : Application K} (hrole : n.role = .layer a)
    (hscatter : a.op.scatter = false) {call : Calls K} {v : Reading K} {out : List (Value K)}
    (hout : adjointAnswer call (countOf a) a (v.adjointArguments n.id a.args) = .ok out)
    (id : Nat) :
    n.addend call v id = ((contributions id n out).map Value.amount).sum := by
  unfold Node.addend
  rw [application?_eq_some.mpr hrole]
  dsimp only
  rw [hscatter, if_neg Bool.false_ne_true, hout]

omit [ExactArith K] in
theorem Node.addend_of_sparse {n : Node K} {a : Application K} (hrole : n.role = .layer a)
    (hscatter : a.op.scatter = true) (call : Calls K) (v : Reading K) (id : Nat) :
    n.addend call v id = if (a.args.findSome? Value.node?).map Handle.id = some id then
      sparseAmount (v.adjointArguments n.id a.args) else 0 := by
  unfold Node.addend
  rw [application?_eq_some.mpr hrole]
  dsimp only
  rw [hscatter, if_pos rfl]

section

variable {nodes : List (Node K)} {layers : List (Placed K)} {net : CompiledNet K} {call : Calls K}
  {v : Reading K} {j : Nat} {m : Node K}

variable {p : Placed K} {n : Node K} {index : Nat} {r : RunState K} {c c' : Value K}

/-- The backward instruction of an indexing layer adds to a derivative what the layer adds. -/
theorem Streams.backwardStep_amount_of_scatter (h : Streams nodes layers net) (ho : Ordered nodes)
    (hreal : AddsReals nodes v) (hm : nodes[j]? = some m) (hp : p ∈ layers)
    (hn : nodes[p.place]? = some n) (hscatter : p.layer.op.scatter = true)
    (hsize : r.store.size = 2 * nodes.length)
    (hargs : adjointArguments (slotIn nodes) r.store p.place p.layer.args
      = v.adjointArguments n.id p.layer.args)
    (hdone : (backwardStep call (backwardOf (slotIn nodes) p, index) r).error = none)
    (hc : r.store.content (valueSlot j + 1) = c)
    (hc' : (backwardStep call (backwardOf (slotIn nodes) p, index) r).state.store.content
      (valueSlot j + 1) = c') (hfractional : c.isFractional = true) (hfigures : c.figures?.isSome) :
    c'.isFractional = true ∧ c'.figures?.isSome ∧ c'.amount = c.amount + n.addend call v m.id := by
  have hw := h.wellPlaced ho
  obtain ⟨n', hn', hrole⟩ := SlotGrad.mem_layersOf.mp (h.mem_layersOf hp)
  obtain rfl : n = n' := Option.some.inj (hn.symm.trans hn')
  have hown : valueSlot p.place + 1 < r.store.size := hsize ▸ hw.inStore p hp
  have hder : valueSlot j + 1 < r.store.size :=
    hsize ▸ valueSlot_succ_lt.mpr (List.getElem?_eq_some_iff.mp hm).1
  rw [Node.addend_of_sparse hrole hscatter, ← hargs]
  have hhead := hw.head_inputVars_backwardOf hp
  cases hfirst : p.layer.args.findSome? Value.node? with
  | none =>
    -- The layer reads no node, and writes no derivative.
    rw [hfirst] at hhead
    rw [if_neg (by rw [Option.map_none]; exact Option.some_ne_none _ ∘ Eq.symm), add_zero]
    have hkept : SameAt (valueSlot j + 1) r.store
        (backwardStep call (backwardOf (slotIn nodes) p, index) r).state.store := by
      refine SlotGrad.backwardStep_frame fun slot hslot => ?_
      have hscatter' : (backwardOf (slotIn nodes) p).op.scatter = true := hscatter
      unfold Instruction.targets at hslot
      rw [if_pos hscatter', hhead] at hslot
      obtain rfl : slot = ((valueSlot (p.place + 1) : Nat) : Int) := List.mem_singleton.mp hslot
      exact locate?_ne_of_ne (ne_valueSlot_succ (valueSlot_mod_two _) j)
    rw [← hc', hkept.2, hc]
    exact ⟨hfractional, hfigures, rfl⟩
  | some b =>
    obtain ⟨k, hk, hslot⟩ := hw.first_earlier hp hfirst
    rw [hfirst, Option.bind_some, hslot] at hhead
    obtain ⟨source, i, dy, target, u, hthree, htarget, hu, hstate⟩ :=
      backwardStep_completed_sparse (hsize ▸ hw.slot_lt) hown
        hscatter hhead (by unfold valueSlot at hown ⊢; omega) hdone
    -- The update is seen at the source's slot and at no other.
    have hcontent : c' = if k = j then u else c := by
      rw [← hc', hstate, ← hc]
      change (r.store.setAt (valueSlot k + 1) u).content (valueSlot j + 1) = _
      split
      · rename_i hkj
        rw [hkj, Store.content_setAt_self hder]
      · rename_i hkj
        rw [Store.content_setAt_of_ne _ (by simpa using Ne.symm hkj)]
    have hiff : Option.map Handle.id (some b) = some m.id ↔ k = j := by
      rw [Option.map_some, Option.some.injEq, ← slotIn_eq_valueSlot ho.distinct hm, hslot,
        Option.some.injEq, valueSlot_inj]
    rw [if_congr hiff rfl rfl, hcontent]
    split
    · rename_i hkj
      rw [hkj, hc] at htarget
      obtain ⟨g, hg⟩ := Option.isSome_iff_exists.mp hfigures
      have hdtype : ∀ d, source.commonDtype dy = .ok d → d.isReal = true := fun d =>
        hreal n (List.mem_of_getElem? hn) _ hrole hscatter source i dy d (hargs ▸ hthree)
      obtain ⟨e, he, hgains⟩ := scatter_gains hfractional hg (fun _ => hdtype) htarget hu
      refine ⟨hgains.real, hgains.isSome, ?_⟩
      unfold sparseAmount
      rw [hthree]
      dsimp only
      rw [he]
      exact hgains.amount
    · exact ⟨hfractional, hfigures, (add_zero _).symm⟩

/-- **A backward instruction adds to a derivative what its layer adds.** -/
theorem Streams.backwardStep_amount (h : Streams nodes layers net) (ho : Ordered nodes)
    (hreal : AddsReals nodes v) (hm : nodes[j]? = some m)
    (hnumbers : AnswersNumbers call nodes v m.id) (hp : p ∈ layers)
    (hn : nodes[p.place]? = some n) (hsize : r.store.size = 2 * nodes.length)
    (hargs : adjointArguments (slotIn nodes) r.store p.place p.layer.args
      = v.adjointArguments n.id p.layer.args)
    (hdone : (backwardStep call (backwardOf (slotIn nodes) p, index) r).error = none)
    (hc : r.store.content (valueSlot j + 1) = c)
    (hc' : (backwardStep call (backwardOf (slotIn nodes) p, index) r).state.store.content
      (valueSlot j + 1) = c') (hfractional : c.isFractional = true) (hfigures : c.figures?.isSome) :
    c'.isFractional = true ∧ c'.figures?.isSome ∧ c'.amount = c.amount + n.addend call v m.id := by
  cases hscatter : p.layer.op.scatter with
  | true =>
    exact h.backwardStep_amount_of_scatter ho hreal hm hp hn hscatter hsize hargs hdone hc hc'
      hfractional hfigures
  | false =>
    have hw := h.wellPlaced ho
    obtain ⟨n', hn', hrole⟩ := SlotGrad.mem_layersOf.mp (h.mem_layersOf hp)
    obtain rfl : n = n' := Option.some.inj (hn.symm.trans hn')
    have hder : valueSlot j + 1 < r.store.size :=
      hsize ▸ valueSlot_succ_lt.mpr (List.getElem?_eq_some_iff.mp hm).1
    obtain ⟨out, hout, hadds⟩ := (backwardLayer_eq_ok (hsize ▸ hw) hp).mp
      ((backwardStep_leaves (hsize ▸ hw.slot_lt)
        (hsize ▸ hw.inStore p hp) hscatter).mp ⟨hdone, rfl⟩)
    rw [h.derCountOf_eq hp, hargs] at hout
    have hsum := hadds.ders j hder
    rw [picks_adjointOperands ho.distinct hm (application?_eq_some.mpr hrole), hc, hc'] at hsum
    rw [Node.addend_of_dense hrole hscatter hout]
    exact Value.amount_foldlM_plus
      (hnumbers n (List.mem_of_getElem? hn) _ hrole hscatter out hout) hfractional hfigures hsum

/-- **A completed backward stream adds to a derivative what its layers add.** -/
theorem Streams.backward_amount (h : Streams nodes layers net) (ho : Ordered nodes)
    (hreal : AddsReals nodes v) (hm : nodes[j]? = some m)
    (hnumbers : AnswersNumbers call nodes v m.id) {stream : List (Instruction K × Nat)}
    {ls : List (Placed K)}
    (hstream : List.Forall₂ (fun q p => q.1 = backwardOf (slotIn nodes) p) stream ls)
    (hls : ∀ p ∈ ls, p ∈ layers) (hdec : ls.Pairwise fun p q => q.place < p.place) {r : RunState K}
    (hsize : r.store.size = 2 * nodes.length)
    (hdone : (runAll (backwardStep call) stream r).error = none)
    (hvalues : ∀ p ∈ ls, ∀ k m, k < p.place → nodes[k]? = some m →
      r.store.content (valueSlot k) = v.value m.id)
    (hders : ∀ k m, nodes[k]? = some m →
      (runAll (backwardStep call) stream r).state.store.content (valueSlot k + 1) = v.der m.id)
    {c : Value K} (hc : r.store.content (valueSlot j + 1) = c) (hfractional : c.isFractional = true)
    (hfigures : c.figures?.isSome) :
    (v.der m.id).figures?.isSome ∧ (v.der m.id).amount = c.amount + (ls.map fun p =>
      ((nodes[p.place]?).map fun n => n.addend call v m.id).getD 0).sum := by
  -- What the derivative amounts to, together with what is still to be added, stays the same.
  have hall := h.backward_run ho (motive := fun rest r' =>
      (r'.store.content (valueSlot j + 1)).isFractional = true ∧
      (r'.store.content (valueSlot j + 1)).figures?.isSome ∧
      (r'.store.content (valueSlot j + 1)).amount + (rest.map fun p =>
          ((nodes[p.place]?).map fun n => n.addend call v m.id).getD 0).sum
        = c.amount
          + (ls.map fun p => ((nodes[p.place]?).map fun n => n.addend call v m.id).getD 0).sum)
    hstream hls hdec hsize hdone hvalues hders ⟨hc ▸ hfractional, hc ▸ hfigures, by rw [hc]⟩ ?_
  · obtain ⟨-, hsome, hamount⟩ := hall
    rw [hders j m hm] at hsome hamount
    rw [List.map_nil, List.sum_nil, add_zero] at hamount
    exact ⟨hsome, hamount⟩
  · rintro p hp n hn rest index r' hsize' hargs hfirst ⟨hreal', hfigures', htotal⟩
    obtain ⟨hreal'', hfigures'', hamount⟩ := h.backwardStep_amount ho hreal hm hnumbers hp hn hsize'
      hargs hfirst rfl rfl hreal' hfigures'
    refine ⟨hreal'', hfigures'', ?_⟩
    rw [← htotal, hamount, List.map_cons, List.sum_cons, hn, Option.map_some, Option.getD_some,
      add_assoc]

omit [ExactArith K] in
/-- What the layers add is what the nodes add. -/
theorem Streams.sum_addends (h : Streams nodes layers net) (v : Reading K) (id : Nat) :
    (layers.reverse.map fun p => ((nodes[p.place]?).map fun n => n.addend call v id).getD 0).sum
      = (nodes.map fun n => n.addend call v id).sum := by
  have hplaces : (layers.map fun p => ((nodes[p.place]?).map fun n => n.addend call v id).getD 0)
      = (layersOf nodes).map fun L => ((nodes[L.1]?).map fun n => n.addend call v id).getD 0 := by
    rw [← h.places, List.map_map]
    rfl
  have hfilter : ∀ qs : List (Node K × Nat), (∀ q ∈ qs, nodes[q.2]? = some q.1) →
      ((qs.filterMap fun q => q.1.application?.map fun a => (q.2, a)).map fun L =>
        ((nodes[L.1]?).map fun n => n.addend call v id).getD 0).sum
          = (qs.map fun q => q.1.addend call v id).sum := by
    intro qs
    induction qs with
    | nil => exact fun _ => rfl
    | cons q qs ih =>
      intro hqs
      rw [List.forall_mem_cons] at hqs
      rw [List.filterMap_cons, List.map_cons, List.sum_cons, ← ih hqs.2]
      cases happlication : q.1.application? with
      | none =>
        rw [Node.addend_of_leaf happlication]
        exact (zero_add _).symm
      | some a => rw [Option.map_some, List.map_cons, List.sum_cons, hqs.1, Option.map_some,
          Option.getD_some]
  rw [List.map_reverse, List.sum_reverse, hplaces, layersOf, hfilter _ fun q hq =>
    List.mem_zipIdx_iff_getElem?.mp hq]
  conv_rhs => rw [← List.zipIdx_map_fst 0 nodes, List.map_map]
  rfl

omit [Field K] [ExactArith K] in
/-- Seeded derivatives other than the root's are zero, and the root's is the seed, if
derivatives are not accumulated. -/
theorem startAt_plain {o : EvalOptions K} (hacc : o.accumulate = false) (s : Store K) (k : Nat) :
    startAt nodes o s k = if k + 1 = nodes.length then o.seed else Store.zero := by
  unfold startAt
  simp [hacc]

omit [Field K] [ExactArith K] in
/-- In a completed backward stream every adjoint answers, called on the values and final
derivatives of nodes. -/
theorem Streams.backward_answers (h : Streams nodes layers net) (ho : Ordered nodes)
    {stream : List (Instruction K × Nat)} {ls : List (Placed K)}
    (hstream : List.Forall₂ (fun q p => q.1 = backwardOf (slotIn nodes) p) stream ls)
    (hls : ∀ p ∈ ls, p ∈ layers) (hdec : ls.Pairwise fun p q => q.place < p.place) {r : RunState K}
    (hsize : r.store.size = 2 * nodes.length)
    (hdone : (runAll (backwardStep call) stream r).error = none)
    (hvalues : ∀ p ∈ ls, ∀ k m, k < p.place → nodes[k]? = some m →
      r.store.content (valueSlot k) = v.value m.id)
    (hders : ∀ k m, nodes[k]? = some m →
      (runAll (backwardStep call) stream r).state.store.content (valueSlot k + 1) = v.der m.id)
    {p : Placed K} (hp : p ∈ ls) {n : Node K} (hn : nodes[p.place]? = some n)
    (hscatter : p.layer.op.scatter = false) :
    ∃ out, adjointAnswer call (countOf p.layer) p.layer (v.adjointArguments n.id p.layer.args)
      = .ok out := by
  -- The layer is still to come, or has answered.
  have hall := h.backward_run ho (motive := fun rest _ => p ∈ rest ∨ ∃ out,
      adjointAnswer call (countOf p.layer) p.layer (v.adjointArguments n.id p.layer.args) = .ok out)
    hstream hls hdec hsize hdone hvalues hders (.inl hp) ?_
  · exact hall.resolve_left List.not_mem_nil
  · rintro p' hp' n' hn' rest index r' hsize' hargs hfirst (hmem | hout)
    · rcases List.mem_cons.mp hmem with rfl | hmem
      · have hw := h.wellPlaced ho
        obtain rfl := Option.some.inj (hn.symm.trans hn')
        obtain ⟨out, hout, -⟩ := backwardStep_completed_dense (hsize' ▸ hw.slot_lt)
          (hsize' ▸ hw.inStore p hp') hscatter hfirst
        rw [h.derCountOf_eq hp', hargs] at hout
        exact .inr ⟨out, hout⟩
      · exact .inl hmem
    · exact .inr hout

end

/-! ### Evaluations as readings -/

/-- What a completed backward pass leaves, told about nodes: adjoints answer, the last node's
derivative is the seed, and any other derivative amounts to what its readers add, if these are
numbers. -/
structure Differentiates (call : Calls K) (nodes : List (Node K)) (seed : Value K) (v : Reading K) :
    Prop where
  /-- Nodes come after what they read. -/
  ordered : Ordered nodes
  /-- Adjoints of layers answer, but for indexing layers. -/
  answers : ∀ n ∈ nodes, ∀ a, n.role = .layer a → a.op.scatter = false →
    ∃ out, adjointAnswer call (countOf a) a (v.adjointArguments n.id a.args) = .ok out
  /-- The last node starts from the seed. -/
  root : ∀ n, nodes.getLast? = some n → v.der n.id = seed
  /-- Derivatives of other nodes are sums. -/
  ders : ∀ m ∈ nodes, nodes.getLast? ≠ some m → AnswersNumbers call nodes v m.id →
    (v.der m.id).figures?.isSome ∧
      (v.der m.id).amount = (nodes.map fun n => n.addend call v m.id).sum

/-- The values that an evaluation leaves are those of its forward pass. -/
theorem Streams.evaluationReading_evaluates {F : Type} [Arith F] {nodes : List (Node F)}
    {layers : List (Placed F)} {net : CompiledNet F} (h : Streams nodes layers net)
    (ho : Ordered nodes) {call : Calls F} {o : EvalOptions F} {r : RunState F}
    (hdone : (evaluate call net .normal o r).error = none) :
    Evaluates call nodes r.store (evaluationReading call net nodes o r) := by
  obtain ⟨hsize, -, hforward, -⟩ := h.evaluate_completed hdone
  have hv := (h.evaluates_of_forward ho hsize ⟨hforward, rfl⟩).2
  exact ⟨hv.computes.congr ho fun n _ => rfl, hv.leaves⟩

/-- **A completed evaluation differentiates**, if sparse updates make real arrays. -/
theorem Streams.differentiates {nodes : List (Node K)} {layers : List (Placed K)}
    {net : CompiledNet K} (h : Streams nodes layers net) (ho : Ordered nodes) (hne : nodes ≠ [])
    {o : EvalOptions K} (hacc : o.accumulate = false)
    (hkept : ∀ slot, slot ∈ keptSlots net o ↔ o.accumulate = true ∧ ∃ k,
      (nodes[k]?).map Node.kind = some .param ∧ slot = ((valueSlot k + 1 : Nat) : Int))
    {call : Calls K} {r : RunState K} (hdone : (evaluate call net .normal o r).error = none)
    (hreal : AddsReals nodes (evaluationReading call net nodes o r)) :
    Differentiates call nodes o.seed (evaluationReading call net nodes o r) := by
  have hw := h.wellPlaced ho
  have hd := ho.distinct
  have hpos := List.length_pos_iff.mpr hne
  obtain ⟨hsize, -, hforward, hstate⟩ := h.evaluate_completed hdone
  obtain ⟨hseeded, -, hstart⟩ := h.seededRun_content (o := o) ho hne call hkept hsize hforward
  have hstream := forall₂_zipIdx_map (backwardOf (slotIn nodes)) layers.reverse 0
  have hls : ∀ p ∈ layers.reverse, p ∈ layers := fun p hp => List.mem_reverse.mp hp
  have hdec := List.pairwise_reverse.mpr hw.increasing
  rw [hstate, h.backward] at hdone
  -- The backward stream starts from the values of the forward pass.
  have hvalues : ∀ k m, nodes[k]? = some m → (seededRun call net o r).store.content (valueSlot k)
      = (evaluationReading call net nodes o r).value m.id := by
    intro k m hm
    unfold evaluationReading seededRun
    rw [Store.value_reading hd hm, Outcome.andThen_state _ hforward]
    exact (seedDers_frame (valueSlot_mod_two k)).2
  have hders : ∀ k m, nodes[k]? = some m → (runAll (backwardStep call)
      (layers.reverse.map (backwardOf (slotIn nodes))).zipIdx
      (seededRun call net o r)).state.store.content
        (valueSlot k + 1) = (evaluationReading call net nodes o r).der m.id := by
    intro k m hm
    unfold evaluationReading
    rw [Store.der_reading hd hm, hstate, h.backward]
  refine ⟨ho, fun n hn a hrole hscatter => ?_, fun n hn => ?_, fun m hm hlast hnumbers => ?_⟩
  · obtain ⟨k, hk⟩ := List.mem_iff_getElem?.mp hn
    have hmem : (k, a) ∈ layersOf nodes := SlotGrad.mem_layersOf.mpr ⟨n, hk, hrole⟩
    rw [← h.places] at hmem
    obtain ⟨p, hp, heq⟩ := List.mem_map.mp hmem
    cases heq
    exact h.backward_answers ho hstream hls hdec hseeded hdone (fun _ _ k m _ hm => hvalues k m hm)
      hders (List.mem_reverse.mpr hp) hk hscatter
  · -- No instruction changes the derivative of the last node.
    rw [List.getLast?_eq_getElem?] at hn
    rw [← hders _ n hn, (hw.backward_keeps hstream hls call (fun p hp => .inr ⟨?_, ?_⟩) _).2,
      hstart _ (by omega), startAt_plain hacc, if_pos (by omega)]
    · exact valueSlot_succ_mod_two _
    · have := h.place_lt (hls p hp)
      unfold valueSlot
      omega
  · obtain ⟨j, hj⟩ := List.mem_iff_getElem?.mp hm
    have hjlt := (List.getElem?_eq_some_iff.mp hj).1
    -- Every other node starts from the zero of the reset.
    have hbefore : j + 1 < nodes.length := by
      by_contra hge
      refine hlast ?_
      rw [List.getLast?_eq_getElem?, show nodes.length - 1 = j by omega, hj]
    have hzero : (Store.zero : Value K).figures? = some (.single 0) :=
      figures?_of_isZeroValue rfl ((ExactArith.same_iff _ _).mpr rfl)
    have hfrom := hstart j hjlt
    rw [startAt_plain hacc, if_neg (by omega)] at hfrom
    obtain ⟨hsome, hamount⟩ := h.backward_amount ho hreal hj hnumbers hstream hls hdec hseeded hdone
      (fun _ _ k m _ hm => hvalues k m hm) hders hfrom rfl (by rw [hzero]; rfl)
    refine ⟨hsome, ?_⟩
    rw [hamount, h.sum_addends, Value.amount_of_figures? hzero, Grid.amount_zero, zero_add]

end SlotGrad
