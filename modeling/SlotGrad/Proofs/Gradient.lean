import Mathlib.Algebra.BigOperators.Group.Finset.Basic
import SlotGrad.Proofs.DualRun

/-!
# Reverse mode computes the exact gradient

The derivative slots are counted against the dual values of a forward run with tangents.  When a
layer is run backward, its own derivative stops being counted and the derivatives of its operands
count more by the same amount, since its adjoint is the transpose of its derivative.  So what the
slots of the nodes count that are still to be run, or that are no layers, never changes: it starts
as what the seed counts against the root and ends as what the gradient counts against the tangents.

## Main definitions

* `Cotangents` — derivative slots that hold derivatives of the values beside them.
* `counted` — what the derivative slots of some nodes count together.
* `Passes` — a step that passes a layer's derivative on to the operands.

## Main results

* `backwardStep_passes` — one layer, with or without a sparse update.
* `runAll_backwardStep_counted` — a whole backward pass.
-/

namespace SlotGrad

variable {K : Type} [Field K] [Arith K] [ExactArith K]

/-! ### What derivative slots count -/

/-- Every derivative slot holds a derivative of the dual value beside it. -/
def Cotangents (pairs : Nat) (s : Store (Dual K)) (t : Store K) : Prop :=
  ∀ j, j < pairs → (t.content (valueSlot j + 1)).IsCotangent (s.content (valueSlot j))

/-- What the derivative slots of some nodes count together against the dual values. -/
def counted (s : Store (Dual K)) (t : Store K) (R : Finset Nat) : K :=
  ∑ j ∈ R, (t.content (valueSlot j + 1)).pairing (s.content (valueSlot j))

section

variable {pairs : Nat} {s : Store (Dual K)} {r t : Store K} {R : Finset Nat}

omit [ExactArith K] in
theorem Cotangents.dersPresent (h : Cotangents pairs s t) (hsize : t.size = 2 * pairs) :
    DersPresent t := by
  intro j hj
  obtain ⟨g, -, hg, -⟩ := h j (valueSlot_succ_lt.mp (hsize ▸ hj))
  rcases Value.reals?_eq_some hg with ⟨y, hy, -⟩ | ⟨y, hy, -⟩ | hy <;> rw [hy] <;> rfl

omit [ExactArith K] in
theorem counted_add {c : Nat → K} (h : ∀ j ∈ R,
    (t.content (valueSlot j + 1)).pairing (s.content (valueSlot j))
      = (r.content (valueSlot j + 1)).pairing (s.content (valueSlot j)) + c j) :
    counted s t R = counted s r R + ∑ j ∈ R, c j := by
  unfold counted
  rw [Finset.sum_congr rfl h, Finset.sum_add_distrib]

/-- Derivatives added one after another count what they count one by one. -/
theorem Value.pairing_foldlM {x : Value (Dual K)} {vs : List (Value K)}
    (hvs : ∀ v ∈ vs, v.IsCotangent x) {d u : Value K} (hd : d.IsCotangent x)
    (hu : vs.foldlM Value.add d = .ok u) :
    u.IsCotangent x ∧ u.pairing x = d.pairing x + (vs.map fun v => v.pairing x).sum := by
  induction vs generalizing d with
  | nil =>
    cases pure_eq_ok.mp hu
    exact ⟨hd, (add_zero _).symm⟩
  | cons v vs ih =>
    rw [List.foldlM_cons] at hu
    obtain ⟨e, he, hu⟩ := bind_eq_ok.mp hu
    obtain ⟨hcotangent, hsum⟩ := Value.pairing_add hd (hvs v (List.mem_cons_self ..)) he
    obtain ⟨hu', hrest⟩ := ih (fun v' hv' => hvs v' (List.mem_cons_of_mem _ hv')) hcotangent hu
    refine ⟨hu', ?_⟩
    rw [hrest, hsum, List.map_cons, List.sum_cons, add_assoc]

/-- Additions into derivative slots keep what these slots are and count what is added. -/
theorem Accumulates.counted {added : Nat → List (Value K)} (h : Accumulates added r t)
    (hr : Cotangents pairs s r)
    (hadded : ∀ j, j < pairs → ∀ v ∈ added j, v.IsCotangent (s.content (valueSlot j))) :
    Cotangents pairs s t ∧ ∀ R : Finset Nat, (∀ j ∈ R, j < pairs) →
      counted s t R = counted s r R
        + ∑ j ∈ R, ((added j).map fun v => v.pairing (s.content (valueSlot j))).sum := by
  have hslot := fun j hj => Value.pairing_foldlM (hadded j hj) (hr j hj) (h.ders j)
  exact ⟨fun j hj => (hslot j hj).1, fun R hR => counted_add fun j hj => (hslot j (hR j hj)).2⟩

end

/-! ### The results of one layer -/

section

variable {slotOf : Handle → Option Nat} {s : Store (Dual K)} {R : Finset Nat}

omit [ExactArith K] in
theorem pairings_drop_cons (out : List (Value K)) (k : Nat) (x : Value (Dual K))
    (xs : List (Value (Dual K))) : Kernel.pairings (out.drop k) (x :: xs)
      = ((out[k]?).getD .none).pairing x + Kernel.pairings (out.drop (k + 1)) xs := by
  by_cases hk : k < out.length
  · rw [List.drop_eq_getElem_cons hk, List.getElem?_eq_getElem hk]
    exact List.sum_cons
  · rw [List.drop_eq_nil_of_le (by omega), List.drop_eq_nil_of_le (by omega),
      List.getElem?_eq_none (by omega)]
    exact (add_zero (0 : K)).symm

omit [ExactArith K] in
/-- Results behind the last argument that can count anything may be left out. -/
theorem pairings_take {n : Nat} {xs : List (Value (Dual K))}
    (hxs : ∀ k x, n ≤ k → xs[k]? = some x → ∀ d : Value K, d.pairing x = 0)
    (outs : List (Value K)) : Kernel.pairings (outs.take n) xs = Kernel.pairings outs xs := by
  induction xs generalizing n outs with
  | nil =>
    unfold Kernel.pairings
    rw [List.zip_nil_right, List.zip_nil_right]
  | cons x xs ih =>
    cases outs with
    | nil => rw [List.take_nil]
    | cons d outs =>
      cases n with
      | zero =>
        have hrest := ih (n := 0) (fun k y _ hy => hxs (k + 1) y (Nat.zero_le _) hy) outs
        have hnil : Kernel.pairings ((d :: outs).take 0) (x :: xs) = 0 := rfl
        have hcons : Kernel.pairings (d :: outs) (x :: xs)
            = d.pairing x + Kernel.pairings outs xs := List.sum_cons
        rw [hnil, hcons, hxs 0 x (Nat.le_refl _) rfl, ← hrest]
        exact (add_zero (0 : K)).symm
      | succ n =>
        have hrest := ih (n := n) (fun k y hk hy => hxs (k + 1) y (by omega) hy) outs
        have hcons : ∀ ds : List (Value K), Kernel.pairings (d :: ds) (x :: xs)
            = d.pairing x + Kernel.pairings ds xs := fun ds => List.sum_cons
        rw [List.take_succ_cons, hcons, hcons, hrest]

omit [ExactArith K] in
/-- What the results count at the nodes they are added to, they count against the arguments. -/
theorem sum_picks {out : List (Value K)} {args : List (Value K)} (k : Nat)
    (hnodes : ∀ h, Value.node h ∈ args → ∃ j ∈ R, slotOf h = some (valueSlot j)) :
    ∑ n ∈ R, ((picks out n (operandSlots slotOf k args)).map
        fun v => v.pairing (s.content (valueSlot n))).sum
      = Kernel.pairings (out.drop k) (dualOperands slotOf s args) := by
  induction args generalizing k with
  | nil =>
    unfold Kernel.pairings dualOperands
    rw [List.map_nil, List.map_nil, List.zip_nil_right]
    exact Finset.sum_const_zero
  | cons v vs ih =>
    have hrest := ih (k + 1) fun h hh => hnodes h (List.mem_cons_of_mem _ hh)
    have hcons : dualOperands slotOf s (v :: vs)
        = s.argument slotOf (v.map Dual.embed) :: dualOperands slotOf s vs := rfl
    rw [hcons, pairings_drop_cons, ← hrest, operandSlots]
    cases hv : v.node? with
    | none =>
      -- A constant does not vary, so nothing counts against it.
      rw [argument_embed hv, Value.pairing_embed, zero_add]
      rfl
    | some h =>
      obtain rfl := Value.node?_eq_some.mp hv
      obtain ⟨j, hj, hslot⟩ := hnodes h (List.mem_cons_self ..)
      have hcontent : s.argument slotOf ((Value.node h : Value K).map Dual.embed)
          = s.content (valueSlot j) := by
        change s.argument slotOf (.node h) = _
        rw [Store.argument_node, hslot]
        rfl
      -- The result at this place is added to the one node that the argument is.
      have hsplit : ∀ n ∈ R, ((picks out n ((((valueSlot j : Nat) : Int), (k : Int)) ::
            operandSlots slotOf (k + 1) vs)).map fun v => v.pairing (s.content (valueSlot n))).sum
          = (if n = j then ((out[k]?).getD .none).pairing (s.content (valueSlot j)) else 0)
            + ((picks out n (operandSlots slotOf (k + 1) vs)).map
              fun v => v.pairing (s.content (valueSlot n))).sum := by
        intro n _
        have hpicks : picks out n ((((valueSlot j : Nat) : Int), (k : Int)) ::
            operandSlots slotOf (k + 1) vs)
            = picks out n [(((valueSlot j : Nat) : Int), (k : Int))]
              ++ picks out n (operandSlots slotOf (k + 1) vs) := by
          unfold picks
          rw [← List.filterMap_append]
          rfl
        rw [hpicks, List.map_append, List.sum_append]
        congr 1
        unfold picks
        by_cases hn : n = j
        · subst hn
          rw [if_pos rfl, List.filterMap_cons, if_pos rfl, Int.toNat_natCast]
          cases hout : out[k]? with
          | none => rfl
          | some u =>
            cases hu : u.isNone with
            | true =>
              have hu : u = .none := by cases u <;> first | rfl | cases hu
              rw [hu]
              rfl
            | false =>
              rw [Option.filter_some, if_pos (by rw [hu]; rfl)]
              simp
        · have hne : ¬ ((valueSlot j : Nat) : Int) = ((valueSlot n : Nat) : Int) := fun heq =>
            hn (natCast_valueSlot_inj.mp heq).symm
          rw [if_neg hn, List.filterMap_cons, if_neg hne]
          rfl
      rw [Option.bind_some, hslot, hcontent]
      dsimp only
      rw [Finset.sum_congr rfl hsplit, Finset.sum_add_distrib, Finset.sum_ite_eq' R j, if_pos hj]

end

/-! ### One layer -/

/-- A differentiable layer beside the dual values of a forward run: it has answered its dual value
from those of nodes at smaller places, which lift the values of a store. -/
structure LayerRun (slotOf : Handle → Option Nat) (pairs : Nat) (s : Store (Dual K)) (t : Store K)
    (b : Builtin) (p : Placed K) : Prop where
  /-- The layer is differentiable. -/
  differentiable : p.layer.Differentiable b
  /-- Its slots are in the store. -/
  place : p.place < pairs
  /-- References stand for slots of the store. -/
  slots : ∀ h k, slotOf h = some k → k + 1 < 2 * pairs
  /-- What the layer reads has a smaller place. -/
  operands : ∀ h, Value.node h ∈ p.layer.args → ∃ j, j < p.place ∧ slotOf h = some (valueSlot j)
  /-- What the layer reads lifts the values. -/
  lifts : Operands.Lift slotOf s t p.layer.args
  /-- The shapes of the values suit the op. -/
  shapes : SuitableShapes b ⟨p.layer.args.map (t.argument slotOf), p.layer.kwargs⟩
  /-- The layer's dual value is what its op answers. -/
  answer : b.forwardCall (Builtin.dualArguments (dualOperands slotOf s p.layer.args) p.layer.kwargs)
    = .ok (s.content (valueSlot p.place))

/-- A step that passes the derivative of the layer at a place on to nodes at smaller places. -/
structure Passes (s : Store (Dual K)) (pairs place : Nat) (r t : Store K) : Prop where
  /-- The stores have one size. -/
  size : t.size = r.size
  /-- Value slots are the same. -/
  values : ∀ k, k % 2 = 0 → t.content k = r.content k
  /-- Derivative slots hold derivatives. -/
  cotangents : Cotangents pairs s t
  /-- The other derivatives count more by what the layer's own counts. -/
  counted : ∀ R : Finset Nat, (∀ j ∈ R, j < pairs) → (∀ j, j < place → j ∈ R) →
    counted s t R = counted s r R
      + (r.content (valueSlot place + 1)).pairing (s.content (valueSlot place))

namespace LayerRun

variable {slotOf : Handle → Option Nat} {pairs : Nat} {s : Store (Dual K)} {t t' : Store K}
  {b : Builtin} {p : Placed K}

omit [ExactArith K] in
theorem real (h : LayerRun slotOf pairs s t b p) :
    RealArguments b (Builtin.dualArguments (dualOperands slotOf s p.layer.args) p.layer.kwargs) :=
  h.differentiable.realArguments h.lifts h.shapes

omit [ExactArith K] in
/-- Only value slots matter. -/
theorem of_values (h : LayerRun slotOf pairs s t b p)
    (hvalues : ∀ k, k % 2 = 0 → t'.content k = t.content k) : LayerRun slotOf pairs s t' b p := by
  have heven : ∀ n, Value.node n ∈ p.layer.args → ∀ k, slotOf n = some k → k % 2 = 0 := by
    intro n hn k hk
    obtain ⟨j, -, hslot⟩ := h.operands n hn
    rw [hk] at hslot
    cases hslot
    exact valueSlot_mod_two j
  have hargs : p.layer.args.map (t'.argument slotOf) = p.layer.args.map (t.argument slotOf) := by
    refine List.map_congr_left fun v hv => Store.argument_congr ?_
    rintro n k rfl hk
    exact hvalues k (heven n hv k hk)
  refine ⟨h.differentiable, h.place, h.slots, h.operands, fun n hn => ?_, ?_, h.answer⟩
  · obtain ⟨k, hk, hlift⟩ := h.lifts n hn
    refine ⟨k, hk, ?_⟩
    rw [hvalues k (heven n hn k hk)]
    exact hlift
  · rw [hargs]
    exact h.shapes

omit [ExactArith K] in
/-- No argument is a text. -/
theorem isText_eq (h : LayerRun slotOf pairs s t b p) : ∀ v ∈ p.layer.args, v.isText = false := by
  intro v hv
  obtain ⟨k, hk⟩ := List.mem_iff_getElem?.mp hv
  by_cases hsetting : b.settingPlace? = some k
  · have hx : (dualOperands slotOf s p.layer.args)[k]? = some (v.map Dual.embed) := by
      unfold dualOperands
      rw [List.map_map, List.getElem?_map, hk]
      exact congrArg some (argument_embed (h.differentiable.settings k v hk hsetting))
    have htext := Builtin.isText_setting h.real h.answer hsetting hx
    rw [← htext]
    cases v <;> rfl
  · rcases h.differentiable.operands k v hk hsetting with hn | hr | ⟨-, n, rfl⟩
    · cases v <;> first | rfl | cases hn
    · cases v <;> first | rfl | cases hr
    · rfl

omit [ExactArith K] in
theorem seedPlace_eq (h : LayerRun slotOf pairs s t b p) :
    seedPlace p.layer.args = p.layer.args.length := by
  unfold seedPlace
  rw [List.findIdx_eq_length]
  exact h.isText_eq

omit [ExactArith K] in
/-- The adjoint is called with the values of the dual operands and the layer's derivative. -/
theorem adjointArguments_eq (h : LayerRun slotOf pairs s t b p) :
    adjointArguments slotOf t p.place p.layer.args
      = (dualOperands slotOf s p.layer.args).map (Value.map Dual.re)
        ++ [t.content (valueSlot p.place + 1)] := by
  unfold adjointArguments
  rw [h.seedPlace_eq, List.take_length, List.drop_length, h.lifts.map_re]
  rfl

omit [ExactArith K] in
theorem nodesFirst (h : LayerRun slotOf pairs s t b p) : NodesFirst p.layer.args := by
  intro i j text n hi _
  have := h.isText_eq _ (List.mem_of_getElem? hi)
  cases this

omit [ExactArith K] in
/-- Behind the counted results stand constants only. -/
theorem node?_eq_none (h : LayerRun slotOf pairs s t b p) {k : Nat} {v : Value K}
    (hk : derNumber slotOf p.layer ≤ k) (hv : p.layer.args[k]? = some v) : v.node? = none := by
  cases hn : v.node? with
  | none => rfl
  | some n =>
    rw [Value.node?_eq_some.mp hn] at hv
    obtain ⟨j, -, hslot⟩ := h.operands n (List.mem_of_getElem? hv)
    have hmem : ((((valueSlot j : Nat) : Int)), ((0 + k : Nat) : Int))
        ∈ operandSlots slotOf 0 p.layer.args :=
      mem_operandSlots.mpr ⟨k, n, valueSlot j, hv, hslot, rfl⟩
    have hlt := lt_inferredCount (List.mem_map_of_mem (f := Prod.snd) hmem)
    unfold derNumber derCountOf at hk
    rw [h.differentiable.count, Option.getD_none] at hk
    dsimp only at hk hlt
    omega

omit [ExactArith K] in
theorem pairings_take_derNumber (h : LayerRun slotOf pairs s t b p) (outs : List (Value K)) :
    Kernel.pairings (outs.take (derNumber slotOf p.layer)) (dualOperands slotOf s p.layer.args)
      = Kernel.pairings outs (dualOperands slotOf s p.layer.args) := by
  refine pairings_take (fun k x hk hx d => ?_) outs
  obtain ⟨v, hv, rfl⟩ := getElem?_dualOperands hx
  rw [argument_embed (h.node?_eq_none hk hv), Value.pairing_embed]

/-- A layer that reads no node has a constant value. -/
theorem pairing_answer_eq_zero (h : LayerRun slotOf pairs s t b p)
    (hzero : derNumber slotOf p.layer = 0) (d : Value K) :
    d.pairing (s.content (valueSlot p.place)) = 0 := by
  have hconstant : dualOperands slotOf s p.layer.args
      = p.layer.args.map (Value.map Dual.embed) := by
    unfold dualOperands
    rw [List.map_map]
    refine List.map_congr_left fun v hv => ?_
    obtain ⟨k, hk⟩ := List.mem_iff_getElem?.mp hv
    exact argument_embed (h.node?_eq_none (by omega) hk)
  have hreal := h.real
  have hanswer := h.answer
  have hmapped : Builtin.dualArguments (dualOperands slotOf s p.layer.args) p.layer.kwargs
      = (⟨p.layer.args, p.layer.kwargs⟩ : Arguments K).map Dual.embed := by
    rw [hconstant]
    rfl
  rw [hmapped] at hreal hanswer
  rw [Builtin.forwardCall_map Dual.hom_embed h.differentiable.kind hreal.of_map] at hanswer
  cases hw : b.forwardCall (⟨p.layer.args, p.layer.kwargs⟩ : Arguments K) with
  | error e =>
    rw [hw] at hanswer
    cases hanswer
  | ok w =>
    rw [hw] at hanswer
    rw [← Except.ok.inj hanswer]
    exact Value.pairing_embed d w

end LayerRun

/-! ### Running a layer backward -/

section

variable {slotOf : Handle → Option Nat} {pairs : Nat} {s : Store (Dual K)} {b : Builtin}
  {p : Placed K} {call : Calls K} {r : RunState K} {index : Nat}

/-- The results of an adjoint are derivatives of the operands, and they count together what the
layer's own derivative counts. -/
theorem adjointResults_transposed [CharZero K] (hcall : RunsBuiltins call)
    (h : LayerRun slotOf pairs s r.store b p) (hslice : b ≠ .slice)
    (hcotangents : Cotangents pairs s r.store) {out : List (Value K)}
    (hout : adjointResults call slotOf r.store p.place p.layer = .ok out) :
    Transposed (dualOperands slotOf s p.layer.args) (s.content (valueSlot p.place))
      (r.store.content (valueSlot p.place + 1)) out := by
  unfold adjointResults at hout
  split at hout
  · rename_i hzero
    cases hout
    refine ⟨fun k x v _ hv _ => (by cases hv), ?_⟩
    rw [h.pairing_answer_eq_zero hzero]
    rfl
  · rw [h.differentiable.op] at hout
    obtain ⟨v, hv, hout⟩ := bind_eq_ok.mp hout
    rw [h.adjointArguments_eq, hcall.adjoint, lift_eq_ok] at hv
    have htransposed := Builtin.adjointCall_transposes h.differentiable.kind hslice h.real
      (fun k x hk hx => h.differentiable.setting_eq hk hx) h.answer (hcotangents _ h.place) hv
    rw [← pure_eq_ok.mp hout]
    refine ⟨fun k x u hx hu => htransposed.cotangents k x u hx ?_, ?_⟩
    · rw [List.getElem?_take] at hu
      split at hu
      · exact hu
      · cases hu
    · rw [h.pairings_take_derNumber]
      exact htransposed.pairings

/-- A layer that calls its adjoint passes its derivative on. -/
theorem backwardStep_passes_of_ne_slice [CharZero K] (hcall : RunsBuiltins call)
    (h : LayerRun slotOf pairs s r.store b p) (hslice : b ≠ .slice)
    (hsize : r.store.size = 2 * pairs) (hcotangents : Cotangents pairs s r.store)
    (hdone : (backwardStep call (backwardOf slotOf p, index) r).error = none) :
    Passes s pairs p.place r.store
      (backwardStep call (backwardOf slotOf p, index) r).state.store := by
  have hplace := h.place
  have hoperands : ∀ {q : Int × Int}, q ∈ operandSlots slotOf 0 p.layer.args →
      ∃ (j k : Nat) (n : Handle), q = (((valueSlot j : Nat) : Int), (k : Int)) ∧ j < p.place ∧
        p.layer.args[k]? = some (.node n) ∧ slotOf n = some (valueSlot j) := by
    intro q hq
    obtain ⟨k, n, slot, hk, hslot, rfl⟩ := mem_operandSlots.mp hq
    obtain ⟨j, hj, hslot'⟩ := h.operands n (List.mem_of_getElem? hk)
    rw [hslot] at hslot'
    cases hslot'
    exact ⟨j, k, n, by rw [Nat.zero_add], hj, hk, hslot⟩
  obtain ⟨out, hout, haccumulates⟩ := backwardStep_accumulates
    (fun n k hk => by have := h.slots n k hk; omega)
    (by unfold valueSlot; omega)
    (fun q hq => by
      rw [h.nodesFirst.adjointOperands] at hq
      obtain ⟨j, k, n, rfl, hj, -⟩ := hoperands hq
      exact ⟨j, k, rfl, by unfold valueSlot; omega⟩)
    (by rw [h.differentiable.op]; exact decide_eq_false hslice)
    (fun n hn => by rw [h.differentiable.count] at hn; cases hn)
    (hcotangents.dersPresent hsize) hdone
  rw [h.nodesFirst.adjointOperands] at haccumulates
  -- The adjoint answers cotangents, which together count what the derivative does.
  have htransposed := adjointResults_transposed hcall h hslice hcotangents hout
  obtain ⟨hcotangents', hcounted⟩ := haccumulates.counted hcotangents (by
    intro j _ v hv
    obtain ⟨q, hq, hpick⟩ := List.mem_filterMap.mp hv
    obtain ⟨i, k, n, rfl, -, hk, hslot⟩ := hoperands hq
    dsimp only at hpick
    split at hpick
    · rename_i hij
      obtain ⟨hres, hpresent⟩ := Option.filter_eq_some_iff.mp hpick
      obtain rfl := natCast_valueSlot_inj.mp hij
      refine htransposed.cotangents k _ v ?_ hres (by simpa using hpresent)
      unfold dualOperands
      rw [List.map_map, List.getElem?_map, hk]
      change some (s.argument slotOf (.node n)) = _
      rw [Store.argument_node, hslot]
      rfl
    · cases hpick)
  refine ⟨haccumulates.size, haccumulates.values, hcotangents', fun R hR hbelow => ?_⟩
  rw [hcounted R hR, sum_picks 0 fun n hn => ?_]
  · rw [List.drop_zero, htransposed.pairings]
  · obtain ⟨j, hj, hslot⟩ := h.operands n hn
    exact ⟨j, hbelow j hj, hslot⟩

omit [ExactArith K] in
/-- An indexing layer whose sparse update finds its arguments has a node and a constant index. -/
theorem LayerRun.indexed {t : Store K} (h : LayerRun slotOf pairs s t b p) (hslice : b = .slice)
    {source index dy : Value K} (hargs : scatterArguments (adjointArguments slotOf t p.place
      p.layer.args) = .ok (source, index, dy)) :
    ∃ (n : Handle) (j : Nat), p.layer.args = [.node n, index] ∧ j < p.place ∧
      slotOf n = some (valueSlot j) ∧ source = (s.content (valueSlot j)).map Dual.re ∧
      dy = t.content (valueSlot p.place + 1) ∧
      Kernel.slice (s.content (valueSlot j)) (index.map Dual.embed)
        = .ok (s.content (valueSlot p.place)) := by
  rw [h.adjointArguments_eq] at hargs
  have hanswer := h.answer
  have hdifferentiable := h.differentiable
  subst hslice
  obtain ⟨x, i, hbind, hw⟩ := Arguments.call2_eq_ok hanswer
  have hlength : (dualOperands slotOf s p.layer.args).length = p.layer.args.length := by
    unfold dualOperands
    rw [List.length_map, List.length_map]
  have hle := (Arguments.bind_completed hbind).1
  change (dualOperands slotOf s p.layer.args).length ≤ 2 at hle
  -- With fewer arguments there are no three for the sparse update.
  have hge : 2 ≤ (dualOperands slotOf s p.layer.args).length := by
    by_contra hlt
    match hxs : dualOperands slotOf s p.layer.args with
    | [] =>
      rw [hxs] at hargs
      cases hargs
    | [y] =>
      rw [hxs] at hargs
      cases hargs
    | _ :: _ :: _ =>
      rw [hxs] at hlt
      simp at hlt
  have hpositional := (Arguments.bind_of_length_le hbind hge).1
  change [x, i] = dualOperands slotOf s p.layer.args at hpositional
  -- So the layer has two arguments, of which the first is a node.
  match hlayer : p.layer.args with
  | [] =>
    rw [hlayer] at hpositional
    cases hpositional
  | [v] =>
    rw [hlayer] at hpositional
    cases hpositional
  | _ :: _ :: _ :: _ =>
    rw [hlayer] at hpositional
    cases hpositional
  | [v, u] =>
    obtain ⟨n, hn⟩ := Option.isSome_iff_exists.mp
      (hdifferentiable.source rfl v (by rw [hlayer]; rfl))
    obtain rfl := Value.node?_eq_some.mp hn
    have hu := hdifferentiable.settings 1 u (by rw [hlayer]; rfl) rfl
    obtain ⟨j, hj, hslot⟩ := h.operands n (by rw [hlayer]; exact List.mem_cons_self ..)
    have hxs : dualOperands slotOf s p.layer.args
        = [s.content (valueSlot j), u.map Dual.embed] := by
      rw [hlayer]
      change [s.argument slotOf (.node n), s.argument slotOf (u.map Dual.embed)] = _
      rw [argument_embed hu, Store.argument_node, hslot]
      rfl
    rw [hxs] at hargs hpositional
    cases hpositional
    cases hargs
    refine ⟨n, j, ?_, hj, hslot, rfl, rfl, ?_⟩
    · rw [Value.map_map_cancel Dual.re_embed]
    · rw [Value.map_map_cancel Dual.re_embed]
      exact hw

/-- An indexing layer passes its derivative on by a sparse update. -/
theorem backwardStep_passes_of_slice (h : LayerRun slotOf pairs s r.store b p) (hslice : b = .slice)
    (hsize : r.store.size = 2 * pairs) (hcotangents : Cotangents pairs s r.store)
    (hdone : (backwardStep call (backwardOf slotOf p, index) r).error = none) :
    Passes s pairs p.place r.store
      (backwardStep call (backwardOf slotOf p, index) r).state.store := by
  have hplace := h.place
  unfold backwardStep at hdone ⊢
  dsimp only at hdone ⊢
  obtain ⟨hworked, -⟩ := Outcome.andThen_completed.mp hdone
  rw [Outcome.andThen_state _ hworked]
  rw [backwardOf_bind (fun n k hk => by have := h.slots n k hk; omega) p
    (by unfold valueSlot; omega)] at hworked ⊢
  have hscatter : (backwardOf slotOf p).op.scatter = true := by
    change p.layer.op.scatter = true
    rw [h.differentiable.op, hslice]
    rfl
  dsimp only at hworked ⊢
  rw [if_pos hscatter] at hworked ⊢
  obtain ⟨source, i, dy, hargs⟩ := scatterStep_arguments hworked
  obtain ⟨n, j, hlayer, hj, hslot, rfl, rfl, hw⟩ := h.indexed hslice hargs
  -- The derivative that is updated is that of the node the layer reads.
  have hvar : ((backwardOf slotOf p).inputVars.head?).map derSlot
      = some ((valueSlot j + 1 : Nat) : Int) := by
    have hvars : (backwardOf slotOf p).inputVars
        = (operandSlots slotOf 0 p.layer.args).map Prod.fst
            ++ [derSlot (valueSlot p.place : Nat)] := by
      unfold backwardOf
      dsimp only
      rw [h.nodesFirst.adjointOperands]
    rw [hvars, hlayer, operandSlots, Value.node?_node, Option.bind_some, hslot]
    rfl
  obtain ⟨hlt, source', i', dy', target, v, hargs', htarget, hadd, hstore⟩ :=
    scatterStep_completed hvar hworked
  rw [hargs] at hargs'
  cases hargs'
  have hjp : j < pairs := by omega
  obtain ⟨k, hk, -, g, hg⟩ := h.lifts n (by rw [hlayer]; exact List.mem_cons_self ..)
  rw [hslot] at hk
  cases hk
  obtain ⟨hv, hpairing⟩ := scatter_transposes hg hw (hcotangents j hjp) (hcotangents _ hplace)
    htarget hadd
  -- Only the derivative slot of the source changes.
  have hsame : ∀ k, k ≠ valueSlot j + 1 →
      ((r.store.setAt (valueSlot j + 1) target).setAt (valueSlot j + 1) v).content k
        = r.store.content k := by
    intro k hk
    rw [Store.content_setAt_of_ne _ hk, Store.content_setAt_of_ne _ hk]
  have hself : ((r.store.setAt (valueSlot j + 1) target).setAt (valueSlot j + 1) v).content
      (valueSlot j + 1) = v := Store.content_setAt_self (by rwa [Store.size_setAt]) v
  change Passes s pairs p.place r.store (scatterStep (backwardOf slotOf p)
    (adjointArguments slotOf r.store p.place p.layer.args) r).state.store
  rw [hstore]
  refine ⟨by rw [Store.size_setAt, Store.size_setAt], ?_, ?_, ?_⟩
  · exact fun k hk => hsame k (ne_valueSlot_succ hk j)
  · intro k hk
    by_cases hkj : k = j
    · rw [hkj, hself]
      exact hv
    · rw [hsame _ (by simpa using hkj)]
      exact hcotangents k hk
  -- What is counted at the source grows by what was counted at the layer.
  · intro R _ hbelow
    rw [counted_add (r := r.store) (c := fun k => if k = j then
      (r.store.content (valueSlot p.place + 1)).pairing (s.content (valueSlot p.place)) else 0)]
    · rw [Finset.sum_ite_eq' R j, if_pos (hbelow j hj)]
    · intro k _
      by_cases hkj : k = j
      · rw [if_pos hkj, hkj, hself, hpairing]
      · rw [if_neg hkj, add_zero, hsame _ (by simpa using hkj)]

/-- A completed backward instruction of a differentiable layer passes its derivative on. -/
theorem backwardStep_passes [CharZero K] (hcall : RunsBuiltins call)
    (h : LayerRun slotOf pairs s r.store b p) (hsize : r.store.size = 2 * pairs)
    (hcotangents : Cotangents pairs s r.store)
    (hdone : (backwardStep call (backwardOf slotOf p, index) r).error = none) :
    Passes s pairs p.place r.store
      (backwardStep call (backwardOf slotOf p, index) r).state.store := by
  by_cases hslice : b = .slice
  · exact backwardStep_passes_of_slice h hslice hsize hcotangents hdone
  · exact backwardStep_passes_of_ne_slice hcall h hslice hsize hcotangents hdone

/-! ### A whole pass -/

/-- **What is counted does not change.**  After a completed backward pass over some layers, the last
one first, the derivative slots of the other nodes count what all counted before. -/
theorem runAll_backwardStep_counted [CharZero K] (hcall : RunsBuiltins call) {t : Store K} :
    ∀ {stream : List (Instruction K × Nat)} {ls : List (Placed K)},
      List.Forall₂ (fun q p => q.1 = backwardOf slotOf p) stream ls →
        (∀ p ∈ ls, ∃ b, LayerRun slotOf pairs s t b p) →
          ls.Pairwise (fun p q => q.place < p.place) →
            ∀ {r : RunState K} {R : Finset Nat}, r.store.size = 2 * pairs →
              (∀ k, k % 2 = 0 → r.store.content k = t.content k) → Cotangents pairs s r.store →
                (∀ j ∈ R, j < pairs) →
                  (∀ p ∈ ls, ∀ j, j ≤ p.place → j ∈ R) →
                    (runAll (backwardStep call) stream r).error = none →
                      Cotangents pairs s (runAll (backwardStep call) stream r).state.store ∧
                        counted s (runAll (backwardStep call) stream r).state.store
                          (R \ (ls.map Placed.place).toFinset) = counted s r.store R := by
  intro stream ls hrel
  induction hrel with
  | nil =>
    intro _ _ r R _ _ hcotangents _ _ _
    refine ⟨hcotangents, ?_⟩
    rw [List.map_nil, List.toFinset_nil, Finset.sdiff_empty]
    rfl
  | @cons q p stream ls hq _ ih =>
    intro hlayers hdec r R hsize hvalues hcotangents hR hbelow hdone
    obtain ⟨i, index⟩ := q
    have hq : i = backwardOf slotOf p := hq
    subst hq
    obtain ⟨hstep, hrest⟩ := runAll_cons_completed.mp hdone
    rw [runAll_cons_state stream hstep]
    obtain ⟨b, hb⟩ := hlayers p (List.mem_cons_self ..)
    have hlater := List.pairwise_cons.mp hdec
    have hpasses := backwardStep_passes hcall (hb.of_values hvalues) hsize hcotangents hstep
    have hpR : p.place ∈ R := hbelow p (List.mem_cons_self ..) p.place (Nat.le_refl _)
    obtain ⟨hfinal, hcounted⟩ := ih (fun q hq => hlayers q (List.mem_cons_of_mem _ hq)) hlater.2
      (R := R.erase p.place) (hpasses.size.trans hsize)
      (fun k hk => (hpasses.values k hk).trans (hvalues k hk)) hpasses.cotangents
      (fun j hj => hR j (Finset.mem_of_mem_erase hj)) (fun q hq j hj => by
        have := hlater.1 q hq
        exact Finset.mem_erase.mpr
          ⟨by omega, hbelow p (List.mem_cons_self ..) j (by omega)⟩) hrest
    refine ⟨hfinal, ?_⟩
    have hsets : R \ ((p :: ls).map Placed.place).toFinset
        = R.erase p.place \ (ls.map Placed.place).toFinset := by
      rw [List.map_cons, List.toFinset_cons, Finset.sdiff_insert, Finset.erase_sdiff_comm]
    -- The layer's own derivative is no longer counted, but it has been passed on.
    rw [hsets, hcounted, hpasses.counted _ (fun j hj => hR j (Finset.mem_of_mem_erase hj))
      (fun j hj => Finset.mem_erase.mpr
        ⟨by omega, hbelow p (List.mem_cons_self ..) j (by omega)⟩)]
    exact Finset.sum_erase_add R _ hpR

end

end SlotGrad
