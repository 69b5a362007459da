import Mathlib.Algebra.BigOperators.Group.Finset.Sigma
import SlotGrad.Proofs.DerivativeTotals

/-!
# Derivatives of several nets that add up

A net of several roots has the nodes of the nets of its roots, and one more, which joins the roots.
If what the joining node adds to the derivative of a root is what the root's own net is seeded with,
then every derivative is the sum of those that the node has in the nets that have it: what a reader
adds is additive in the reader's derivative, and every reader is counted in each net that has it.

## Main definitions

* `AdditiveOn` — an adjoint that is additive for some derivatives and their sum.
* `Covers` — lists that together have the nodes of another one, but for its last node.
* `sharers`, `derivativesOf` — the nets that have a node, and the derivatives that it has there.
* `SharedReadings` — what nets that have nodes in common leave.

## Main results

* `AdditiveOn.addend_total`, `addend_total_of_scatter` — what one reader adds.
* `SharedReadings.isTotal` — derivatives add up.
-/

namespace SlotGrad

/-! ### Sums over lists -/

section

variable {α β M : Type} [AddCommMonoid M]

theorem sum_map_filterMap (g : α → Option β) (f : β → M) (l : List α) :
    ((l.filterMap g).map f).sum = (l.map fun x => ((g x).map f).getD 0).sum := by
  induction l with
  | nil => rfl
  | cons x l ih =>
    rw [List.filterMap_cons, List.map_cons, List.sum_cons, ← ih]
    cases g x with
    | none => exact (zero_add _).symm
    | some y => rfl

/-- Sums over the sets that have an element, summed over all elements, are sums over the sets. -/
theorem sum_map_filter_comm {k : Nat} {N : List α} {I : Fin k → List α} (hN : N.Nodup)
    (hI : ∀ i, (I i).Nodup) {p : α → Fin k → Bool} (hp : ∀ n ∈ N, ∀ i, p n i = true ↔ n ∈ I i)
    (hmem : ∀ i, ∀ n ∈ I i, n ∈ N) (f : Fin k → α → M) :
    (N.map fun n => (((List.finRange k).filter (p n)).map fun i => f i n).sum).sum
      = ((List.finRange k).map fun i => ((I i).map (f i)).sum).sum := by
  classical
  have houter : ∀ g : Fin k → M, ((List.finRange k).map g).sum = ∑ i, g i := by
    intro g
    rw [← List.sum_toFinset _ (List.nodup_finRange k), List.toFinset_finRange]
  have hinner : ∀ n, (((List.finRange k).filter (p n)).map fun i => f i n).sum
      = ∑ i ∈ Finset.univ.filter fun i => p n i = true, f i n := by
    intro n
    rw [← List.sum_toFinset _ ((List.nodup_finRange k).filter _), List.toFinset_filter,
      List.toFinset_finRange]
  simp only [hinner, houter, ← List.sum_toFinset _ hN, ← List.sum_toFinset _ (hI _)]
  refine Finset.sum_comm' fun n i => ?_
  simp only [List.mem_toFinset, Finset.mem_filter, Finset.mem_univ, true_and, and_true]
  constructor
  · exact fun h => (hp n h.1 i).mp h.2
  · exact fun h => ⟨hmem i n h, (hp n (hmem i n h) i).mpr h⟩

/-- A sum over the elements that pass a test. -/
theorem sum_map_filter (p : α → Bool) (f : α → M) (l : List α) :
    ((l.filter p).map f).sum = (l.map fun x => if p x then f x else 0).sum := by
  induction l with
  | nil => rfl
  | cons x l ih =>
    rw [List.filter_cons, List.map_cons, List.sum_cons, ← ih]
    split
    · rfl
    · exact (zero_add _).symm

/-- Sums over two lists may be taken in either order. -/
theorem sum_map_comm {l : List α} {m : List β} (f : α → β → M) :
    (l.map fun x => (m.map fun y => f x y).sum).sum
      = (m.map fun y => (l.map fun x => f x y).sum).sum := by
  simpa using Multiset.sum_map_sum_map (l : Multiset α) (m : Multiset β) (f := f)

end

/-! ### Additive adjoints -/

section

variable {F : Type} [Arith F]

/-- An adjoint that is additive for some derivatives and one that stands for their sum: for every
operand, either it answers nothing at all, or what it answers adds up. -/
def AdditiveOn [Zero F] [Add F] (answer : Value F → Attempt (List (Value F))) (dys : List (Value F))
    (dy : Value F) : Prop :=
  Value.IsTotal dys dy → ∀ outs out, dys.mapM answer = .ok outs → answer dy = .ok out → ∀ q,
    (taken? out q = none ∧ ∀ o ∈ outs, taken? o q = none) ∨
      ∃ ws w, outs.mapM (fun o => taken? o q) = some ws ∧ taken? out q = some w ∧
        Value.IsTotal ws w

/-- What an adjoint is called with, for a derivative of the output. -/
def Reading.argumentsWith (v : Reading F) (dy : Value F) (args : List (Value F)) : List (Value F) :=
  (args.take (seedPlace args)).map v.argument
    ++ dy :: (args.drop (seedPlace args)).map v.argument

omit [Arith F] in
theorem Reading.argumentsWith_congr {v v' : Reading F} {args : List (Value F)}
    (h : ∀ w ∈ args, v'.argument w = v.argument w) (dy : Value F) :
    v'.argumentsWith dy args = v.argumentsWith dy args := by
  unfold argumentsWith
  rw [List.map_congr_left fun w hw => h w (List.mem_of_mem_take hw),
    List.map_congr_left fun w hw => h w (List.mem_of_mem_drop hw)]

/-- The places of the results for the node of an identity. -/
def operandPlaces (id : Nat) (args : List (Value F)) : List Nat :=
  ((args.take (seedPlace args)).zipIdx.filterMap fun q =>
      if q.1.node?.map Handle.id = some id then some q.2 else none)
    ++ ((args.drop (seedPlace args)).zipIdx (seedPlace args + 1)).filterMap fun q =>
      if q.1.node?.map Handle.id = some id then some q.2 else none

omit [Arith F] in
theorem contributions_eq {n : Node F} {a : Application F} (ha : n.application? = some a) (id : Nat)
    (out : List (Value F)) :
    contributions id n out = (operandPlaces id a.args).filterMap (taken? out) := by
  have hresults : ∀ k (args : List (Value F)), resultsFor id k args out
      = ((args.zipIdx k).filterMap fun q =>
          if q.1.node?.map Handle.id = some id then some q.2 else none).filterMap (taken? out) := by
    intro k args
    unfold resultsFor taken?
    rw [List.filterMap_filterMap]
    refine List.filterMap_congr fun q _ => ?_
    split <;> rfl
  unfold contributions operandPlaces
  rw [ha, List.filterMap_append, ← hresults, ← hresults]

/-- A node whose layer has the node of an identity among its arguments. -/
def Node.Reads (n : Node F) (id : Nat) : Prop :=
  ∃ a h, n.role = .layer a ∧ Value.node h ∈ a.args ∧ h.id = id

omit [Arith F] in
/-- A node that does not read another one has no results for it. -/
theorem operandPlaces_eq_nil {n : Node F} {a : Application F} (hrole : n.role = .layer a) {id : Nat}
    (h : ¬ n.Reads id) : operandPlaces id a.args = [] := by
  have hpart : ∀ (k : Nat) (vs : List (Value F)), (∀ w ∈ vs, w ∈ a.args) →
      ((vs.zipIdx k).filterMap fun q =>
        if q.1.node?.map Handle.id = some id then some q.2 else none) = [] := by
    intro k vs hvs
    rw [List.filterMap_eq_nil_iff]
    intro q hq
    rw [if_neg]
    intro hid
    obtain ⟨m, hm, hmid⟩ := Option.map_eq_some_iff.mp hid
    have hmem := hvs q.1 (List.fst_mem_of_mem_zipIdx hq)
    rw [Value.node?_eq_some.mp hm] at hmem
    exact h ⟨a, m, hrole, hmem, hmid⟩
  unfold operandPlaces
  rw [hpart _ _ fun w hw => List.mem_of_mem_take hw, hpart _ _ fun w hw => List.mem_of_mem_drop hw]
  rfl

end

variable {K : Type} [Field K] [Arith K] [ExactArith K]

/-- What the result of an adjoint at a place amounts to; an absent one counts as zero. -/
noncomputable def takenAmount (out : List (Value K)) (q : Nat) : Amount K :=
  ((taken? out q).map Value.amount).getD 0

omit [ExactArith K] in
theorem sum_contributions {n : Node K} {a : Application K} (ha : n.application? = some a) (id : Nat)
    (out : List (Value K)) : ((contributions id n out).map Value.amount).sum
      = ((operandPlaces id a.args).map (takenAmount out)).sum := by
  rw [contributions_eq ha, sum_map_filterMap]
  rfl

omit [ExactArith K] in
/-- Results that add up are numbers, and amount to the sum. -/
theorem AdditiveOn.taken {ι : Type} {N : List ι} {d : ι → Value K} {dy : Value K}
    {answer : Value K → Attempt (List (Value K))} (h : AdditiveOn answer (N.map d) dy)
    (htotal : Value.IsTotal (N.map d) dy) {outs : ι → List (Value K)} {out : List (Value K)}
    (houts : ∀ i ∈ N, answer (d i) = .ok (outs i)) (hout : answer dy = .ok out) (q : Nat) :
    (∀ w, taken? out q = some w → w.figures?.isSome) ∧
      (∀ i ∈ N, ∀ w, taken? (outs i) q = some w → w.figures?.isSome) ∧
        takenAmount out q = (N.map fun i => takenAmount (outs i) q).sum := by
  have hall : (N.map d).mapM answer = .ok (N.map outs) := by
    rw [mapM_eq_ok, List.forall₂_map_left_iff, List.forall₂_map_right_iff]
    exact List.forall₂_same.mpr houts
  unfold takenAmount
  rcases h htotal _ _ hall hout q with ⟨hnone, hnones⟩ | ⟨ws, w, hws, hw, hsum⟩
  · have hnones : ∀ i ∈ N, taken? (outs i) q = none := fun i hi =>
      hnones _ (List.mem_map_of_mem hi)
    refine ⟨fun w hw => ?_, fun i hi w hw => ?_, ?_⟩
    · rw [hnone] at hw
      cases hw
    · rw [hnones i hi] at hw
      cases hw
    · rw [hnone, List.map_congr_left fun i hi => by rw [hnones i hi]]
      simp
  · obtain ⟨hnumbers, hnumber, hamount⟩ := Value.isTotal_iff.mp hsum
    -- The results in the list belong to the calls one by one.
    have heach : (∀ i ∈ N, ∃ w ∈ ws, taken? (outs i) q = some w) ∧
        (N.map fun i => ((taken? (outs i) q).map Value.amount).getD 0) = ws.map Value.amount := by
      clear h htotal houts hall hsum hnumbers hamount
      rw [List.mapM_map] at hws
      induction N generalizing ws with
      | nil =>
        cases hws
        exact ⟨by simp, rfl⟩
      | cons i N ih =>
        rw [List.mapM_cons] at hws
        obtain ⟨x, hx, hws⟩ := Option.bind_eq_some_iff.mp hws
        obtain ⟨xs, hxs, hws⟩ := Option.bind_eq_some_iff.mp hws
        cases hws
        have hx : taken? (outs i) q = some x := hx
        obtain ⟨hall, hsame⟩ := ih xs hxs
        refine ⟨List.forall_mem_cons.mpr ⟨⟨x, List.mem_cons_self .., hx⟩, fun i hi => ?_⟩, ?_⟩
        · obtain ⟨w, hw, hi⟩ := hall i hi
          exact ⟨w, List.mem_cons_of_mem _ hw, hi⟩
        · rw [List.map_cons, List.map_cons, hx, hsame]
          rfl
    refine ⟨fun w' hw' => ?_, fun i hi w' hw' => ?_, ?_⟩
    · rw [hw] at hw'
      cases hw'
      exact hnumber
    · obtain ⟨x, hx, hi⟩ := heach.1 i hi
      rw [hw'] at hi
      cases hi
      exact hnumbers _ hx
    · rw [hw, heach.2]
      exact hamount

/-! ### What one reader adds -/

variable {call : Calls K}

omit [ExactArith K] in
/-- A node that does not read another one adds nothing to its derivative. -/
theorem Node.addend_of_not_reads {n : Node K} {id : Nat} (h : ¬ n.Reads id) (v : Reading K) :
    n.addend call v id = 0 := by
  cases happlication : n.application? with
  | none => exact Node.addend_of_leaf happlication ..
  | some a =>
    have hrole := application?_eq_some.mp happlication
    unfold Node.addend
    rw [happlication]
    dsimp only
    split
    · rw [if_neg]
      intro hid
      obtain ⟨m, hm, hmid⟩ := Option.map_eq_some_iff.mp hid
      obtain ⟨w, hw, hnode⟩ := List.exists_of_findSome?_eq_some hm
      exact h ⟨a, m, hrole, Value.node?_eq_some.mp hnode ▸ hw, hmid⟩
    · split
      · rw [contributions_eq happlication, operandPlaces_eq_nil hrole h]
        rfl
      · rfl

section

variable {ι : Type} {N : List ι} {n : Node K} {a : Application K} {V : Reading K}
    {v : ι → Reading K}

omit [ExactArith K] in
/-- **What a reader adds is additive**, if its adjoint is.  It is then told in numbers. -/
theorem AdditiveOn.addend_total (hrole : n.role = .layer a) (hscatter : a.op.scatter = false)
    (hsame : ∀ i ∈ N, ∀ w ∈ a.args, (v i).argument w = V.argument w)
    (hadd : AdditiveOn (fun dy => adjointAnswer call (countOf a) a (V.argumentsWith dy a.args))
      (N.map fun i => (v i).der n.id) (V.der n.id))
    (htotal : Value.IsTotal (N.map fun i => (v i).der n.id) (V.der n.id)) {out : List (Value K)}
    (hout : adjointAnswer call (countOf a) a (V.adjointArguments n.id a.args) = .ok out)
    {outs : ι → List (Value K)} (houts : ∀ i ∈ N,
      adjointAnswer call (countOf a) a ((v i).adjointArguments n.id a.args) = .ok (outs i))
        (id : Nat) :
    (∀ w ∈ contributions id n out, w.figures?.isSome) ∧
      (∀ i ∈ N, ∀ w ∈ contributions id n (outs i), w.figures?.isSome) ∧
        n.addend call V id = (N.map fun i => n.addend call (v i) id).sum := by
  have happlication := application?_eq_some.mpr hrole
  have houts' : ∀ i ∈ N, adjointAnswer call (countOf a) a (V.argumentsWith ((v i).der n.id) a.args)
      = .ok (outs i) := by
    intro i hi
    rw [← Reading.argumentsWith_congr (hsame i hi)]
    exact houts i hi
  have htaken := fun q => hadd.taken htotal houts' hout q
  have haddend : ∀ (u : Reading K) (o : List (Value K)),
      adjointAnswer call (countOf a) a (u.adjointArguments n.id a.args) = .ok o →
        n.addend call u id = ((operandPlaces id a.args).map (takenAmount o)).sum := by
    intro u o ho
    rw [Node.addend_of_dense hrole hscatter ho]
    exact sum_contributions happlication id o
  refine ⟨fun w hw => ?_, fun i hi w hw => ?_, ?_⟩
  · rw [contributions_eq happlication] at hw
    obtain ⟨q, -, hq⟩ := List.mem_filterMap.mp hw
    exact (htaken q).1 w hq
  · rw [contributions_eq happlication] at hw
    obtain ⟨q, -, hq⟩ := List.mem_filterMap.mp hw
    exact (htaken q).2.1 i hi w hq
  · rw [haddend V out hout, List.map_congr_left fun i hi => haddend (v i) (outs i) (houts i hi),
      List.map_congr_left fun q _ => (htaken q).2.2]
    exact sum_map_comm ..

omit [Field K] [Arith K] [ExactArith K] in
/-- The derivative of the output is put in before the first text. -/
theorem seedPlace_cons (x : Value K) (rest : List (Value K)) :
    seedPlace (x :: rest) = if x.isText then 0 else seedPlace rest + 1 := by
  unfold seedPlace
  rw [List.findIdx_cons]
  cases x.isText <;> rfl

omit [ExactArith K] in
/-- A sparse update does not take a text for the index, and does not add one. -/
theorem isText_of_sparseAddend {source index dy : Value K} {e : Grid K}
    (he : sparseAddend source index dy = .ok e) : index.isText = false ∧ dy.isText = false := by
  obtain ⟨_, _, _, _, _, -, hpicks, -, hcontents, -⟩ := sparseAddend_eq_ok.mp he
  constructor
  · cases index <;> first | rfl | cases hpicks
  · cases dy <;> first | rfl | cases hcontents

omit [ExactArith K] in
/-- A sparse update that adds something adds the derivative of the output at the index, if it reads
that derivative. -/
theorem exists_of_sparseAmount {u : Reading K} {id : Nat} {args : List (Value K)}
    (hplace : seedPlace args ≤ 2) {s : Shape}
    (h : sparseAmount (u.adjointArguments id args) s ≠ ⊤) :
    ∃ x y rest e, args = x :: y :: rest ∧
      sparseAddend (u.argument x) (u.argument y) (u.der id) = .ok e ∧
        sparseAmount (u.adjointArguments id args) = e.amount := by
  obtain ⟨source, index, dy, e, hthree, he, hamount⟩ : ∃ source index dy e,
      scatterArguments (u.adjointArguments id args) = .ok (source, index, dy) ∧
        sparseAddend source index dy = .ok e ∧
          sparseAmount (u.adjointArguments id args) = e.amount := by
    unfold sparseAmount at h ⊢
    cases hthree : scatterArguments (u.adjointArguments id args) with
    | error f =>
      rw [hthree] at h
      exact absurd rfl h
    | ok three =>
      obtain ⟨source, index, dy⟩ := three
      rw [hthree] at h
      dsimp only at h ⊢
      cases he : sparseAddend source index dy with
      | error f =>
        rw [he] at h
        exact absurd rfl h
      | ok e => exact ⟨source, index, dy, e, rfl, he, rfl⟩
  obtain ⟨hindex, hdy⟩ := isText_of_sparseAddend he
  have htext : ∀ w : Value K, w.isText = true → (u.argument w).isText = true := by
    intro w hw
    cases w <;> first | rfl | cases hw
  unfold Reading.adjointArguments at hthree
  match args with
  | [] => cases hthree
  | [x] =>
    cases hx : x.isText <;> rw [seedPlace_cons, hx] at hthree <;> cases hthree
  | x :: y :: rest =>
    refine ⟨x, y, rest, e, rfl, ?_, hamount⟩
    -- Before a text the derivative would be put in as the source or as the index, and the text
    -- would be the index or what is added.
    cases hx : x.isText with
    | true =>
      rw [seedPlace_cons, hx] at hthree
      cases hthree
      exact absurd (htext x hx) (by simp [hindex])
    | false =>
      cases hy : y.isText with
      | true =>
        rw [seedPlace_cons, seedPlace_cons, hx, hy] at hthree
        cases hthree
        exact absurd (htext y hy) (by simp [hdy])
      | false =>
        rw [seedPlace_cons, seedPlace_cons, hx, hy] at hplace hthree
        obtain hrest : seedPlace rest = 0 := by simpa using hplace
        rw [hrest] at hthree
        cases hthree
        exact he

/-- **What an indexing layer adds is additive.** -/
theorem addend_total_of_scatter (hne : N ≠ []) (hrole : n.role = .layer a)
    (hscatter : a.op.scatter = true) (hplace : seedPlace a.args ≤ 2)
    (hsame : ∀ i ∈ N, ∀ w ∈ a.args, (v i).argument w = V.argument w)
    (htotal : Value.IsTotal (N.map fun i => (v i).der n.id) (V.der n.id)) {id : Nat} {s : Shape}
    (hadds : n.addend call V id s ≠ ⊤) {ss : ι → Shape}
    (haddss : ∀ i ∈ N, n.addend call (v i) id (ss i) ≠ ⊤) :
    n.addend call V id = (N.map fun i => n.addend call (v i) id).sum := by
  simp only [Node.addend_of_sparse hrole hscatter] at hadds haddss ⊢
  split
  · rename_i hfirst
    rw [if_pos hfirst] at hadds
    obtain ⟨x, y, rest, e, hargs, he, hamount⟩ := exists_of_sparseAmount hplace hadds
    rw [hamount]
    have hall : ∀ i, ∃ e, i ∈ N →
        sparseAddend (V.argument x) (V.argument y) ((v i).der n.id) = .ok e ∧
          sparseAmount ((v i).adjointArguments n.id a.args) = e.amount := by
      intro i
      by_cases hi : i ∈ N
      · have hi' := haddss i hi
        rw [if_pos hfirst] at hi'
        obtain ⟨x', y', rest', e', hargs', he', hamount'⟩ := exists_of_sparseAmount hplace hi'
        cases hargs.symm.trans hargs'
        rw [hsame i hi x (by simp [hargs]), hsame i hi y (by simp [hargs])] at he'
        exact ⟨e', fun _ => ⟨he', hamount'⟩⟩
      · exact ⟨.single 0, fun h => absurd h hi⟩
    choose es hes using hall
    have haddends : List.Forall₂ (fun d e => sparseAddend (V.argument x) (V.argument y) d = .ok e)
        (N.map fun i => (v i).der n.id) (N.map es) := by
      rw [List.forall₂_map_left_iff, List.forall₂_map_right_iff]
      exact List.forall₂_same.mpr fun i hi => (hes i hi).1
    rw [amount_sparseAddend (mt List.map_eq_nil_iff.mp hne) htotal he haddends, List.map_map,
      List.map_congr_left fun i hi => (hes i hi).2]
    rfl
  · simp

end

/-! ### Nets that have nodes in common -/

section

variable {F : Type} {k : Nat}

/-- The nets that have the node of an identity. -/
def sharers (I : Fin k → List (Node F)) (id : Nat) : List (Fin k) :=
  (List.finRange k).filter fun i => (position? (I i) id).isSome

/-- The derivatives that the node of an identity has in the nets that have it. -/
def derivativesOf (I : Fin k → List (Node F)) (v : Fin k → Reading F) (id : Nat) : List (Value F) :=
  (sharers I id).map fun i => (v i).der id

/-- Lists that together have the nodes of another one, but for its last node. -/
structure Covers (J : List (Node F)) (join : Node F) (I : Fin k → List (Node F)) : Prop where
  /-- The other list has one more node at its end. -/
  last : J.getLast? = some join
  /-- Its nodes are those of the lists and that one. -/
  mem : ∀ n, n ∈ J ↔ n = join ∨ ∃ i, n ∈ I i
  /-- That one is in none of the lists. -/
  apart : ∀ i, join ∉ I i

theorem position?_isSome_iff {nodes : List (Node F)} {id : Nat} :
    (position? nodes id).isSome ↔ ∃ n ∈ nodes, n.id = id := by
  constructor
  · intro h
    obtain ⟨k, hk⟩ := Option.isSome_iff_exists.mp h
    obtain ⟨n, hn, hid⟩ := position?_sound hk
    exact ⟨n, List.mem_of_getElem? hn, hid⟩
  · rintro ⟨n, hn, rfl⟩
    obtain ⟨k, hk⟩ := exists_position? hn
    rw [hk]
    rfl

/-- A node of a list in dependency order comes before those that read it. -/
theorem Ordered.lt_of_reads {nodes : List (Node F)} (ho : Ordered nodes) {j l : Nat} {m n : Node F}
    (hm : nodes[j]? = some m) (hn : nodes[l]? = some n) (hreads : n.Reads m.id) : j < l := by
  obtain ⟨a, h, hrole, hh, hid⟩ := hreads
  obtain ⟨j', hj', x, hx, hxid⟩ := ho.earlier l n hn h (mem_deps_of_arg hrole hh)
  obtain rfl := place_unique ho.distinct hx hm (hxid.trans hid)
  exact hj'

/-- A list in dependency order has what its nodes read. -/
theorem Ordered.exists_of_reads {nodes : List (Node F)} (ho : Ordered nodes) {n : Node F}
    (hn : n ∈ nodes) {id : Nat} (hreads : n.Reads id) : ∃ m ∈ nodes, m.id = id := by
  obtain ⟨a, h, hrole, hh, rfl⟩ := hreads
  obtain ⟨l, hl⟩ := List.mem_iff_getElem?.mp hn
  obtain ⟨j, -, x, hx, hid⟩ := ho.earlier l n hl h (mem_deps_of_arg hrole hh)
  exact ⟨x, List.mem_of_getElem? hx, hid⟩

/-- The last node of a list in dependency order is not read in the list. -/
theorem Ordered.not_reads_last {nodes : List (Node F)} (ho : Ordered nodes) {m n : Node F}
    (hm : nodes.getLast? = some m) (hn : n ∈ nodes) : ¬ n.Reads m.id := by
  intro hreads
  obtain ⟨l, hl⟩ := List.mem_iff_getElem?.mp hn
  rw [List.getLast?_eq_getElem?] at hm
  have := ho.lt_of_reads hm hl hreads
  have := (List.getElem?_eq_some_iff.mp hl).1
  omega

/-- Nodes of a list in dependency order are told apart by their identities. -/
theorem Ordered.eq_of_id {nodes : List (Node F)} (ho : Ordered nodes) {m n : Node F}
    (hm : m ∈ nodes) (hn : n ∈ nodes) (h : m.id = n.id) : m = n :=
  List.inj_on_of_nodup_map ho.distinct hm hn h

variable {J : List (Node F)} {join : Node F} {I : Fin k → List (Node F)}

/-- The nets that have a node are those whose lists do. -/
theorem Covers.mem_sharers (h : Covers J join I) (ho : Ordered J) {n : Node F} (hn : n ∈ J)
    {i : Fin k} : i ∈ sharers I n.id ↔ n ∈ I i := by
  unfold sharers
  rw [List.mem_filter, position?_isSome_iff]
  constructor
  · rintro ⟨-, m, hm, hid⟩
    rwa [← ho.eq_of_id ((h.mem m).mpr (.inr ⟨i, hm⟩)) hn hid]
  · exact fun hi => ⟨List.mem_finRange i, n, hi, rfl⟩

/-- The nodes but for the last one are those of the lists. -/
theorem Covers.mem_dropLast (h : Covers J join I) (ho : Ordered J) {n : Node F} :
    n ∈ J.dropLast ↔ ∃ i, n ∈ I i := by
  have hJ := List.dropLast_append_getLast? join h.last
  have hnodup := ho.distinct
  rw [← hJ, List.map_append, List.nodup_append] at hnodup
  have hmem : n ∈ J ↔ n ∈ J.dropLast ∨ n = join := by
    conv_lhs => rw [← hJ]
    simp
  constructor
  · intro hn
    refine ((h.mem n).mp (hmem.mpr (.inl hn))).resolve_left ?_
    rintro rfl
    exact hnodup.2.2 _ (List.mem_map_of_mem hn) _ (List.mem_singleton_self _) rfl
  · rintro ⟨i, hi⟩
    refine (hmem.mp ((h.mem n).mpr (.inr ⟨i, hi⟩))).resolve_right ?_
    rintro rfl
    exact h.apart i hi

end

/-- What a net's seed adds to the derivative of the node of an identity: the last node has the
seed. -/
noncomputable def seedAmount (nodes : List (Node K)) (seed : Value K) (id : Nat) : Amount K :=
  if (nodes.getLast?).map Node.id = some id then seed.amount else 0

section

variable {nodes : List (Node K)} {u : Reading K} {seed : Value K}

omit [ExactArith K] in
/-- What a derivative amounts to, whether it is that of the last node or another one. -/
theorem Differentiates.der_amount (h : Differentiates call nodes seed u)
    (hseed : seed.figures?.isSome) {m : Node K} (hm : m ∈ nodes)
    (hnumbers : AnswersNumbers call nodes u m.id) :
    (u.der m.id).figures?.isSome ∧ (u.der m.id).amount
      = seedAmount nodes seed m.id + (nodes.map fun n => n.addend call u m.id).sum := by
  unfold seedAmount
  by_cases hlast : nodes.getLast? = some m
  · rw [h.root m hlast, hlast, Option.map_some, if_pos rfl, List.map_congr_left fun n hn =>
      Node.addend_of_not_reads (h.ordered.not_reads_last hlast hn) u]
    exact ⟨hseed, by simp⟩
  · obtain ⟨hsome, hamount⟩ := h.ders m hm hlast hnumbers
    rw [if_neg, zero_add]
    · exact ⟨hsome, hamount⟩
    · intro hid
      obtain ⟨n, hn, hnid⟩ := Option.map_eq_some_iff.mp hid
      rw [h.ordered.eq_of_id (List.mem_of_getLast? hn) hm hnid] at hn
      exact hlast hn

omit [ExactArith K] in
/-- Nothing is added to the derivative of a node that a net does not have. -/
theorem Ordered.amount_of_absent (ho : Ordered nodes) {id : Nat} (habsent : ∀ n ∈ nodes, n.id ≠ id)
    (call : Calls K) (u : Reading K) (seed : Value K) :
    seedAmount nodes seed id + (nodes.map fun n => n.addend call u id).sum = 0 := by
  have hreads : ∀ n ∈ nodes, ¬ n.Reads id := by
    intro n hn hreads
    obtain ⟨m, hm, hid⟩ := ho.exists_of_reads hn hreads
    exact habsent m hm hid
  unfold seedAmount
  rw [if_neg, List.map_congr_left fun n hn => Node.addend_of_not_reads (hreads n hn) u]
  · simp
  · intro hid
    obtain ⟨n, hn, hnid⟩ := Option.map_eq_some_iff.mp hid
    exact habsent n (List.mem_of_getLast? hn) hnid

end

section

variable {k : Nat} {J : List (Node K)} {join : Node K} {I : Fin k → List (Node K)} {V : Reading K}
  {v : Fin k → Reading K} {seed : Value K} {seeds : Fin k → Value K} {n : Node K}
    {a : Application K}

/-- What nets that have nodes in common leave, if the adjoints of the nodes are additive. -/
structure SharedReadings (call : Calls K) (J : List (Node K)) (join : Node K)
    (I : Fin k → List (Node K)) (seed : Value K) (seeds : Fin k → Value K) (V : Reading K)
    (v : Fin k → Reading K) : Prop where
  /-- One of the nets has the nodes of the others, and one more. -/
  covers : Covers J join I
  /-- That net leaves derivatives. -/
  whole : Differentiates call J seed V
  /-- The others do. -/
  parts : ∀ i, Differentiates call (I i) (seeds i) (v i)
  /-- Their seeds are numbers. -/
  numbers : ∀ i, (seeds i).figures?.isSome
  /-- The values are the same. -/
  values : ∀ i, ∀ n ∈ I i, (v i).value n.id = V.value n.id
  /-- Sparse updates read the derivative of the output, which stands no later than third. -/
  third : ∀ n ∈ J, ∀ a, n.role = .layer a → a.op.scatter = true → seedPlace a.args ≤ 2
  /-- Adjoints are additive. -/
  additive : ∀ n ∈ J, n ≠ join → ∀ a, n.role = .layer a → a.op.scatter = false →
    AdditiveOn (fun dy => adjointAnswer call (countOf a) a (V.argumentsWith dy a.args))
      (derivativesOf I v n.id) (V.der n.id)

namespace SharedReadings

omit [ExactArith K] in
theorem mem_of_part (h : SharedReadings call J join I seed seeds V v) {i : Fin k} (hn : n ∈ I i) :
    n ∈ J ∧ n ≠ join :=
  ⟨(h.covers.mem n).mpr (.inr ⟨i, hn⟩), fun heq => h.covers.apart i (heq ▸ hn)⟩

omit [ExactArith K] in
theorem mem_sharers (h : SharedReadings call J join I seed seeds V v) (hn : n ∈ J) {i : Fin k} :
    i ∈ sharers I n.id ↔ n ∈ I i :=
  h.covers.mem_sharers h.whole.ordered hn

omit [ExactArith K] in
/-- Layers are called with the same values. -/
theorem argument_eq (h : SharedReadings call J join I seed seeds V v) {i : Fin k} (hn : n ∈ I i)
    (hrole : n.role = .layer a) : ∀ w ∈ a.args, (v i).argument w = V.argument w :=
  (h.parts i).ordered.argument_congr (h.values i) hn hrole

omit [ExactArith K] in
/-- What a layer adds with an adjoint is told in numbers, and is the sum of what it adds in the nets
that have it, if its derivative is the sum. -/
theorem addend_of_dense (h : SharedReadings call J join I seed seeds V v) (hn : n ∈ J)
    (hne : n ≠ join) (hrole : n.role = .layer a) (hscatter : a.op.scatter = false)
    (htotal : Value.IsTotal (derivativesOf I v n.id) (V.der n.id)) (id : Nat) :
    (∀ out, adjointAnswer call (countOf a) a (V.adjointArguments n.id a.args) = .ok out →
      ∀ w ∈ contributions id n out, w.figures?.isSome) ∧
    (∀ i, n ∈ I i → ∀ out,
      adjointAnswer call (countOf a) a ((v i).adjointArguments n.id a.args) = .ok out →
        ∀ w ∈ contributions id n out, w.figures?.isSome) ∧
    n.addend call V id = ((sharers I n.id).map fun i => n.addend call (v i) id).sum := by
  obtain ⟨out, hout⟩ := h.whole.answers n hn a hrole hscatter
  have houts : ∀ i, ∃ out, i ∈ sharers I n.id →
      adjointAnswer call (countOf a) a ((v i).adjointArguments n.id a.args) = .ok out := by
    intro i
    by_cases hi : i ∈ sharers I n.id
    · obtain ⟨out, hout⟩ := (h.parts i).answers n ((h.mem_sharers hn).mp hi) a hrole hscatter
      exact ⟨out, fun _ => hout⟩
    · exact ⟨[], fun hi' => absurd hi' hi⟩
  choose outs houts using houts
  obtain ⟨hnumbers, hnumbers', hsum⟩ := (h.additive n hn hne a hrole hscatter).addend_total hrole
    hscatter (fun i hi => h.argument_eq ((h.mem_sharers hn).mp hi) hrole) htotal hout houts id
  refine ⟨fun out' hout' => ?_, fun i hi out' hout' => ?_, hsum⟩
  · rw [hout] at hout'
    cases hout'
    exact hnumbers
  · have hi := (h.mem_sharers hn).mpr hi
    rw [houts i hi] at hout'
    cases hout'
    exact hnumbers' i hi

/-- The derivatives of the node of an identity are numbers in the nets that have it, and amount
to what the seed and the readers add. -/
def AmountsTo (call : Calls K) (I : Fin k → List (Node K)) (seeds : Fin k → Value K)
    (v : Fin k → Reading K) (id : Nat) : Prop :=
  ∀ i ∈ sharers I id, ((v i).der id).figures?.isSome ∧ ((v i).der id).amount
    = seedAmount (I i) (seeds i) id + ((I i).map fun n => n.addend call (v i) id).sum

/-- What an indexing layer adds is the sum of what it adds in the nets that have it, if its
derivative is the sum. -/
theorem addend_of_sparse (h : SharedReadings call J join I seed seeds V v) {i₀ : Fin k}
    (hi₀ : n ∈ I i₀) (hrole : n.role = .layer a) (hscatter : a.op.scatter = true)
    (htotal : Value.IsTotal (derivativesOf I v n.id) (V.der n.id)) {m : Node K} (hm : m ∈ J)
    (hreads : n.Reads m.id) (hsome : (V.der m.id).figures?.isSome)
    (hamount : (V.der m.id).amount = (J.map fun n => n.addend call V m.id).sum)
    (hparts : AmountsTo call I seeds v m.id) :
    n.addend call V m.id = ((sharers I n.id).map fun i => n.addend call (v i) m.id).sum := by
  have hn := (h.mem_of_part hi₀).1
  have hJ := h.whole.ordered
  -- Derivatives are numbers, so that every update adds something.
  obtain ⟨s, hs⟩ := Value.exists_amount_ne_top hsome
  rw [hamount] at hs
  have hss : ∀ i, ∃ s, i ∈ sharers I n.id → n.addend call (v i) m.id s ≠ ⊤ := by
    intro i
    by_cases hi : i ∈ sharers I n.id
    · have hnI := (h.mem_sharers hn).mp hi
      obtain ⟨m', hm', hid⟩ := (h.parts i).ordered.exists_of_reads hnI hreads
      obtain rfl := hJ.eq_of_id (h.mem_of_part hm').1 hm hid
      obtain ⟨hsomei, hamounti⟩ := hparts i ((h.mem_sharers hm).mpr hm')
      obtain ⟨s, hs⟩ := Value.exists_amount_ne_top hsomei
      rw [hamounti, Pi.add_apply, WithTop.add_ne_top] at hs
      exact ⟨s, fun _ => Amount.ne_top_of_mem hs.2 _ (List.mem_map_of_mem hnI)⟩
    · exact ⟨[], fun hi' => absurd hi' hi⟩
  choose ss hss using hss
  exact addend_total_of_scatter (List.ne_nil_of_mem ((h.mem_sharers hn).mpr hi₀)) hrole hscatter
    (h.third n hn a hrole hscatter)
    (fun i hi => h.argument_eq ((h.mem_sharers hn).mp hi) hrole) htotal
    (Amount.ne_top_of_mem hs _ (List.mem_map_of_mem hn)) hss

omit [ExactArith K] in
/-- A sum over the nets that have a node of what its derivatives amount to, by what is added. -/
theorem sum_derivativesOf (h : SharedReadings call J join I seed seeds V v) {id : Nat}
    (hparts : AmountsTo call I seeds v id) : ((derivativesOf I v id).map Value.amount).sum
      = ((List.finRange k).map fun i => seedAmount (I i) (seeds i) id).sum
        + ((List.finRange k).map fun i => ((I i).map fun n => n.addend call (v i) id).sum).sum := by
  have heach : (derivativesOf I v id).map Value.amount = (sharers I id).map fun i =>
      seedAmount (I i) (seeds i) id + ((I i).map fun n => n.addend call (v i) id).sum := by
    unfold derivativesOf
    rw [List.map_map]
    exact List.map_congr_left fun i hi => (hparts i hi).2
  rw [heach, sharers, sum_map_filter, ← List.sum_map_add]
  refine congrArg List.sum (List.map_congr_left fun i _ => ?_)
  split
  · rfl
  · rename_i habsent
    rw [position?_isSome_iff] at habsent
    exact ((h.parts i).ordered.amount_of_absent (fun n hn hid => habsent ⟨n, hn, hid⟩) call (v i)
      (seeds i)).symm

omit [ExactArith K] in
/-- What all nodes add to a derivative is what its parts amount to, if what each node adds is
the sum of what it adds in the nets that have it, and the last one adds what the seeds do. -/
theorem sum_addend (h : SharedReadings call J join I seed seeds V v) {id : Nat}
    (hparts : AmountsTo call I seeds v id)
    (hreader : ∀ n ∈ J.dropLast, n.addend call V id
      = ((sharers I n.id).map fun i => n.addend call (v i) id).sum)
    (hjoin : join.addend call V id
      = ((List.finRange k).map fun i => seedAmount (I i) (seeds i) id).sum) :
    (J.map fun n => n.addend call V id).sum = ((derivativesOf I v id).map Value.amount).sum := by
  have hJ := h.whole.ordered
  have hlast := List.dropLast_append_getLast? join h.covers.last
  calc (J.map fun n => n.addend call V id).sum
      = (J.dropLast.map fun n => n.addend call V id).sum + join.addend call V id := by
        conv_lhs => rw [← hlast, List.map_append, List.sum_append, List.map_singleton,
          List.sum_singleton]
    _ = (J.dropLast.map fun n => ((sharers I n.id).map fun i => n.addend call (v i) id).sum).sum
          + ((List.finRange k).map fun i => seedAmount (I i) (seeds i) id).sum := by
        rw [List.map_congr_left hreader, hjoin]
    _ = ((List.finRange k).map fun i => ((I i).map fun n => n.addend call (v i) id).sum).sum
          + ((List.finRange k).map fun i => seedAmount (I i) (seeds i) id).sum := by
        congr 1
        refine sum_map_filter_comm (hJ.distinct.of_map.sublist (List.dropLast_sublist J))
          (fun i => (h.parts i).ordered.distinct.of_map) (fun n hn i => ?_)
          (fun i n hn => (h.covers.mem_dropLast hJ).mpr ⟨i, hn⟩) fun i n => n.addend call (v i) id
        obtain ⟨i₀, hi₀⟩ := (h.covers.mem_dropLast hJ).mp hn
        rw [← h.mem_sharers (h.mem_of_part hi₀).1]
        unfold sharers
        simp
    _ = ((derivativesOf I v id).map Value.amount).sum := by
        rw [h.sum_derivativesOf hparts, add_comm]

/-- **Derivatives add up.**  Let the last node add to the derivative of every other one what the
seeds of the lists do.  Then every derivative is the sum of those in the lists that have the
node. -/
theorem isTotal (h : SharedReadings call J join I seed seeds V v)
    (hnumbers : ∀ id, ∀ a, join.role = .layer a → a.op.scatter = false → ∀ out,
      adjointAnswer call (countOf a) a (V.adjointArguments join.id a.args) = .ok out →
        ∀ w ∈ contributions id join out, w.figures?.isSome)
    (hjoin : ∀ m ∈ J, m ≠ join → join.addend call V m.id
      = ((List.finRange k).map fun i => seedAmount (I i) (seeds i) m.id).sum) :
    ∀ m ∈ J, m ≠ join → Value.IsTotal (derivativesOf I v m.id) (V.der m.id) := by
  have hJ := h.whole.ordered
  intro m hm hne
  obtain ⟨j, hj⟩ := List.mem_iff_getElem?.mp hm
  -- The induction goes from the last node back: those that read a node come after it.
  induction hd : J.length - j using Nat.strongRecOn generalizing j m with
  | ind d ih =>
    have hreaders : ∀ n ∈ J, n ≠ join → n.Reads m.id →
        Value.IsTotal (derivativesOf I v n.id) (V.der n.id) := by
      intro n hn hnj hreads
      obtain ⟨l, hl⟩ := List.mem_iff_getElem?.mp hn
      have hlt := hJ.lt_of_reads hj hl hreads
      have := (List.getElem?_eq_some_iff.mp hl).1
      exact ih (J.length - l) (by omega) n hn hnj l hl rfl
    have hnothing : ∀ {n : Node K}, ¬ n.Reads m.id → ∀ a, n.role = .layer a →
      ∀ (out : List (Value K)),
        ∀ w ∈ contributions m.id n out, w.figures?.isSome := by
      intro n hreads a hrole out w hw
      rw [contributions_eq (application?_eq_some.mpr hrole),
        operandPlaces_eq_nil hrole hreads] at hw
      cases hw
    have hdense := fun n hn hnj hreads a hrole hscatter =>
      h.addend_of_dense (n := n) (a := a) hn hnj hrole hscatter (hreaders n hn hnj hreads) m.id
    -- What readers answer are numbers, so that derivatives are sums.
    obtain ⟨hsome, hamount⟩ := h.whole.ders m hm
      (fun hlast => hne (Option.some.inj (hlast.symm.trans h.covers.last)))
      fun n hn a hrole hscatter out hout => by
        by_cases hnj : n = join
        · subst hnj
          exact hnumbers m.id a hrole hscatter out hout
        · by_cases hreads : n.Reads m.id
          · exact (hdense n hn hnj hreads a hrole hscatter).1 out hout
          · exact hnothing hreads a hrole out
    have hparts : AmountsTo call I seeds v m.id := fun i hi =>
      (h.parts i).der_amount (h.numbers i) ((h.mem_sharers hm).mp hi)
        fun n hn a hrole hscatter out hout => by
          obtain ⟨hnJ, hnj⟩ := h.mem_of_part hn
          by_cases hreads : n.Reads m.id
          · exact (hdense n hnJ hnj hreads a hrole hscatter).2.1 i hn out hout
          · exact hnothing hreads a hrole out
    -- What a reader adds is the sum of what it adds in the nets that have it.
    have hreader : ∀ n ∈ J.dropLast, n.addend call V m.id
        = ((sharers I n.id).map fun i => n.addend call (v i) m.id).sum := by
      intro n hn
      obtain ⟨i₀, hi₀⟩ := (h.covers.mem_dropLast hJ).mp hn
      obtain ⟨hnJ, hnj⟩ := h.mem_of_part hi₀
      by_cases hreads : n.Reads m.id
      · obtain ⟨a, -, hrole, -⟩ := id hreads
        cases hscatter : a.op.scatter with
        | false => exact (hdense n hnJ hnj hreads a hrole hscatter).2.2
        | true =>
          exact h.addend_of_sparse hi₀ hrole hscatter (hreaders n hnJ hnj hreads) hm hreads hsome
            hamount hparts
      · simp [Node.addend_of_not_reads hreads]
    refine Value.isTotal_iff.mpr ⟨fun w hw => ?_, hsome, ?_⟩
    · obtain ⟨i, hi, rfl⟩ := List.mem_map.mp hw
      exact (hparts i hi).1
    · rw [hamount, h.sum_addend hparts hreader (hjoin m hm hne)]

end SharedReadings

end

end SlotGrad
