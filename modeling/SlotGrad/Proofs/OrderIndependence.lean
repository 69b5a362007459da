import Mathlib.Data.List.Perm.Basic
import SlotGrad.Proofs.Equations

/-!
# The order of the nodes does not matter

The equations of an evaluation can be written about nodes and not about places: what a node's value
and derivative are, read by its identity.  So written, a list of nodes enters them as the range of a
"for all", and as the order in which a derivative's summands are added up.  If sums do not depend on
the order of their summands, two lists of the same nodes have the same equations, and so the same
evaluations.

## Main definitions

* `Reading` — a value and a derivative for every identity.
* `Solves` — the equations of an evaluation about a reading.
* `CommutativeSums` — a class of values whose sums do not depend on the order of summands.
* `AddsOnly` — a store on which adjoints answer values of a class only.

## Main results

* `Solves.perm` — the equations do not depend on the order of the nodes.
* `evaluation_order_independent` — nor does an evaluation in normal mode.
-/

namespace SlotGrad

variable {F : Type}

/-! ### Readings -/

/-- A value and a derivative for every identity. -/
@[ext] structure Reading (F : Type) where
  /-- The values. -/
  value : Nat → Value F
  /-- The derivatives. -/
  der : Nat → Value F

namespace Reading

/-- What an argument stands for: a node stands for its value. -/
def argument (v : Reading F) : Value F → Value F
  | .node h => v.value h.id
  | w => w

/-- What the adjoint of the layer of an identity is called with. -/
def adjointArguments (v : Reading F) (id : Nat) (args : List (Value F)) : List (Value F) :=
  (args.take (seedPlace args)).map v.argument
    ++ v.der id :: (args.drop (seedPlace args)).map v.argument

/-- The store of a list of nodes that holds their values and derivatives. -/
def store (nodes : List (Node F)) (v : Reading F) : Store F :=
  ⟨Array.ofFn fun k : Fin (2 * nodes.length) =>
    ((nodes[k.val / 2]?).map fun n =>
      if k.val % 2 = 0 then v.value n.id else v.der n.id).getD .none, by simp⟩

@[simp] theorem size_store (nodes : List (Node F)) (v : Reading F) :
    (v.store nodes).size = 2 * nodes.length := by
  simp [store, Store.size]

theorem content_store {nodes : List (Node F)} {v : Reading F} {k : Nat}
    (hk : k < 2 * nodes.length) : (v.store nodes).content k
      = ((nodes[k / 2]?).map fun n =>
          if k % 2 = 0 then v.value n.id else v.der n.id).getD .none := by
  unfold Store.content store
  rw [Array.getElem?_ofFn, dif_pos hk]
  rfl

theorem value_store {nodes : List (Node F)} {v : Reading F} {k : Nat} {n : Node F}
    (hn : nodes[k]? = some n) : (v.store nodes).content (valueSlot k) = v.value n.id := by
  have hk := (List.getElem?_eq_some_iff.mp hn).1
  rw [content_store (valueSlot_lt.mpr hk), valueSlot_div_two, hn]
  simp [valueSlot_mod_two]

theorem der_store {nodes : List (Node F)} {v : Reading F} {k : Nat} {n : Node F}
    (hn : nodes[k]? = some n) : (v.store nodes).content (valueSlot k + 1) = v.der n.id := by
  have hk := (List.getElem?_eq_some_iff.mp hn).1
  rw [content_store (valueSlot_succ_lt.mpr hk), valueSlot_succ_div_two, hn]
  simp [valueSlot_succ_mod_two]

end Reading

/-- What a store holds for the nodes of a list. -/
def Store.reading (nodes : List (Node F)) (s : Store F) : Reading F where
  value id := ((position? nodes id).map fun k => s.content (valueSlot k)).getD .none
  der id := ((position? nodes id).map fun k => s.content (valueSlot k + 1)).getD .none

section

variable {nodes : List (Node F)}

theorem Store.value_reading (hd : (nodes.map Node.id).Nodup) {k : Nat} {n : Node F}
    (hn : nodes[k]? = some n) (s : Store F) :
    (s.reading nodes).value n.id = s.content (valueSlot k) := by
  have hpos : position? nodes n.id = some k := (position?_eq_some_iff hd).mpr ⟨n, hn, rfl⟩
  simp [reading, hpos]

theorem Store.der_reading (hd : (nodes.map Node.id).Nodup) {k : Nat} {n : Node F}
    (hn : nodes[k]? = some n) (s : Store F) :
    (s.reading nodes).der n.id = s.content (valueSlot k + 1) := by
  have hpos : position? nodes n.id = some k := (position?_eq_some_iff hd).mpr ⟨n, hn, rfl⟩
  simp [reading, hpos]

theorem Store.argument_reading (s : Store F) (v : Value F) :
    (s.reading nodes).argument v = s.argument (slotIn nodes) v := by
  cases v with
  | node h =>
    rw [Store.argument_node]
    unfold slotIn
    rw [Option.map_map]
    rfl
  | _ => rfl

theorem Store.adjointArguments_reading (hd : (nodes.map Node.id).Nodup) {k : Nat} {n : Node F}
    (hn : nodes[k]? = some n) (s : Store F) (args : List (Value F)) :
    (s.reading nodes).adjointArguments n.id args = adjointArguments (slotIn nodes) s k args := by
  unfold adjointArguments Reading.adjointArguments
  rw [Store.der_reading hd hn, List.map_congr_left fun v _ => s.argument_reading v,
    List.map_congr_left fun v _ => s.argument_reading v]

/-- The store that a reading makes for a list has that reading, if the reading is that of a store
for the same nodes. -/
theorem Reading.reading_store {nodes' : List (Node F)} (hd : (nodes.map Node.id).Nodup)
    (hperm : nodes.Perm nodes') (s : Store F) :
    ((s.reading nodes).store nodes').reading nodes' = s.reading nodes := by
  have hd' : (nodes'.map Node.id).Nodup := ((hperm.map Node.id).nodup_iff).mp hd
  have hboth : ∀ i : Nat, (((s.reading nodes).store nodes').reading nodes').value i
      = (s.reading nodes).value i ∧
        (((s.reading nodes).store nodes').reading nodes').der i = (s.reading nodes).der i := by
    intro i
    by_cases hi : ∃ n ∈ nodes', n.id = i
    · obtain ⟨n, hn, rfl⟩ := hi
      obtain ⟨k, hk⟩ := List.mem_iff_getElem?.mp hn
      rw [Store.value_reading hd' hk, Store.der_reading hd' hk]
      exact ⟨Reading.value_store hk, Reading.der_store hk⟩
    · have hnone : ∀ ms : List (Node F), (∀ n ∈ ms, n.id ≠ i) → position? ms i = none := by
        intro ms hms
        cases hpos : position? ms i with
        | none => rfl
        | some k =>
          obtain ⟨n, hn, hni⟩ := position?_sound hpos
          exact absurd hni (hms n (List.mem_of_getElem? hn))
      have h' := hnone nodes' fun n hn hni => hi ⟨n, hn, hni⟩
      have h := hnone nodes fun n hn hni => hi ⟨n, hperm.mem_iff.mp hn, hni⟩
      simp [Store.reading, h, h']
  exact Reading.ext (funext fun i => (hboth i).1) (funext fun i => (hboth i).2)

end

/-! ### The equations -/

/-- The places of the nodes among some arguments, the first of which has the given place. -/
def nodePlaces (k : Nat) (args : List (Value F)) : List Int :=
  (args.zipIdx k).filterMap fun q => q.1.node?.map fun _ => (q.2 : Int)

/-- How many derivatives a layer's adjoint is taken to return. -/
def countOf (a : Application F) : Count F :=
  a.derCount.getD (.whole (inferredCount (nodePlaces 0 a.args)))

/-- The results for the node of an identity among some arguments, the first of which has the given
place. -/
def resultsFor (id k : Nat) (args out : List (Value F)) : List (Value F) :=
  (args.zipIdx k).filterMap fun q =>
    if q.1.node?.map Handle.id = some id then (out[q.2]?).filter fun v => !v.isNone else none

/-- What a node adds to the derivative of the node of an identity: the results of its adjoint for
that node, where the arguments behind the derivative of the output are one place further. -/
def contributions (id : Nat) (n : Node F) (out : List (Value F)) : List (Value F) :=
  match n.application? with
  | none => []
  | some a => resultsFor id 0 (a.args.take (seedPlace a.args)) out
      ++ resultsFor id (seedPlace a.args + 1) (a.args.drop (seedPlace a.args)) out

/-- Every argument that is a node has a slot. -/
theorem nodePlaces_eq {slotOf : Handle → Option Nat} :
    ∀ {args : List (Value F)} (k : Nat), (∀ h, Value.node h ∈ args → (slotOf h).isSome) →
      (operandSlots slotOf k args).map Prod.snd = nodePlaces k args := by
  intro args
  induction args with
  | nil => exact fun _ _ => rfl
  | cons v vs ih =>
    intro k hall
    have ih := ih (k + 1) fun h hh => hall h (List.mem_cons_of_mem _ hh)
    unfold nodePlaces at ih ⊢
    rw [operandSlots, List.zipIdx_cons, List.filterMap_cons, ← ih]
    cases hv : v.node? with
    | none => rfl
    | some h =>
      obtain ⟨slot, hslot⟩ := Option.isSome_iff_exists.mp
        (hall h (by rw [Value.node?_eq_some.mp hv]; exact List.mem_cons_self ..))
      simp [hslot]

section

variable [Arith F]

/-- The equations of an evaluation about the values and derivatives of nodes: every layer's value is
what its op answers, and every derivative is the sum of its start and what the nodes add to it, the
last node first. -/
structure Solves (call : Calls F) (nodes : List (Node F)) (start : Nat → Value F) (v : Reading F)
    (out : Nat → List (Value F)) : Prop where
  /-- What ops answer. -/
  values : ∀ n ∈ nodes, ∀ a, n.role = .layer a →
    call a.op.forward ⟨a.args.map v.argument, a.kwargs⟩ = .ok (v.value n.id)
  /-- What adjoints answer. -/
  answers : ∀ n ∈ nodes, ∀ a, n.role = .layer a →
    adjointAnswer call (countOf a) a (v.adjointArguments n.id a.args) = .ok (out n.id)
  /-- What is added up. -/
  ders : ∀ m ∈ nodes, (nodes.reverse.flatMap fun n => contributions m.id n (out n.id)).foldlM
    Value.plus (start m.id) = .ok (v.der m.id)

end

/-! ### Places and identities -/

/-- What is made of the layers of a list, the last one first, is made of its nodes. -/
theorem flatMap_layersOf_reverse {β : Type} {nodes : List (Node F)}
    {g : Nat × Application F → List β} {f : Node F → List β}
    (hleaf : ∀ n ∈ nodes, n.application? = none → f n = [])
    (hlayer : ∀ k n a, nodes[k]? = some n → n.application? = some a → g (k, a) = f n) :
    (layersOf nodes).reverse.flatMap g = nodes.reverse.flatMap f := by
  have hfilter : ∀ qs : List (Node F × Nat),
      (qs.filterMap fun q => q.1.application?.map fun a => (q.2, a)).flatMap g
        = qs.flatMap fun q => (q.1.application?.map fun a => g (q.2, a)).getD [] := by
    intro qs
    induction qs with
    | nil => rfl
    | cons q qs ih =>
      rw [List.filterMap_cons, List.flatMap_cons]
      cases q.1.application? with
      | none => exact ih
      | some a =>
        exact congrArg (g (q.2, a) ++ ·) ih
  have hnodes : nodes.reverse = nodes.zipIdx.reverse.map Prod.fst := by
    rw [List.map_reverse, List.zipIdx_map_fst]
  unfold layersOf
  rw [← List.filterMap_reverse, hfilter, hnodes, List.flatMap_map]
  refine List.flatMap_congr fun q hq => ?_
  have hget := List.mem_zipIdx_iff_getElem?.mp (List.mem_reverse.mp hq)
  cases happlication : q.1.application? with
  | none => exact (hleaf _ (List.mem_of_getElem? hget) happlication).symm
  | some a => exact hlayer _ _ _ hget happlication

section

variable {nodes : List (Node F)} {layers : List (Placed F)} {net : CompiledNet F}

/-- What is picked for a place is what a node adds for the identity of the node there. -/
theorem picks_adjointOperands (hd : (nodes.map Node.id).Nodup) {k : Nat} {m : Node F}
    (hm : nodes[k]? = some m) {n : Node F} {a : Application F} (ha : n.application? = some a)
    (out : List (Value F)) :
    picks out k (adjointOperands (slotIn nodes) a.args) = contributions m.id n out := by
  unfold contributions adjointOperands picks
  rw [ha, List.filterMap_append]
  exact congrArg₂ _ (picks_operandSlots_from hd hm _ _ _) (picks_operandSlots_from hd hm _ _ _)

/-- The count of derivatives does not depend on the places of nodes. -/
theorem Streams.derCountOf_eq (h : Streams nodes layers net) {p : Placed F} (hp : p ∈ layers) :
    derCountOf (slotIn nodes) p.layer = countOf p.layer := by
  unfold derCountOf countOf
  rw [nodePlaces_eq 0 (h.located p hp)]

/-- What the layers add at a place is what the nodes add for the identity of its node. -/
theorem Streams.addedBy_eq (h : Streams nodes layers net) (hd : (nodes.map Node.id).Nodup)
    (out : Nat → List (Value F)) {out' : Nat → List (Value F)}
    (hout : ∀ i n, nodes[i]? = some n → out' i = out n.id) {k : Nat} {m : Node F}
    (hm : nodes[k]? = some m) :
    addedBy (slotIn nodes) out' layers.reverse k
      = nodes.reverse.flatMap fun n => contributions m.id n (out n.id) := by
  have hmap : addedBy (slotIn nodes) out' layers.reverse k
      = (layersOf nodes).reverse.flatMap fun L =>
        picks (out' L.1) k (adjointOperands (slotIn nodes) L.2.args) := by
    unfold addedBy
    rw [← h.places, ← List.map_reverse, List.flatMap_map]
  rw [hmap]
  refine flatMap_layersOf_reverse (fun n _ hn => ?_) fun i n a hn ha => ?_
  · unfold contributions
    rw [hn]
  · rw [hout i n hn]
    exact picks_adjointOperands hd hm ha _

variable [Arith F]

/-- What the derivative of the node of an identity starts from. -/
def startOf (nodes : List (Node F)) (o : EvalOptions F) (s : Store F) (id : Nat) : Value F :=
  ((position? nodes id).map (startAt nodes o s)).getD .none

theorem startOf_id (hd : (nodes.map Node.id).Nodup) (o : EvalOptions F) (s : Store F) {k : Nat}
    {n : Node F} (hn : nodes[k]? = some n) : startOf nodes o s n.id = startAt nodes o s k := by
  unfold startOf
  rw [(position?_eq_some_iff hd).mpr ⟨n, hn, rfl⟩]
  rfl

/-- An evaluation in normal mode of a net without indexing layers completes with a store exactly if
the store has the values of inputs and parameters and its reading solves the equations. -/
theorem Streams.evaluate_leaves_solves (h : Streams nodes layers net) (ho : Ordered nodes)
    (hne : nodes ≠ []) {o : EvalOptions F} (hkept : ∀ slot, slot ∈ keptSlots net o ↔
      o.accumulate = true ∧ ∃ k, (nodes[k]?).map Node.kind = some .param ∧
        slot = ((valueSlot k + 1 : Nat) : Int))
    (hscatter : ∀ n ∈ nodes, ∀ a, n.role = .layer a → a.op.scatter = false) {call : Calls F}
    {r : RunState F} (hseed : isEmptySeed o.seed = false)
    (hsize : r.store.size = 2 * nodes.length) {t : Store F} :
    (evaluate call net .normal o r).Leaves t ↔
      t.size = 2 * nodes.length ∧
      (∀ k n, nodes[k]? = some n → n.application? = none →
        t.content (valueSlot k) = r.store.content (valueSlot k)) ∧
      ∃ out, Solves call nodes (startOf nodes o r.store) (t.reading nodes) out := by
  have hd := ho.distinct
  have hlayer : ∀ p ∈ layers, ∃ n, nodes[p.place]? = some n ∧ n.role = .layer p.layer :=
    fun p hp => SlotGrad.mem_layersOf.mp (h.mem_layersOf hp)
  have hplaced : ∀ k n a, nodes[k]? = some n → n.role = .layer a →
      ∃ p ∈ layers, p.place = k ∧ p.layer = a := by
    intro k n a hn hrole
    have hmem : (k, a) ∈ layersOf nodes := SlotGrad.mem_layersOf.mpr ⟨n, hn, hrole⟩
    rw [← h.places] at hmem
    obtain ⟨p, hp, hpk⟩ := List.mem_map.mp hmem
    cases hpk
    exact ⟨p, hp, rfl, rfl⟩
  -- On a layer, what is read from slots is what is read from the reading.
  have hargs : ∀ args : List (Value F), args.map (t.argument (slotIn nodes))
      = args.map (t.reading nodes).argument := fun args =>
    List.map_congr_left fun v _ => (t.argument_reading v).symm
  have hcount : ∀ p ∈ layers, derCountOf (slotIn nodes) p.layer = countOf p.layer := fun p hp =>
    h.derCountOf_eq hp
  rw [h.evaluate_leaves ho hne hkept (fun p hp => by
    obtain ⟨n, hn, hrole⟩ := hlayer p hp
    exact hscatter n (List.mem_of_getElem? hn) _ hrole) hseed hsize]
  refine and_congr_right fun _ => ?_
  constructor
  · rintro ⟨hcalls, hleaves, out', hout', hders⟩
    have hout : ∀ i n, nodes[i]? = some n →
        out' i = ((position? nodes n.id).map out').getD [] := by
      intro i n hn
      rw [(position?_eq_some_iff hd).mpr ⟨n, hn, rfl⟩]
      rfl
    -- The answers by places are read as answers by identities, and back.
    refine ⟨hleaves, fun i => ((position? nodes i).map out').getD [], fun n hn a hrole => ?_,
      fun n hn a hrole => ?_, fun m hm => ?_⟩
    · obtain ⟨k, hk⟩ := List.mem_iff_getElem?.mp hn
      obtain ⟨p, hp, rfl, rfl⟩ := hplaced k n a hk hrole
      rw [Store.value_reading hd hk, ← hargs]
      exact hcalls p hp
    · obtain ⟨k, hk⟩ := List.mem_iff_getElem?.mp hn
      obtain ⟨p, hp, rfl, rfl⟩ := hplaced k n a hk hrole
      rw [← hout _ n hk, ← hcount p hp, Store.adjointArguments_reading hd hk]
      exact hout' p hp
    · obtain ⟨k, hk⟩ := List.mem_iff_getElem?.mp hm
      rw [startOf_id hd o r.store hk, Store.der_reading hd hk,
        ← h.addedBy_eq hd (fun i => ((position? nodes i).map out').getD []) hout hk]
      exact hders k (List.getElem?_eq_some_iff.mp hk).1
  · rintro ⟨hleaves, out, hsolves⟩
    refine ⟨fun p hp => ?_, hleaves, fun k => ((nodes[k]?).map fun n => out n.id).getD [],
      fun p hp => ?_, fun k hk => ?_⟩
    · obtain ⟨n, hn, hrole⟩ := hlayer p hp
      unfold layerCall
      rw [hargs, ← Store.value_reading hd hn]
      exact hsolves.values n (List.mem_of_getElem? hn) _ hrole
    · obtain ⟨n, hn, hrole⟩ := hlayer p hp
      dsimp only
      rw [hcount p hp, ← Store.adjointArguments_reading hd hn, hn]
      exact hsolves.answers n (List.mem_of_getElem? hn) _ hrole
    · obtain ⟨m, hm⟩ : ∃ m, nodes[k]? = some m := ⟨_, List.getElem?_eq_getElem hk⟩
      rw [← startOf_id hd o r.store hm, ← Store.der_reading hd hm,
        h.addedBy_eq hd out (fun i n hn => by rw [hn]; rfl) hm]
      exact hsolves.ders m (List.mem_of_getElem? hm)

end

/-! ### Sums in any order -/

section

variable [Arith F]

/-- A class of values that sums do not leave and on which addition is commutative and associative:
if one side of an equation exists, the other does and is the same. -/
structure CommutativeSums (P : Value F → Prop) : Prop where
  /-- Zero is in the class. -/
  zero : P Store.zero
  /-- So are sums. -/
  add : ∀ {a b v}, P a → P b → a.add b = .ok v → P v
  /-- Addition is commutative. -/
  comm : ∀ {a b v}, P a → P b → a.add b = .ok v → b.add a = .ok v
  /-- Addition is associative. -/
  assoc : ∀ {a b c u v}, P a → P b → P c → a.add b = .ok u → u.add c = .ok v →
    ∃ w, b.add c = .ok w ∧ a.add w = .ok v

variable {P : Value F → Prop}

/-- Two summands may change places. -/
theorem CommutativeSums.right_comm (h : CommutativeSums P) {a b c u v : Value F} (ha : P a)
    (hb : P b) (hc : P c) (hu : a.add b = .ok u) (hv : u.add c = .ok v) :
    ∃ w, a.add c = .ok w ∧ w.add b = .ok v := by
  -- From (a + b) + c it goes to (b + c) + a, and from there to b + (c + a).
  obtain ⟨w, hw, haw⟩ := h.assoc ha hb hc hu hv
  obtain ⟨x, hx, hbx⟩ := h.assoc hb hc ha hw (h.comm ha (h.add hb hc hw) haw)
  exact ⟨x, h.comm hc ha hx, h.comm hb (h.add hc ha hx) hbx⟩

/-- In a slot of the class or an unset one, a sum is one of the class. -/
theorem CommutativeSums.plus_eq (h : CommutativeSums P) {s : Value F}
    (hs : s.isNone = true ∨ P s) : ∃ a, P a ∧ ∀ v, s.plus v = a.add v := by
  unfold Value.plus
  cases hnone : s.isNone with
  | true => exact ⟨_, h.zero, fun v => rfl⟩
  | false => exact ⟨s, hs.resolve_left (by simp [hnone]), fun v => rfl⟩

omit [Arith F] in
/-- A sum may be added to as it is. -/
theorem Value.plus_of_add [Arith F] {a b u : Value F} (hu : a.add b = .ok u) (v : Value F) :
    u.plus v = u.add v := by
  unfold Value.plus
  rw [if_neg (by simp [Value.isNone_add hu])]

/-- The order of the summands does not matter. -/
theorem CommutativeSums.foldlM_perm (h : CommutativeSums P) {vs ws : List (Value F)}
    (hperm : vs.Perm ws) : ∀ {s t : Value F}, s.isNone = true ∨ P s → (∀ v ∈ vs, P v) →
      vs.foldlM Value.plus s = .ok t → ws.foldlM Value.plus s = .ok t := by
  induction hperm with
  | nil => exact fun _ _ h => h
  | cons x _ ih =>
    intro s t hs hvs hsum
    obtain ⟨a, ha, hplus⟩ := h.plus_eq hs
    rw [List.foldlM_cons] at hsum ⊢
    obtain ⟨u, hu, hsum⟩ := bind_eq_ok.mp hsum
    have huP := h.add ha (hvs x (List.mem_cons_self ..)) (hplus x ▸ hu)
    exact bind_eq_ok.mpr ⟨u, hu, ih (.inr huP) (fun v hv => hvs v (List.mem_cons_of_mem _ hv)) hsum⟩
  | swap x y vs =>
    intro s t hs hvs hsum
    obtain ⟨a, ha, hplus⟩ := h.plus_eq hs
    have hx : P x := hvs x (by simp)
    have hy : P y := hvs y (by simp)
    rw [List.foldlM_cons] at hsum ⊢
    obtain ⟨u, hu, hsum⟩ := bind_eq_ok.mp hsum
    rw [List.foldlM_cons] at hsum
    obtain ⟨w, hw, hsum⟩ := bind_eq_ok.mp hsum
    rw [hplus] at hu
    rw [Value.plus_of_add hu] at hw
    obtain ⟨u', hu', hw'⟩ := h.right_comm ha hy hx hu hw
    refine bind_eq_ok.mpr ⟨u', (hplus x).trans hu', ?_⟩
    rw [List.foldlM_cons]
    exact bind_eq_ok.mpr ⟨w, (Value.plus_of_add hu' y).trans hw', hsum⟩
  | trans h₁ _ ih₁ ih₂ =>
    intro s t hs hvs hsum
    exact ih₂ hs (fun v hv => hvs v (h₁.mem_iff.mpr hv)) (ih₁ hs hvs hsum)

/-- The equations do not depend on the order of the nodes, if what starts derivatives and what is
added to them is of a class with commutative sums. -/
theorem Solves.perm (h : CommutativeSums P) {call : Calls F} {nodes nodes' : List (Node F)}
    {start : Nat → Value F} {v : Reading F} {out : Nat → List (Value F)}
    (hsolves : Solves call nodes start v out) (hperm : nodes.Perm nodes')
    (hstart : ∀ n ∈ nodes, (start n.id).isNone = true ∨ P (start n.id))
    (hout : ∀ n ∈ nodes, ∀ a, n.role = .layer a → ∀ w ∈ out n.id, w.isNone = false → P w) :
    Solves call nodes' start v out := by
  have hmem : ∀ n, n ∈ nodes' → n ∈ nodes := fun n hn => hperm.mem_iff.mpr hn
  refine ⟨fun n hn => hsolves.values n (hmem n hn), fun n hn => hsolves.answers n (hmem n hn),
    fun m hm => ?_⟩
  have hsummands : (nodes.reverse.flatMap fun n => contributions m.id n (out n.id)).Perm
      (nodes'.reverse.flatMap fun n => contributions m.id n (out n.id)) :=
    (nodes.reverse_perm.trans (hperm.trans nodes'.reverse_perm.symm)).flatMap_right _
  refine h.foldlM_perm hsummands (hstart m (hmem m hm)) ?_ (hsolves.ders m (hmem m hm))
  intro w hw
  obtain ⟨n, hn, hw⟩ := List.mem_flatMap.mp hw
  unfold contributions at hw
  cases ha : n.application? with
  | none => simp [ha] at hw
  | some a =>
    have hresult : ∀ k args, w ∈ resultsFor m.id k args (out n.id) →
        w ∈ out n.id ∧ w.isNone = false := by
      intro k args hw
      obtain ⟨q, -, hq⟩ := List.mem_filterMap.mp hw
      split at hq
      · obtain ⟨hget, hpresent⟩ := Option.filter_eq_some_iff.mp hq
        exact ⟨List.mem_of_getElem? hget, by simpa using hpresent⟩
      · cases hq
    rw [ha] at hw
    obtain ⟨hmem', hpresent⟩ : w ∈ out n.id ∧ w.isNone = false := by
      rcases List.mem_append.mp hw with hw | hw
      · exact hresult _ _ hw
      · exact hresult _ _ hw
    exact hout n (List.mem_reverse.mp hn) a (application?_eq_some.mp ha) w hmem' hpresent

end

/-! ### Two orders -/

section

variable [Arith F] {P : Value F → Prop}

/-- A store on which the adjoints of a list's layers answer values of a class only, apart from
absent ones. -/
def AddsOnly (P : Value F → Prop) (call : Calls F) (nodes : List (Node F)) (t : Store F) : Prop :=
  ∀ k n a, nodes[k]? = some n → n.role = .layer a → ∀ out,
    adjointAnswer call (countOf a) a (adjointArguments (slotIn nodes) t k a.args) = .ok out →
      ∀ v ∈ out, v.isNone = false → P v

/-- Stores for two lists of the same nodes that hold the same for inputs and parameters: the values
and, if parameter derivatives are added to those already there, these derivatives, which are unset
or of a class. -/
structure SameLeaves (P : Value F → Prop) (o : EvalOptions F) (nodes nodes' : List (Node F))
    (s s' : Store F) : Prop where
  /-- The first store has the size of its list. -/
  size : s.size = 2 * nodes.length
  /-- So has the second one. -/
  size' : s'.size = 2 * nodes'.length
  /-- Inputs and parameters have the same values. -/
  values : ∀ j k n, nodes[j]? = some n → nodes'[k]? = some n → n.application? = none →
    s'.content (valueSlot k) = s.content (valueSlot j)
  /-- Derivatives that are kept are the same. -/
  kept : o.accumulate = true → ∀ j k n, nodes[j]? = some n → nodes'[k]? = some n →
    n.kind = .param → s'.content (valueSlot k + 1) = s.content (valueSlot j + 1) ∧
      ((s.content (valueSlot j + 1)).isNone = true ∨ P (s.content (valueSlot j + 1)))

omit [Arith F] in
theorem SameLeaves.symm {o : EvalOptions F} {nodes nodes' : List (Node F)} {s s' : Store F}
    (h : SameLeaves P o nodes nodes' s s') : SameLeaves P o nodes' nodes s' s := by
  refine ⟨h.size', h.size, fun j k n hj hk hn => (h.values k j n hk hj hn).symm,
    fun hacc j k n hj hk hn => ?_⟩
  obtain ⟨heq, hP⟩ := h.kept hacc k j n hk hj hn
  rw [heq]
  exact ⟨rfl, hP⟩

omit [Arith F] in
/-- A node is the last one of two lists that end with the same node, or of none of them. -/
theorem last_iff {nodes nodes' : List (Node F)} (hd : (nodes.map Node.id).Nodup)
    (hlast : nodes.getLast? = nodes'.getLast?) {j k : Nat} {n : Node F} (hj : nodes[j]? = some n)
    (hk : nodes'[k]? = some n) (h : k + 1 = nodes'.length) : j + 1 = nodes.length := by
  have hlast' : nodes'.getLast? = some n := by
    rw [List.getLast?_eq_getElem?, ← h, Nat.add_sub_cancel, hk]
  rw [hlast', List.getLast?_eq_getElem?] at hlast
  have := place_unique hd hj hlast rfl
  have := (List.getElem?_eq_some_iff.mp hj).1
  omega

/-- Derivatives start from the same in both lists. -/
theorem SameLeaves.startAt_eq {o : EvalOptions F} {nodes nodes' : List (Node F)} {s s' : Store F}
    (h : SameLeaves P o nodes nodes' s s') (hd : (nodes.map Node.id).Nodup)
    (hd' : (nodes'.map Node.id).Nodup) (hlast : nodes.getLast? = nodes'.getLast?) {j k : Nat}
    {n : Node F} (hj : nodes[j]? = some n) (hk : nodes'[k]? = some n) :
    startAt nodes' o s' k = startAt nodes o s j := by
  have hiff : k + 1 = nodes'.length ↔ j + 1 = nodes.length :=
    ⟨last_iff hd hlast hj hk, last_iff hd' hlast.symm hk hj⟩
  unfold startAt
  rw [hj, hk]
  simp only [hiff]
  split
  · rfl
  · split
    · rename_i hkeep
      exact (h.kept hkeep.1 j k n hj hk (by simpa using hkeep.2)).1
    · rfl

/-- Derivatives start from values of the class, or unset. -/
theorem SameLeaves.startAt_mem {o : EvalOptions F} {nodes nodes' : List (Node F)} {s s' : Store F}
    (h : SameLeaves P o nodes nodes' s s') (hsums : CommutativeSums P)
    (hseed : P o.seed) {j k : Nat} {n : Node F} (hj : nodes[j]? = some n)
    (hk : nodes'[k]? = some n) :
    (startAt nodes o s j).isNone = true ∨ P (startAt nodes o s j) := by
  unfold startAt
  rw [hj]
  split
  · exact .inr hseed
  · split
    · rename_i hkeep
      exact (h.kept hkeep.1 j k n hj hk (by simpa using hkeep.2)).2
    · exact .inr hsums.zero

/-- An evaluation that completes has a seed. -/
theorem evaluate_leaves_seed {call : Calls F} {c : CompiledNet F} {o : EvalOptions F}
    {r : RunState F} {t : Store F} (h : (evaluate call c .normal o r).Leaves t) :
    isEmptySeed o.seed = false := by
  unfold evaluate at h
  cases hcheck : checkRequest c .normal o r.store with
  | error e =>
    rw [hcheck] at h
    exact absurd h Outcome.not_leaves_stopped
  | ok u => exact (checkRequest_accepts hcheck).1 rfl

variable [Interchange F] {checks checks' : Checks F} {known known' : Node F → Bool}
  {nodes nodes' : List (Node F)} {roots roots' : Option (List Handle)}
    {options options' : Options F}
  {c c' : Compilation F}

/-- If an evaluation of a list completes, so does one of the same nodes in another order, and its
store holds the same for every node. -/
theorem leaves_of_perm (hc : compileNodes checks known nodes roots options = .ok c)
    (hc' : compileNodes checks' known' nodes' roots' options' = .ok c') (ho : Ordered nodes)
    (ho' : Ordered nodes') (hperm : nodes.Perm nodes') (hlast : nodes.getLast? = nodes'.getLast?)
    (hscatter : ∀ n ∈ nodes, ∀ a, n.role = .layer a → a.op.scatter = false)
    (hsums : CommutativeSums P) {call : Calls F} {o : EvalOptions F} (hseed : P o.seed)
    {r r' : RunState F} (hsame : SameLeaves P o nodes nodes' r.store r'.store) {t : Store F}
    (ht : (evaluate call c.net .normal o r).Leaves t) (hadds : AddsOnly P call nodes t) :
    (evaluate call c'.net .normal o r').Leaves ((t.reading nodes).store nodes') := by
  obtain ⟨hne, names, heads, hlen, hnet⟩ := compileNodes_assembled hc
  obtain ⟨hne', names', heads', hlen', hnet'⟩ := compileNodes_assembled hc'
  have hempty := evaluate_leaves_seed ht
  have hd := ho.distinct
  have hd' := ho'.distinct
  have hplace : ∀ n, n ∈ nodes → ∃ j k : Nat, nodes[j]? = some n ∧ nodes'[k]? = some n := by
    intro n hn
    obtain ⟨j, hj⟩ := List.mem_iff_getElem?.mp hn
    obtain ⟨k, hk⟩ := List.mem_iff_getElem?.mp (hperm.mem_iff.mp hn)
    exact ⟨j, k, hj, hk⟩
  -- The store solves the equations of the first order; read by nodes, these are those of the
  -- second.
  obtain ⟨-, hleaves, out, hsolves⟩ :=
    ((assemble_streams hlen hnet).evaluate_leaves_solves ho hne
      (fun _ => mem_keptSlots hlen hnet) hscatter hempty hsame.size).mp ht
  refine ((assemble_streams hlen' hnet').evaluate_leaves_solves ho' hne'
    (fun _ => mem_keptSlots hlen' hnet') (fun n hn => hscatter n (hperm.mem_iff.mpr hn)) hempty
    hsame.size').mpr ⟨Reading.size_store .., fun k n hk hrole => ?_, out, ?_⟩
  · obtain ⟨j, -, hj, -⟩ := hplace n (hperm.mem_iff.mpr (List.mem_of_getElem? hk))
    rw [Reading.value_store hk, Store.value_reading hd hj, hleaves j n hj hrole]
    exact (hsame.values j k n hj hk hrole).symm
  · rw [Reading.reading_store hd hperm]
    have hpermuted := hsolves.perm hsums hperm (fun n hn => ?_) fun n hn a hrole w hw hpresent => ?_
    · refine ⟨hpermuted.values, hpermuted.answers, fun m hm => ?_⟩
      obtain ⟨j, k, hj, hk⟩ := hplace m (hperm.mem_iff.mpr hm)
      rw [startOf_id hd' o r'.store hk, hsame.startAt_eq hd hd' hlast hj hk,
        ← startOf_id hd o r.store hj]
      exact hpermuted.ders m hm
    · obtain ⟨j, k, hj, hk⟩ := hplace n hn
      rw [startOf_id hd o r.store hj]
      exact hsame.startAt_mem hsums hseed hj hk
    · obtain ⟨j, k, hj, -⟩ := hplace n hn
      refine hadds j n a hj hrole (out n.id) ?_ w hw hpresent
      rw [← Store.adjointArguments_reading hd hj]
      exact hsolves.answers n hn a hrole

/-- **The order of the nodes does not matter.**  Two lists of the same nodes, both in dependency
order and with the same last node, without indexing layers, are evaluated in normal mode from
stores that hold the same for inputs and parameters.  If sums of the seed and of what the
adjoints contribute do not depend on the order of their summands, then one evaluation completes
if the other does, and every node ends with the same value and the same derivative. -/
theorem evaluation_order_independent
    (hc : compileNodes checks known nodes roots options = .ok c)
    (hc' : compileNodes checks' known' nodes' roots' options' = .ok c') (ho : Ordered nodes)
    (ho' : Ordered nodes') (hperm : nodes.Perm nodes') (hlast : nodes.getLast? = nodes'.getLast?)
    (hscatter : ∀ n ∈ nodes, ∀ a, n.role = .layer a → a.op.scatter = false)
    (hsums : CommutativeSums P) {call : Calls F} {o : EvalOptions F} (hseed : P o.seed)
    {r r' : RunState F} (hsame : SameLeaves P o nodes nodes' r.store r'.store)
    (hadds : ∀ t, (evaluate call c.net .normal o r).Leaves t → AddsOnly P call nodes t)
    (hadds' : ∀ t, (evaluate call c'.net .normal o r').Leaves t → AddsOnly P call nodes' t) :
    ((evaluate call c.net .normal o r).error = none ↔
        (evaluate call c'.net .normal o r').error = none) ∧
      ((evaluate call c.net .normal o r).error = none →
        ∀ (j k : Nat) (n : Node F), nodes[j]? = some n → nodes'[k]? = some n →
          (evaluate call c'.net .normal o r').state.store.content (valueSlot k)
              = (evaluate call c.net .normal o r).state.store.content (valueSlot j) ∧
            (evaluate call c'.net .normal o r').state.store.content (valueSlot k + 1)
              = (evaluate call c.net .normal o r).state.store.content (valueSlot j + 1)) := by
  have hthere : ∀ t, (evaluate call c.net .normal o r).Leaves t →
      (evaluate call c'.net .normal o r').Leaves ((t.reading nodes).store nodes') := fun t ht =>
    leaves_of_perm hc hc' ho ho' hperm hlast hscatter hsums hseed hsame ht (hadds t ht)
  have hback : ∀ t, (evaluate call c'.net .normal o r').Leaves t →
      (evaluate call c.net .normal o r).Leaves ((t.reading nodes').store nodes) := fun t ht =>
    leaves_of_perm hc' hc ho' ho hperm.symm hlast.symm
      (fun n hn => hscatter n (hperm.mem_iff.mpr hn)) hsums hseed hsame.symm ht (hadds' t ht)
  refine ⟨⟨fun h => (hthere _ ⟨h, rfl⟩).1, fun h => (hback _ ⟨h, rfl⟩).1⟩, fun h j k n hj hk => ?_⟩
  obtain ⟨-, hstore⟩ := hthere _ ⟨h, rfl⟩
  rw [hstore, Reading.value_store hk, Reading.der_store hk, Store.value_reading ho.distinct hj,
    Store.der_reading ho.distinct hj]
  exact ⟨rfl, rfl⟩

end

/-- A parameter. -/
def baseNode : Node ℚ := ⟨0, bareLabel, .param ⟨.real 3, .none, .none, .gradient⟩⟩

/-- Another parameter. -/
def heightNode : Node ℚ := ⟨1, bareLabel, .param ⟨.real 5, .none, .none, .gradient⟩⟩

/-- The product of the parameters. -/
def areaNode : Node ℚ :=
  ⟨2, bareLabel, .layer ⟨Builtin.times.op, [.node ⟨0, .param, ""⟩, .node ⟨1, .param, ""⟩], [],
    .same, .same, [], none⟩⟩

/-- How a single real number may be kept: as a plain number, as a scalar or as an array without
axes. -/
inductive RealKind where
  /-- A plain number. -/
  | plain
  /-- A scalar. -/
  | scalar
  /-- An array without axes. -/
  | array

/-- A single real number of a kind. -/
def RealKind.value (k : RealKind) (x : F) : Value F :=
  match k with
  | plain => .real x
  | scalar => .scalar .float64 x
  | array => .array ⟨.float64, Grid.single x⟩

/-- The kind of a sum. -/
def RealKind.join : RealKind → RealKind → RealKind
  | plain, plain => plain
  | _, _ => scalar

/-- A test for single real numbers. -/
def Value.isReal (v : Value F) : Bool :=
  match v with
  | .real _ => true
  | .scalar .float64 _ => true
  | .array ⟨.float64, g⟩ => g.shape.isEmpty
  | _ => false

theorem Value.exists_kind {v : Value F} (h : v.isReal = true) :
    ∃ (k : RealKind) (x : F), v = k.value x := by
  unfold isReal at h
  split at h
  · exact ⟨.plain, _, rfl⟩
  · exact ⟨.scalar, _, rfl⟩
  · rename_i g
    obtain ⟨s, xs, hsize⟩ := g
    obtain rfl : s = [] := List.isEmpty_iff.mp h
    obtain ⟨x, rfl⟩ := Array.size_eq_one_iff.mp hsize
    exact ⟨.array, x, rfl⟩
  · cases h

theorem RealKind.isReal_value (k : RealKind) (x : F) : (k.value x).isReal = true := by
  cases k <;> rfl

theorem RealKind.add_value (k l : RealKind) (x y : ℚ) :
    (k.value x).add (l.value y) = .ok ((k.join l).value (x + y)) := by
  cases k <;> cases l <;> rfl

/-- Sums of rational numbers do not depend on the order of their summands. -/
theorem commutativeSums_isReal : CommutativeSums fun v : Value ℚ => v.isReal = true := by
  refine ⟨rfl, fun {a b v} ha hb hv => ?_, fun {a b v} ha hb hv => ?_,
    fun {a b c u v} ha hb hc hu hv => ?_⟩
  · obtain ⟨k, x, rfl⟩ := Value.exists_kind ha
    obtain ⟨l, y, rfl⟩ := Value.exists_kind hb
    rw [RealKind.add_value] at hv
    rw [← Except.ok.inj hv]
    exact RealKind.isReal_value ..
  · obtain ⟨k, x, rfl⟩ := Value.exists_kind ha
    obtain ⟨l, y, rfl⟩ := Value.exists_kind hb
    rw [RealKind.add_value] at hv ⊢
    rw [show l.join k = k.join l by cases k <;> cases l <;> rfl, add_comm, hv]
  · obtain ⟨k, x, rfl⟩ := Value.exists_kind ha
    obtain ⟨l, y, rfl⟩ := Value.exists_kind hb
    obtain ⟨m, z, rfl⟩ := Value.exists_kind hc
    rw [RealKind.add_value] at hu
    cases hu
    rw [RealKind.add_value] at hv
    refine ⟨_, RealKind.add_value l m y z, ?_⟩
    rw [RealKind.add_value,
      show k.join (l.join m) = (k.join l).join m by cases k <;> cases l <;> cases m <;> rfl,
      ← add_assoc, hv]

/-- That adjoints answer values of a class only can be tested, if membership can. -/
theorem addsOnly_of_test [Arith F] {p : Value F → Bool} {call : Calls F} {nodes : List (Node F)}
    {t : Store F} (h : ((layersOf nodes).all fun L =>
      ((adjointAnswer call (countOf L.2) L.2
        (adjointArguments (slotIn nodes) t L.1 L.2.args)).toOption.getD
        []).all p) = true) : AddsOnly (fun v => p v = true) call nodes t := by
  intro k n a hn hrole out hout v hv _
  have hlayer := List.all_eq_true.mp h (k, a) (mem_layersOf.mpr ⟨n, hn, hrole⟩)
  dsimp only at hlayer
  rw [hout] at hlayer
  exact List.all_eq_true.mp hlayer v hv

theorem evaluation_order_independent_area :
    ∃ c c', compileNodes [] (fun _ => true) [baseNode, heightNode, areaNode] none plainOptions
        = .ok c ∧
      compileNodes [] (fun _ => true) [heightNode, baseNode, areaNode] none plainOptions
        = .ok c' ∧
      (evaluate builtinCalls c.net .normal ⟨.real 1, false⟩ ⟨c.store, [], none⟩).error = none ∧
      (evaluate builtinCalls c'.net .normal ⟨.real 1, false⟩ ⟨c'.store, [], none⟩
          ).state.store.content 3
        = (evaluate builtinCalls c.net .normal ⟨.real 1, false⟩ ⟨c.store, [], none⟩
          ).state.store.content 1 := by
  obtain ⟨c, hc⟩ := exists_of_isOk
    (show (compileNodes [] (fun _ => true) [baseNode, heightNode, areaNode] none
      plainOptions).isOk = true from rfl)
  obtain ⟨c', hc'⟩ := exists_of_isOk
    (show (compileNodes [] (fun _ => true) [heightNode, baseNode, areaNode] none
      plainOptions).isOk = true from rfl)
  have ho : Ordered [baseNode, heightNode, areaNode] :=
    ⟨by decide, violations_eq_nil_iff.mp rfl⟩
  have ho' : Ordered [heightNode, baseNode, areaNode] :=
    ⟨by decide, violations_eq_nil_iff.mp rfl⟩
  have hdone : (evaluate builtinCalls c.net .normal ⟨.real 1, false⟩
      ⟨c.store, [], none⟩).error = none := by
    cases hc
    decide +kernel
  have hscatter : ∀ n ∈ [baseNode, heightNode, areaNode], ∀ a,
      n.role = .layer a → a.op.scatter = false := by
    intro n hn a hrole
    simp only [List.mem_cons, List.not_mem_nil, or_false] at hn
    rcases hn with rfl | rfl | rfl <;> cases hrole
    rfl
  have hsame : SameLeaves (fun v : Value ℚ => v.isReal = true) ⟨.real 1, false⟩
      [baseNode, heightNode, areaNode] [heightNode, baseNode, areaNode] c.store c'.store := by
    cases hc
    cases hc'
    refine ⟨rfl, rfl, fun j k n hj hk hn => ?_, fun h => by cases h⟩
    rcases j with _ | _ | _ | j <;> rcases k with _ | _ | _ | k <;> cases hj <;> cases hk <;>
      rfl
  -- Real numbers are all that is added, which can be tested on the final stores.
  have hadds : ∀ t, (evaluate builtinCalls c.net .normal ⟨.real 1, false⟩
      ⟨c.store, [], none⟩).Leaves t → AddsOnly (fun v : Value ℚ => v.isReal = true) builtinCalls
        [baseNode, heightNode, areaNode] t := by
    rintro t ⟨-, rfl⟩
    refine addsOnly_of_test ?_
    cases hc
    decide +kernel
  have hadds' : ∀ t, (evaluate builtinCalls c'.net .normal ⟨.real 1, false⟩
      ⟨c'.store, [], none⟩).Leaves t → AddsOnly (fun v : Value ℚ => v.isReal = true)
        builtinCalls [heightNode, baseNode, areaNode] t := by
    rintro t ⟨-, rfl⟩
    refine addsOnly_of_test ?_
    cases hc'
    decide +kernel
  refine ⟨c, c', hc, hc', hdone, ?_⟩
  exact ((evaluation_order_independent hc hc' ho ho' (.swap _ _ _) rfl hscatter
    commutativeSums_isReal rfl hsame hadds hadds').2 hdone 0 1 baseNode rfl rfl).2

end SlotGrad
