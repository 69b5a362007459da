import SlotGrad.Proofs.OrderIndependence

/-!
# Values that several nets share

What the forward pass makes of a node depends on the inputs and parameters under it alone, not
on the net in which it is compiled.  So two nets of one graph agree on every node that they
share, and a reading that agrees with completed passes on all nodes is what a completed pass
leaves.

## Main definitions

* `Computes` — a reading on which the value of every layer is what its op answers.
* `Evaluates` — a reading that a completed forward pass makes from a store.
* `SameLeafValues` — stores that hold the same for inputs and parameters.

## Main results

* `Streams.evaluates_of_forward`, `Streams.forward_leaves_of_evaluates` — completed forward
  passes are readings.
* `Evaluates.agree` — two nets agree on the nodes that they share.
-/

namespace SlotGrad

variable {F : Type}

/-- The value of every layer is what its op answers. -/
def Computes (call : Calls F) (nodes : List (Node F)) (v : Reading F) : Prop :=
  ∀ n ∈ nodes, ∀ a, n.role = .layer a →
    call a.op.forward ⟨a.args.map v.argument, a.kwargs⟩ = .ok (v.value n.id)

/-- A reading that a completed forward pass makes from a store: inputs and parameters have what the
store holds for them, and ops compute the values of layers. -/
structure Evaluates (call : Calls F) (nodes : List (Node F)) (s : Store F) (v : Reading F) :
    Prop where
  /-- Ops compute the values of layers. -/
  computes : Computes call nodes v
  /-- Inputs and parameters have what the store holds. -/
  leaves : ∀ k n, nodes[k]? = some n → n.application? = none →
    v.value n.id = s.content (valueSlot k)

/-- Stores of two lists that hold the same for the inputs and parameters in both. -/
def SameLeafValues (nodes nodes' : List (Node F)) (s s' : Store F) : Prop :=
  ∀ j k n, nodes[j]? = some n → nodes'[k]? = some n → n.application? = none →
    s'.content (valueSlot k) = s.content (valueSlot j)

section

variable {nodes : List (Node F)} {layers : List (Placed F)} {net : CompiledNet F} {call : Calls F}

/-- What an argument stands for depends on the values of the nodes that a list in dependency order
has. -/
theorem Ordered.argument_congr (ho : Ordered nodes) {v v' : Reading F}
    (hsame : ∀ n ∈ nodes, v'.value n.id = v.value n.id) {n : Node F} (hn : n ∈ nodes)
    {a : Application F} (hrole : n.role = .layer a) :
    ∀ w ∈ a.args, v'.argument w = v.argument w := by
  intro w hw
  obtain ⟨k, hk⟩ := List.mem_iff_getElem?.mp hn
  cases w with
  | node m =>
    obtain ⟨j, -, x, hx, hid⟩ := ho.earlier k n hk m (mem_deps_of_arg hrole hw)
    have hvalue := hsame x (List.mem_of_getElem? hx)
    rwa [hid] at hvalue
  | _ => rfl

theorem Computes.congr {v : Reading F} (h : Computes call nodes v) (ho : Ordered nodes)
    {v' : Reading F} (hsame : ∀ n ∈ nodes, v'.value n.id = v.value n.id) :
    Computes call nodes v' := by
  intro n hn a hrole
  rw [List.map_congr_left (ho.argument_congr hsame hn hrole), hsame n hn]
  exact h n hn a hrole

/-- On a store that satisfies the forward equations, they hold of its reading, and conversely. -/
theorem Streams.layerCalls_iff (h : Streams nodes layers net) (hd : (nodes.map Node.id).Nodup)
    {t : Store F} :
    (∀ p ∈ layers, layerCall call (slotIn nodes) t p.layer = .ok (t.content (valueSlot p.place))) ↔
      Computes call nodes (t.reading nodes) := by
  have hargs : ∀ args : List (Value F), args.map (t.argument (slotIn nodes))
      = args.map (t.reading nodes).argument := fun args =>
    List.map_congr_left fun v _ => (t.argument_reading v).symm
  constructor
  · intro hcalls n hn a hrole
    obtain ⟨k, hk⟩ := List.mem_iff_getElem?.mp hn
    have hmem : (k, a) ∈ layersOf nodes := SlotGrad.mem_layersOf.mpr ⟨n, hk, hrole⟩
    rw [← h.places] at hmem
    obtain ⟨p, hp, heq⟩ := List.mem_map.mp hmem
    cases heq
    rw [Store.value_reading hd hk, ← hargs]
    exact hcalls p hp
  · intro hcomputes p hp
    obtain ⟨n, hn, hrole⟩ := SlotGrad.mem_layersOf.mp (h.mem_layersOf hp)
    unfold layerCall
    rw [hargs, ← Store.value_reading hd hn]
    exact hcomputes n (List.mem_of_getElem? hn) _ hrole

/-- **A completed forward pass makes a reading.** -/
theorem Streams.evaluates_of_forward (h : Streams nodes layers net) (ho : Ordered nodes)
    {r : RunState F} (hsize : r.store.size = 2 * nodes.length) {t : Store F}
    (ht : (runForward call .forward net.forward r).Leaves t) :
    t.size = 2 * nodes.length ∧ Evaluates call nodes r.store (t.reading nodes) := by
  rw [h.forward, runForward_leaves (hsize ▸ h.wellPlaced ho)] at ht
  obtain ⟨htsize, hcalls, hframe⟩ := ht
  refine ⟨htsize.trans hsize, (h.layerCalls_iff ho.distinct).mp hcalls, fun k n hn hrole => ?_⟩
  rw [Store.value_reading ho.distinct hn]
  refine hframe _ fun p hp => ?_
  exact mt valueSlot_inj.mp (h.ne_of_leaf hn hrole hp).symm

/-- **A forward pass completes if there is a reading that it can make**, and it leaves the
values of this one. -/
theorem Streams.forward_leaves_of_evaluates (h : Streams nodes layers net) (ho : Ordered nodes)
    {r : RunState F} (hsize : r.store.size = 2 * nodes.length) {v : Reading F}
    (hv : Evaluates call nodes r.store v) :
    (runForward call .forward net.forward r).Leaves (r.store.withValues (v.store nodes)) := by
  have hmid := Store.content_withValues (s := r.store) (t := v.store nodes)
    ((Reading.size_store ..).trans hsize.symm)
  have hvalue : ∀ k n, nodes[k]? = some n →
      (r.store.withValues (v.store nodes)).content (valueSlot k) = v.value n.id := by
    intro k n hn
    rw [hmid, if_pos (valueSlot_mod_two k), Reading.value_store hn]
  rw [h.forward, runForward_leaves (hsize ▸ h.wellPlaced ho)]
  refine ⟨Store.size_withValues .., (h.layerCalls_iff ho.distinct).mpr ?_, fun k hk => ?_⟩
  · refine hv.computes.congr ho fun n hn => ?_
    obtain ⟨k, hk⟩ := List.mem_iff_getElem?.mp hn
    rw [Store.value_reading ho.distinct hk, hvalue k n hk]
  · rw [hmid]
    split
    · rename_i heven
      obtain ⟨j, rfl⟩ := exists_valueSlot heven
      by_cases hj : j < nodes.length
      · -- The slot is that of an input or a parameter.
        have hn : nodes[j]? = some nodes[j] := List.getElem?_eq_getElem hj
        have hleaf : nodes[j].application? = none := h.leaf_of_ne hn fun p hp hpj =>
          hk p hp (by rw [hpj])
        rw [Reading.value_store hn, hv.leaves j _ hn hleaf]
      · have hbeyond : 2 * nodes.length ≤ valueSlot j := le_valueSlot.mpr (Nat.le_of_not_lt hj)
        rw [Store.content_of_le ((Reading.size_store ..).le.trans hbeyond),
          Store.content_of_le (hsize.le.trans hbeyond)]
    · rfl

end

/-- A reading of a list is one of every list of some of its nodes, from a store that holds the
same for inputs and parameters. -/
theorem Evaluates.mono {call : Calls F} {nodes nodes' : List (Node F)} {s s' : Store F}
    {v : Reading F} (h : Evaluates call nodes s v) (hsub : ∀ n ∈ nodes', n ∈ nodes)
    (hsame : SameLeafValues nodes nodes' s s') : Evaluates call nodes' s' v := by
  refine ⟨fun n hn => h.computes n (hsub n hn), fun k n hn hleaf => ?_⟩
  obtain ⟨j, hj⟩ := List.mem_iff_getElem?.mp (hsub n (List.mem_of_getElem? hn))
  rw [h.leaves j n hj hleaf, hsame j k n hj hn hleaf]

/-- **Two nets agree on the nodes that they share**, if they have the same inputs and parameters. -/
theorem Evaluates.agree {call : Calls F} {nodes nodes' : List (Node F)} {s s' : Store F}
    {v v' : Reading F} (h : Evaluates call nodes s v) (h' : Evaluates call nodes' s' v')
    (ho : Ordered nodes) (ho' : Ordered nodes')
    (hids : ∀ m ∈ nodes, ∀ m' ∈ nodes', m.id = m'.id → m = m')
    (hsame : SameLeafValues nodes nodes' s s') :
    ∀ n ∈ nodes, n ∈ nodes' → v'.value n.id = v.value n.id := by
  intro n hn hn'
  obtain ⟨k, hk⟩ := List.mem_iff_getElem?.mp hn
  induction k using Nat.strongRecOn generalizing n with
  | ind k ih =>
    obtain ⟨k', hk'⟩ := List.mem_iff_getElem?.mp hn'
    cases happlication : n.application? with
    | none => rw [h'.leaves k' n hk' happlication, h.leaves k n hk happlication,
        hsame k k' n hk hk' happlication]
    | some a =>
      have hrole := application?_eq_some.mp happlication
      have hargs : a.args.map v'.argument = a.args.map v.argument := by
        refine List.map_congr_left fun w hw => ?_
        cases w with
        | node m =>
          -- What is read comes before its reader in both lists.
          obtain ⟨j, hj, x, hx, hid⟩ := ho.earlier k n hk m (mem_deps_of_arg hrole hw)
          obtain ⟨j', -, x', hx', hid'⟩ := ho'.earlier k' n hk' m (mem_deps_of_arg hrole hw)
          have hxmem := List.mem_of_getElem? hx
          have hxmem' := List.mem_of_getElem? hx'
          obtain rfl := hids x hxmem x' hxmem' (hid.trans hid'.symm)
          have hvalue := ih j hj x hxmem hxmem' hx
          rwa [hid] at hvalue
        | _ => rfl
      have hanswer := h'.computes n hn' a hrole
      rw [hargs, h.computes n hn a hrole] at hanswer
      exact (Except.ok.inj hanswer).symm

end SlotGrad
