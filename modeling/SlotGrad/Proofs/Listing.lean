import Mathlib.Data.List.Nodup
import SlotGrad.Graph.Naming

/-!
# Listings in dependency order

A list of nodes is compiled in the order it has.  What the streams need of it is that a node comes
after all nodes it reads and that no node comes twice; then the place that a reference resolves to
is the place of the one node it means, and it is a smaller place than the reader's.

## Main definitions

* `Ordered` — a list of distinct nodes in dependency order.
* `layersOf` — the layers of a list with their places.

## Main results

* `position?_eq_some_iff` — the place of a reference among distinct nodes.
* `violations_eq_nil_iff` — no complaint is made exactly about lists in dependency order.
* `Ordered.position_lt` — what a layer reads lies before it.
-/

namespace SlotGrad

variable {F : Type}

/-! ### Places -/

/-- The place found for an identity is the place of a node with that identity. -/
theorem position?_sound {nodes : List (Node F)} {id k : Nat} (h : position? nodes id = some k) :
    ∃ n, nodes[k]? = some n ∧ n.id = id := by
  unfold position? at h
  obtain ⟨p, hp, rfl⟩ := Option.map_eq_some_iff.mp h
  have hmem := List.mem_of_getLast? hp
  rw [List.mem_filter, List.mem_zipIdx_iff_getElem?] at hmem
  exact ⟨p.1, hmem.1, by simpa using hmem.2⟩

theorem position?_lt {nodes : List (Node F)} {id k : Nat} (h : position? nodes id = some k) :
    k < nodes.length := by
  obtain ⟨n, hn, -⟩ := position?_sound h
  exact (List.getElem?_eq_some_iff.mp hn).1

/-- An identity that occurs has a place. -/
theorem exists_position? {nodes : List (Node F)} {n : Node F} (h : n ∈ nodes) :
    ∃ k, position? nodes n.id = some k := by
  obtain ⟨k, hk⟩ := List.mem_iff_getElem?.mp h
  have hmem : (n, k) ∈ (nodes.zipIdx).filter fun p => p.1.id == n.id := by
    rw [List.mem_filter, List.mem_zipIdx_iff_getElem?]
    exact ⟨hk, beq_self_eq_true _⟩
  have hne : ((nodes.zipIdx).filter fun p => p.1.id == n.id) ≠ [] := List.ne_nil_of_mem hmem
  refine ⟨(((nodes.zipIdx).filter fun p => p.1.id == n.id).getLast hne).2, ?_⟩
  unfold position?
  rw [List.getLast?_eq_some_getLast hne]
  rfl

/-- Nodes at two places with one identity are at one place, if the identities differ. -/
theorem place_unique {nodes : List (Node F)} (hd : (nodes.map Node.id).Nodup) {j k : Nat}
    {m n : Node F} (hj : nodes[j]? = some m) (hk : nodes[k]? = some n) (h : m.id = n.id) :
    j = k := by
  have hjlt := (List.getElem?_eq_some_iff.mp hj).1
  have hj' : (nodes.map Node.id)[j]? = some m.id := by rw [List.getElem?_map, hj]; rfl
  have hk' : (nodes.map Node.id)[k]? = some m.id := by rw [List.getElem?_map, hk, h]; rfl
  refine (List.getElem?_inj ?_ hd).mp (hj'.trans hk'.symm)
  rw [List.length_map]
  exact hjlt

/-- The place of a reference among distinct nodes is that of the node it means. -/
theorem position?_eq_some_iff {nodes : List (Node F)} (hd : (nodes.map Node.id).Nodup)
    {id k : Nat} : position? nodes id = some k ↔ ∃ n, nodes[k]? = some n ∧ n.id = id := by
  constructor
  · exact position?_sound
  · rintro ⟨n, hn, rfl⟩
    obtain ⟨j, hj⟩ := exists_position? (List.mem_of_getElem? hn)
    obtain ⟨m, hm, hid⟩ := position?_sound hj
    rw [hj, place_unique hd hm hn hid]

/-! ### Dependency order -/

/-- A list of distinct nodes, each of which comes after the nodes it reads. -/
structure Ordered (nodes : List (Node F)) : Prop where
  /-- No identity occurs twice. -/
  distinct : (nodes.map Node.id).Nodup
  /-- What a node reads comes before it. -/
  earlier : ∀ (k : Nat) (n : Node F), nodes[k]? = some n → ∀ h ∈ n.deps,
    ∃ j, j < k ∧ ∃ m, nodes[j]? = some m ∧ m.id = h.id

/-- No complaint is made exactly about lists in dependency order. -/
theorem violations_eq_nil_iff {nodes : List (Node F)} :
    violations nodes = [] ↔ ∀ (k : Nat) (n : Node F), nodes[k]? = some n → ∀ h ∈ n.deps,
      ∃ j, j < k ∧ ∃ m, nodes[j]? = some m ∧ m.id = h.id := by
  have hseen : ∀ k (h : Handle), h.id ∈ (nodes.take k).map Node.id ↔
      ∃ j, j < k ∧ ∃ m, nodes[j]? = some m ∧ m.id = h.id := by
    intro k h
    rw [List.mem_map]
    constructor
    · rintro ⟨m, hm, hid⟩
      obtain ⟨j, hj⟩ := List.mem_iff_getElem?.mp hm
      rw [List.getElem?_take] at hj
      split at hj
      · exact ⟨j, ‹_›, m, hj, hid⟩
      · cases hj
    · rintro ⟨j, hjk, m, hj, hid⟩
      refine ⟨m, List.mem_of_getElem? (i := j) ?_, hid⟩
      rw [List.getElem?_take, if_pos hjk, hj]
  unfold violations
  rw [List.flatMap_eq_nil_iff]
  constructor
  · intro hnone k n hn h hh
    have hat := hnone (n, k) (List.mem_zipIdx_iff_getElem?.mpr hn)
    simp only [violationsAt, List.map_eq_nil_iff, List.filter_eq_nil_iff] at hat
    rw [← hseen]
    simpa using hat h hh
  · rintro hall ⟨n, k⟩ hmem
    have hn : nodes[k]? = some n := List.mem_zipIdx_iff_getElem?.mp hmem
    simp only [violationsAt, List.map_eq_nil_iff, List.filter_eq_nil_iff]
    intro h hh
    have hin := (hseen k h).mpr (hall k n hn h hh)
    simpa using hin

/-! ### Layers -/

/-- The layers of a list of nodes with their places. -/
def layersOf (nodes : List (Node F)) : List (Nat × Application F) :=
  (nodes.zipIdx).filterMap fun p => p.1.application?.map fun a => (p.2, a)

theorem Node.kind_eq_input_iff {n : Node F} : n.kind = .input ↔ n.role = .input := by
  unfold kind
  cases n.role <;> simp

theorem Node.kind_eq_param_iff {n : Node F} : n.kind = .param ↔ ∃ p, n.role = .param p := by
  unfold kind
  cases n.role <;> simp

theorem Node.kind_eq_layer_iff {n : Node F} : n.kind = .layer ↔ ∃ a, n.role = .layer a := by
  unfold kind
  cases n.role <;> simp

theorem application?_eq_some {n : Node F} {a : Application F} :
    n.application? = some a ↔ n.role = .layer a := by
  unfold Node.application?
  cases n.role with
  | input => simp
  | param p => simp
  | layer b => simp

theorem mem_layersOf {nodes : List (Node F)} {k : Nat} {a : Application F} :
    (k, a) ∈ layersOf nodes ↔ ∃ n, nodes[k]? = some n ∧ n.role = .layer a := by
  unfold layersOf
  rw [List.mem_filterMap]
  constructor
  · rintro ⟨⟨n, j⟩, hmem, h⟩
    obtain ⟨b, hb, heq⟩ := Option.map_eq_some_iff.mp h
    cases heq
    exact ⟨n, List.mem_zipIdx_iff_getElem?.mp hmem, application?_eq_some.mp hb⟩
  · rintro ⟨n, hn, hrole⟩
    refine ⟨(n, k), List.mem_zipIdx_iff_getElem?.mpr hn, ?_⟩
    rw [application?_eq_some.mpr hrole]
    rfl

theorem layersOf_place_lt {nodes : List (Node F)} {k : Nat} {a : Application F}
    (h : (k, a) ∈ layersOf nodes) : k < nodes.length := by
  obtain ⟨n, hn, -⟩ := mem_layersOf.mp h
  exact (List.getElem?_eq_some_iff.mp hn).1

/-- The places of layers increase. -/
theorem layersOf_increasing (nodes : List (Node F)) :
    (layersOf nodes).Pairwise fun p q => p.1 < q.1 := by
  have hidx : (nodes.zipIdx).Pairwise fun p q => p.2 < q.2 := by
    rw [← List.pairwise_map (f := Prod.snd) (R := (· < ·)), List.zipIdx_map_snd]
    exact List.pairwise_lt_range'
  unfold layersOf
  refine List.Pairwise.filterMap _ ?_ hidx
  intro p q hpq b hb c hc
  obtain ⟨x, -, rfl⟩ := Option.map_eq_some_iff.mp hb
  obtain ⟨y, -, rfl⟩ := Option.map_eq_some_iff.mp hc
  exact hpq

/-- The nodes that a layer reads in normal mode are among those it depends on. -/
theorem mem_deps_of_arg {n : Node F} {a : Application F} (hrole : n.role = .layer a) {h : Handle}
    (hh : Value.node h ∈ a.args) : h ∈ n.deps := by
  unfold Node.deps
  rw [hrole]
  refine List.mem_append_left _ ?_
  unfold Node.handles
  rw [List.mem_filterMap]
  exact ⟨_, hh, rfl⟩

/-- What a layer reads in normal mode has a place before the layer's. -/
theorem Ordered.position_lt {nodes : List (Node F)} (ho : Ordered nodes) {k : Nat}
    {a : Application F} (hL : (k, a) ∈ layersOf nodes) {h : Handle}
    (hh : Value.node h ∈ a.args) : ∃ j, j < k ∧ position? nodes h.id = some j := by
  obtain ⟨n, hn, hrole⟩ := mem_layersOf.mp hL
  obtain ⟨j, hjk, m, hm, hid⟩ := ho.earlier k n hn h (mem_deps_of_arg hrole hh)
  exact ⟨j, hjk, (position?_eq_some_iff ho.distinct).mpr ⟨m, hm, hid⟩⟩

end SlotGrad
