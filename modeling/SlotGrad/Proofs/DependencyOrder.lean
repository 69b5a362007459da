import Mathlib.Data.List.Induction
import Mathlib.Logic.Relation
import SlotGrad.Graph.Order
import SlotGrad.Proofs.Listing

/-!
# The walk lists acyclic graphs in dependency order

The depth-first walk finishes a node when nothing is left to visit below it.  A dependency that was
reached before is finished, unless the walk is still inside of it; then it depends on itself, which
it does not in an acyclic graph.  So every node is finished after all that it reads.

## Main definitions

* `Graph.Acyclic` — finite graphs in which no node depends on itself.
* `Settled` — finished nodes, latest first, each of which comes after what it reads.
* `Walking` — what holds at every step of a walk.

## Main results

* `Walking.walk` — the walk keeps what holds at every step.
* `ordered_orderFrom` — the nodes under some roots of an acyclic graph are in dependency order.
* `getLast?_orderFrom` — a single root comes last.
-/

namespace SlotGrad

open Relation (TransGen ReflTransGen)

variable {F : Type}

namespace Graph

/-- A graph whose nodes have their places as identities and read nodes of the graph, and in which no
node depends on itself. -/
structure Acyclic (g : Graph F) : Prop where
  /-- The identity of a node is its place. -/
  ids : ∀ (k : Nat) (n : Node F), g[k]? = some n → n.id = k
  /-- What a node reads is in the graph. -/
  inGraph : ∀ (k : Nat) (n : Node F), g[k]? = some n → ∀ h ∈ n.deps, h.id < g.size
  /-- No node depends on itself. -/
  irreflexive : ∀ id, ¬ TransGen (fun d id => d ∈ g.depsOf id) id id

theorem mem_depsOf {g : Graph F} {d id : Nat} :
    d ∈ g.depsOf id ↔ ∃ n, g[id]? = some n ∧ ∃ h ∈ n.deps, h.id = d := by
  unfold depsOf
  cases g[id]? with
  | none => simp
  | some n => simp

/-- A graph whose nodes were built after all that they read is acyclic. -/
theorem acyclic_of_built {g : Graph F} (hids : ∀ (k : Nat) (n : Node F), g[k]? = some n → n.id = k)
    (hbuilt : ∀ (k : Nat) (n : Node F), g[k]? = some n → ∀ h ∈ n.deps, h.id < k) : g.Acyclic := by
  refine ⟨hids, fun k n hn h hh => ?_, fun id hpath => ?_⟩
  · have hk := (Array.getElem?_eq_some_iff.mp hn).1
    exact Nat.lt_trans (hbuilt k n hn h hh) hk
  · have hlt : ∀ {i j : Nat}, TransGen (fun d id => d ∈ g.depsOf id) i j → i < j := by
      intro i j hij
      induction hij with
      | single hd =>
        obtain ⟨n, hn, h, hh, rfl⟩ := mem_depsOf.mp hd
        exact hbuilt _ n hn h hh
      | tail _ hd ih =>
        obtain ⟨n, hn, h, hh, rfl⟩ := mem_depsOf.mp hd
        exact Nat.lt_trans ih (hbuilt _ n hn h hh)
    exact Nat.lt_irrefl id (hlt hpath)

/-- The same, with a condition that can be decided. -/
theorem acyclic_of_forall_fin {g : Graph F}
    (h : ∀ k : Fin g.size, g[k].id = k ∧ ∀ d ∈ g[k].deps, d.id < k) : g.Acyclic := by
  have hnode : ∀ {k : Nat} {n : Node F}, g[k]? = some n → n.id = k ∧ ∀ d ∈ n.deps, d.id < k := by
    intro k n hn
    obtain ⟨hk, rfl⟩ := Array.getElem?_eq_some_iff.mp hn
    exact h ⟨k, hk⟩
  exact acyclic_of_built (fun _ _ hn => (hnode hn).1) fun _ _ hn => (hnode hn).2

/-! ### Steps of a walk -/

/-- Finished nodes, latest first: each comes after what it reads. -/
def Settled (g : Graph F) : List Nat → Prop
  | [] => True
  | id :: rest => (∀ d ∈ g.depsOf id, d ∈ rest) ∧ g.Settled rest

/-- A trail in which every node reads the one above it, and each of its dependencies is still to be
visited, finished, or the one above. -/
def Awaits (g : Graph F) (finished : List Nat) : Option Nat → Trail → Prop
  | _, [] => True
  | above, (id, ds) :: rest =>
    (∀ d ∈ g.depsOf id, d ∈ ds ∨ d ∈ finished ∨ above = some d) ∧ (∀ d ∈ ds, d ∈ g.depsOf id) ∧
      (∀ d, above = some d → d ∈ g.depsOf id) ∧ g.Awaits finished (some id) rest

/-- What holds at every step of a walk. -/
structure Walking (g : Graph F) (trail : Trail) (unreached finished : List Nat) : Prop where
  /-- Every identity is on the trail, finished or unreached, and only one of these. -/
  parts : (trail.map Prod.fst ++ finished ++ unreached).Perm (List.range g.size)
  /-- Finished nodes come after what they read. -/
  settled : g.Settled finished
  /-- The trail awaits what is not finished. -/
  awaits : g.Awaits finished none trail

variable {g : Graph F} {finished : List Nat}

theorem Awaits.mono {finished' : List Nat} (hsub : ∀ d ∈ finished, d ∈ finished')
    {above : Option Nat} {trail : Trail} (h : g.Awaits finished above trail) :
    g.Awaits finished' above trail := by
  induction trail generalizing above with
  | nil => trivial
  | cons p rest ih =>
    obtain ⟨hdeps, hds, habove, hrest⟩ := h
    exact ⟨fun d hd => (hdeps d hd).imp_right (Or.imp_left (hsub d)), hds, habove, ih hrest⟩

/-- The node above is finished. -/
theorem Awaits.finish {id : Nat} {trail : Trail} (h : g.Awaits finished (some id) trail) :
    g.Awaits (id :: finished) none trail := by
  cases trail with
  | nil => trivial
  | cons p rest =>
    obtain ⟨hdeps, hds, -, hrest⟩ := h
    refine ⟨fun d hd => ?_, hds, fun d hd => (by cases hd),
      hrest.mono fun d hd => List.mem_cons_of_mem _ hd⟩
    rcases hdeps d hd with hd | hd | hd
    · exact .inl hd
    · exact .inr (.inl (List.mem_cons_of_mem _ hd))
    · cases hd
      exact .inr (.inl (List.mem_cons_self ..))

/-- Every node of the trail depends on those above it. -/
theorem Awaits.depends {above : Nat} {trail : Trail} (h : g.Awaits finished (some above) trail) :
    ∀ id ∈ trail.map Prod.fst, TransGen (fun d id => d ∈ g.depsOf id) above id := by
  induction trail generalizing above with
  | nil =>
    intro id hid
    cases hid
  | cons p rest ih =>
    obtain ⟨-, -, habove, hrest⟩ := h
    intro id hid
    rcases List.mem_cons.mp hid with rfl | hid
    · exact .single (habove above rfl)
    · exact .head (habove above rfl) (ih hrest id hid)

/-- The walk keeps what holds at every step. -/
theorem Walking.walk (hg : g.Acyclic) {trail : Trail} {unreached finished : List Nat}
    (h : g.Walking trail unreached finished) :
    g.Walking [] (g.walk trail unreached finished).1 (g.walk trail unreached finished).2 := by
  induction trail, unreached, finished using Graph.walk.induct g with
  | case1 unreached finished =>
    rw [Graph.walk]
    exact h
  | case2 unreached finished id rest ih =>
    rw [Graph.walk]
    -- The node is finished: all that it depends on has been.
    obtain ⟨hdeps, -, -, hrest⟩ := h.awaits
    refine ih ⟨?_, ⟨fun d hd => ?_, h.settled⟩, hrest.finish⟩
    · refine List.Perm.trans ?_ h.parts
      rw [List.map_cons, List.cons_append, List.cons_append]
      exact (List.perm_middle.append_right _)
    · rcases hdeps d hd with hd | hd | hd
      · cases hd
      · exact hd
      · cases hd
  | case3 unreached finished id d ds rest hmem ih =>
    rw [Graph.walk, if_pos hmem]
    obtain ⟨hdeps, hds, -, hrest⟩ := h.awaits
    -- The dependency is entered, with all of its own still to come.
    refine ih ⟨?_, h.settled, ⟨fun e he => .inl he, fun e he => he, fun e he => (by cases he),
      ⟨fun e he => ?_, fun e he => hds e (List.mem_cons_of_mem _ he), fun e he => ?_, hrest⟩⟩⟩
    · refine List.Perm.trans ?_ h.parts
      have herase : (d :: unreached.erase d).Perm unreached := (List.perm_cons_erase hmem).symm
      refine List.Perm.trans ?_ (herase.append_left _)
      rw [List.map_cons]
      exact List.perm_middle.symm
    · rcases hdeps e he with he | he | he
      · rcases List.mem_cons.mp he with rfl | he
        · exact .inr (.inr rfl)
        · exact .inl he
      · exact .inr (.inl he)
      · cases he
    · cases he
      exact hds d (List.mem_cons_self ..)
  | case4 unreached finished id d ds rest hmem ih =>
    rw [Graph.walk, if_neg hmem]
    obtain ⟨hdeps, hds, -, hrest⟩ := h.awaits
    have hdep : d ∈ g.depsOf id := hds d (List.mem_cons_self ..)
    -- A dependency on the trail would depend on itself.
    have hfinished : d ∈ finished := by
      obtain ⟨n, hn, k, hk, hkd⟩ := mem_depsOf.mp hdep
      have hlt := hg.inGraph id n hn k hk
      rw [hkd] at hlt
      have hpart := h.parts.mem_iff.mpr (List.mem_range.mpr hlt)
      rcases List.mem_append.mp hpart with hpart | hun
      · rcases List.mem_append.mp hpart with htrail | hfin
        · refine absurd ?_ (hg.irreflexive d)
          rcases List.mem_cons.mp htrail with rfl | htrail
          · exact .single hdep
          · exact .head hdep (hrest.depends d htrail)
        · exact hfin
      · exact absurd hun hmem
    refine ih ⟨h.parts, h.settled, ⟨fun e he => ?_, fun e he => hds e (List.mem_cons_of_mem _ he),
      fun e he => (by cases he), hrest⟩⟩
    rcases hdeps e he with he | he | he
    · rcases List.mem_cons.mp he with rfl | he
      · exact .inr (.inl hfinished)
      · exact .inl he
    · exact .inr (.inl he)
    · cases he

theorem Walking.walkFrom (hg : g.Acyclic) {state : List Nat × List Nat}
    (h : g.Walking [] state.1 state.2) (root : Nat) :
    g.Walking [] (g.walkFrom state root).1 (g.walkFrom state root).2 := by
  unfold Graph.walkFrom
  dsimp only
  split
  · rename_i hmem
    refine Walking.walk hg ⟨?_, h.settled, fun d hd => .inl hd, fun d hd => hd,
      fun d hd => (by cases hd), trivial⟩
    refine List.Perm.trans ?_ h.parts
    have herase : (root :: state.1.erase root).Perm state.1 := (List.perm_cons_erase hmem).symm
    refine List.Perm.trans ?_ (herase.append_left _)
    exact List.perm_middle.symm
  · exact h

/-- Walks from several roots, one after another. -/
theorem Walking.foldl_walkFrom (hg : g.Acyclic) (roots : List Nat) (state : List Nat × List Nat)
    (h : g.Walking [] state.1 state.2) :
    g.Walking [] (roots.foldl (Graph.walkFrom g) state).1
      (roots.foldl (Graph.walkFrom g) state).2 := by
  induction roots generalizing state with
  | nil => exact h
  | cons root roots ih => exact ih _ (h.walkFrom hg root)

/-- Before any walk, all identities are unreached. -/
theorem walking_start (g : Graph F) : g.Walking [] (List.range g.size) [] :=
  ⟨List.Perm.refl _, trivial, trivial⟩

/-- The identities under some roots come after what they read. -/
theorem walking_orderIds (hg : g.Acyclic) (roots : List Nat) :
    ∃ unreached, g.Walking [] unreached (g.orderIds roots).reverse := by
  unfold orderIds
  rw [List.reverse_reverse]
  exact ⟨_, Walking.foldl_walkFrom hg roots (List.range g.size, []) (walking_start g)⟩

/-- What a settled node reads is finished before it. -/
theorem Settled.earlier {ids : List Nat} (h : g.Settled ids.reverse) {k id : Nat}
    (hk : ids[k]? = some id) {d : Nat} (hd : d ∈ g.depsOf id) : ∃ j, j < k ∧ ids[j]? = some d := by
  induction ids using List.reverseRecOn generalizing k with
  | nil => cases hk
  | append_singleton ids last ih =>
    rw [List.reverse_append] at h
    obtain ⟨hlast, hrest⟩ := h
    rcases Nat.lt_or_ge k ids.length with hlt | hge
    · rw [List.getElem?_append_left hlt] at hk
      obtain ⟨j, hj, hjd⟩ := ih hrest hk
      exact ⟨j, hj, by rwa [List.getElem?_append_left (by omega)]⟩
    · rw [List.getElem?_append_right hge] at hk
      obtain ⟨hzero, rfl⟩ : k - ids.length = 0 ∧ last = id := by
        cases hz : k - ids.length with
        | zero =>
          rw [hz] at hk
          exact ⟨rfl, Option.some.inj hk⟩
        | succ m =>
          rw [hz] at hk
          cases hk
      obtain ⟨j, hj⟩ := List.mem_iff_getElem?.mp (List.mem_reverse.mp (hlast d hd))
      have hjlt := (List.getElem?_eq_some_iff.mp hj).1
      exact ⟨j, by omega, by rwa [List.getElem?_append_left hjlt]⟩

theorem orderIds_lt (hg : g.Acyclic) {roots : List Nat} {id : Nat} (h : id ∈ g.orderIds roots) :
    id < g.size := by
  obtain ⟨unreached, hwalking⟩ := walking_orderIds hg roots
  have hmem : id ∈ List.range g.size := hwalking.parts.mem_iff.mp
    (List.mem_append_left _ (List.mem_append_right _ (List.mem_reverse.mpr h)))
  exact List.mem_range.mp hmem

theorem nodup_orderIds (hg : g.Acyclic) (roots : List Nat) : (g.orderIds roots).Nodup := by
  obtain ⟨unreached, hwalking⟩ := walking_orderIds hg roots
  have hparts := hwalking.parts.nodup_iff.mpr List.nodup_range
  exact List.nodup_reverse.mp (List.Nodup.of_append_right (List.Nodup.of_append_left hparts))

/-- The nodes at some identities of the graph have these identities. -/
theorem map_id_nodes {g : Graph F} (hids : ∀ (k : Nat) (n : Node F), g[k]? = some n → n.id = k)
    {ids : List Nat} (hlt : ∀ id ∈ ids, id < g.size) :
    (ids.filterMap fun id => g[id]?).map Node.id = ids := by
  induction ids with
  | nil => rfl
  | cons id ids ih =>
    rw [List.forall_mem_cons] at hlt
    have hnode := Array.getElem?_eq_getElem hlt.1
    rw [List.filterMap_cons, hnode]
    dsimp only
    rw [List.map_cons, hids id _ hnode, ih hlt.2]

/-- The listed nodes have the listed identities. -/
theorem map_id_orderFrom (hg : g.Acyclic) (roots : List Handle) :
    (g.orderFrom roots).map Node.id = g.orderIds (roots.map Handle.id) :=
  map_id_nodes hg.ids fun _ hid => orderIds_lt hg hid

/-- A listed node is a node of the graph. -/
theorem getElem?_of_mem_orderFrom (hg : g.Acyclic) {roots : List Handle} {n : Node F}
    (h : n ∈ g.orderFrom roots) : g[n.id]? = some n := by
  obtain ⟨id, -, hid⟩ := List.mem_filterMap.mp h
  rw [hg.ids id n hid]
  exact hid

/-- **The nodes under some roots of an acyclic graph are in dependency order.** -/
theorem ordered_orderFrom (hg : g.Acyclic) (roots : List Handle) :
    Ordered (g.orderFrom roots) := by
  have hids := map_id_orderFrom hg roots
  refine ⟨hids ▸ nodup_orderIds hg _, fun k n hn h hh => ?_⟩
  obtain ⟨unreached, hwalking⟩ := walking_orderIds hg (roots.map Handle.id)
  have hk : (g.orderIds (roots.map Handle.id))[k]? = some n.id := by
    rw [← hids, List.getElem?_map, hn]
    rfl
  have hdep := mem_depsOf.mpr
    ⟨n, getElem?_of_mem_orderFrom hg (List.mem_of_getElem? hn), h, hh, rfl⟩
  obtain ⟨j, hj, hjd⟩ := hwalking.settled.earlier hk hdep
  rw [← hids, List.getElem?_map] at hjd
  obtain ⟨m, hm, hid⟩ := Option.map_eq_some_iff.mp hjd
  exact ⟨j, hj, m, hm, hid⟩

/-! ### The root -/

/-- The walk finishes the node that it started from last. -/
theorem head?_walk {trail : Trail} {unreached finished : List Nat} {root : Nat}
    (hroot : (trail.map Prod.fst).getLast? = some root) :
    (g.walk trail unreached finished).2.head? = some root := by
  induction trail, unreached, finished using Graph.walk.induct g with
  | case1 unreached finished => cases hroot
  | case2 unreached finished id rest ih =>
    rw [Graph.walk]
    cases rest with
    | nil =>
      cases hroot
      rw [Graph.walk]
      rfl
    | cons q rest =>
      rw [List.map_cons, List.map_cons, List.getLast?_cons_cons] at hroot
      exact ih hroot
  | case3 unreached finished id d ds rest hmem ih =>
    rw [Graph.walk, if_pos hmem]
    refine ih ?_
    rw [List.map_cons, List.map_cons, List.getLast?_cons_cons]
    exact hroot
  | case4 unreached finished id d ds rest hmem ih =>
    rw [Graph.walk, if_neg hmem]
    exact ih hroot

/-- A single root comes last. -/
theorem getLast?_orderFrom (hg : g.Acyclic) {h : Handle} (hh : h.id < g.size) :
    ((g.orderFrom [h]).getLast?).map Node.id = some h.id := by
  rw [← List.getLast?_map, map_id_orderFrom hg]
  unfold orderIds
  rw [List.getLast?_reverse, List.map_cons, List.map_nil, List.foldl_cons, List.foldl_nil,
    Graph.walkFrom, if_pos (List.mem_range.mpr hh)]
  exact head?_walk rfl

end Graph

end SlotGrad
