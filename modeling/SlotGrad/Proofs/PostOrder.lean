import Mathlib.Data.Rat.Init
import SlotGrad.Kernel.Builtin
import SlotGrad.Proofs.DependencyOrder

/-!
# The walk is the recursive post-order traversal

The walk from some roots keeps a stack of its own, so that deep graphs do not exhaust the
machine's.  What it lists is what the recursion lists that visits a node's dependencies from
left to right before it lists the node, and that shares one set of visited nodes among all its
calls.  Both mark a node when they enter it and not when they are through with it, so cycles do
not keep them going, and neither needs an acyclic graph: only the place of a node behind all
that it reads does.

## Main definitions

* `Graph.WellFormed` — finite graphs, which may have cycles.
* `Graph.Step` — one round of the loop.
* `Graph.traverse`, `Graph.postOrder` — the recursive traversal and the nodes that it lists.
* `Graph.Under` — the nodes that a node is or depends on.
* `ReadsEarlier` — lists in which whatever a node reads comes before it.

## Main results

* `wellFounded_step`, `walk_runs` — the loop ends, and `Graph.walk` is what it ends with.
* `walk_eq_traverse` — what is still to be visited at the top of the stack is traversed before the
  stack shrinks.
* `mem_traverse_listed` — the traversal lists what the given nodes depend on, and no visited node.
* `orderFrom_in_post_order` — **the loop lists what the recursion lists**.
-/

namespace SlotGrad

open Relation (ReflTransGen)

variable {F : Type}

namespace Graph

/-- A graph whose nodes have their places as identities and read nodes of the graph. -/
structure WellFormed (g : Graph F) : Prop where
  /-- The identity of a node is its place. -/
  ids : ∀ (k : Nat) (n : Node F), g[k]? = some n → n.id = k
  /-- What a node reads is in the graph. -/
  inGraph : ∀ (k : Nat) (n : Node F), g[k]? = some n → ∀ h ∈ n.deps, h.id < g.size

theorem Acyclic.wellFormed {g : Graph F} (hg : g.Acyclic) : g.WellFormed := ⟨hg.ids, hg.inGraph⟩

/-- The same, with a condition that can be decided. -/
theorem wellFormed_of_forall_lt {g : Graph F}
    (h : ∀ (k : Nat) (hk : k < g.size), g[k].id = k ∧ ∀ d ∈ g[k].deps, d.id < g.size) :
    g.WellFormed := by
  have hnode : ∀ {k : Nat} {n : Node F}, g[k]? = some n → n.id = k ∧
      ∀ d ∈ n.deps, d.id < g.size := by
    intro k n hn
    obtain ⟨hk, rfl⟩ := Array.getElem?_eq_some_iff.mp hn
    exact h k hk
  exact ⟨fun _ _ hn => (hnode hn).1, fun _ _ hn => (hnode hn).2⟩

theorem WellFormed.depsOf_lt {g : Graph F} (hg : g.WellFormed) {id d : Nat} (hd : d ∈ g.depsOf id) :
    d < g.size := by
  obtain ⟨n, hn, h, hh, rfl⟩ := mem_depsOf.mp hd
  exact hg.inGraph id n hn h hh

/-- An identity outside of the graph reads nothing. -/
theorem depsOf_of_size_le {g : Graph F} {id : Nat} (h : g.size ≤ id) : g.depsOf id = [] := by
  unfold depsOf
  rw [Array.getElem?_eq_none h]

/-- Whether a node is read, directly or through others, by another one, or is that node itself. -/
def Under (g : Graph F) (id root : Nat) : Prop := ReflTransGen (fun d id => d ∈ g.depsOf id) id root

/-! ### Rounds of the loop -/

/-- What the loop knows between two rounds: the trail, the unreached identities and the finished
ones, latest first. -/
abbrev Progress := Trail × List Nat × List Nat

/-- One round of the loop. -/
inductive Step (g : Graph F) : Progress → Progress → Prop where
  /-- Nothing is left to visit below the node at the top, so it is finished. -/
  | finish (id : Nat) (rest : Trail) (unreached finished : List Nat) :
    Step g ((id, []) :: rest, unreached, finished) (rest, unreached, id :: finished)
  /-- A dependency that was not reached before is entered. -/
  | enter (id d : Nat) (ds : List Nat) (rest : Trail) (unreached finished : List Nat)
    (h : d ∈ unreached) :
    Step g ((id, d :: ds) :: rest, unreached, finished)
      ((d, g.depsOf d) :: (id, ds) :: rest, unreached.erase d, finished)
  /-- A dependency that was reached before is passed. -/
  | pass (id d : Nat) (ds : List Nat) (rest : Trail) (unreached finished : List Nat)
    (h : d ∉ unreached) :
    Step g ((id, d :: ds) :: rest, unreached, finished) ((id, ds) :: rest, unreached, finished)

/-- Every round reaches a new identity or shortens what is left on the trail. -/
theorem Step.decreases {g : Graph F} {s t : Progress} (h : g.Step s t) :
    Prod.Lex (· < ·) (· < ·) (t.2.1.length, t.1.weight) (s.2.1.length, s.1.weight) := by
  cases h with
  | finish id rest unreached finished =>
    right
    simp [Trail.weight]
  | enter id d ds rest unreached finished hmem =>
    left
    rw [List.length_erase_of_mem hmem]
    exact Nat.sub_lt (List.length_pos_of_mem hmem) Nat.one_pos
  | pass id d ds rest unreached finished hmem =>
    right
    simp [Trail.weight]

/-- No run of the loop goes on forever. -/
theorem wellFounded_step (g : Graph F) : WellFounded fun t s => g.Step s t :=
  Subrelation.wf (fun h => h.decreases)
    (InvImage.wf (fun s : Progress => (s.2.1.length, s.1.weight))
      (Prod.lex Nat.lt_wfRel Nat.lt_wfRel).wf)

/-- The loop goes on until the trail is empty, and ends with what the walk ends with. -/
theorem walk_runs (g : Graph F) (trail : Trail) (unreached finished : List Nat) :
    ReflTransGen g.Step (trail, unreached, finished) ([], g.walk trail unreached finished) := by
  induction trail, unreached, finished using Graph.walk.induct g with
  | case1 unreached finished =>
    rw [Graph.walk]
  | case2 unreached finished id rest ih =>
    rw [Graph.walk]
    exact ih.head (.finish id rest unreached finished)
  | case3 unreached finished id d ds rest hmem ih =>
    rw [Graph.walk, if_pos hmem]
    exact ih.head (.enter id d ds rest unreached finished hmem)
  | case4 unreached finished id d ds rest hmem ih =>
    rw [Graph.walk, if_neg hmem]
    exact ih.head (.pass id d ds rest unreached finished hmem)

/-! ### The recursive traversal -/

/-- The identities of the graph that were not visited. -/
def unvisited (g : Graph F) (visited : List Nat) : List Nat :=
  (List.range g.size).filter fun id => id ∉ visited

@[simp] theorem mem_unvisited {g : Graph F} {visited : List Nat} {id : Nat} :
    id ∈ g.unvisited visited ↔ id < g.size ∧ id ∉ visited := by
  simp [unvisited]

/-- Visiting an identity takes it from those that were not visited. -/
theorem erase_unvisited (g : Graph F) (visited : List Nat) (id : Nat) :
    (g.unvisited visited).erase id = g.unvisited (id :: visited) := by
  unfold unvisited
  rw [(List.nodup_range.filter _).erase_eq_filter, List.filter_filter]
  refine List.filter_congr fun d _ => ?_
  by_cases h : d = id <;> simp [h]

theorem length_unvisited_le (g : Graph F) {visited seen : List Nat} (h : ∀ d ∈ visited, d ∈ seen) :
    (g.unvisited seen).length ≤ (g.unvisited visited).length := by
  refine ((List.monotone_filter_right _ fun d hd => ?_).length_le)
  simp only [decide_eq_true_eq] at hd ⊢
  exact fun hmem => hd (h d hmem)

theorem length_unvisited_lt {g : Graph F} {visited : List Nat} {id : Nat}
    (h : id ∈ g.unvisited visited) :
    (g.unvisited (id :: visited)).length < (g.unvisited visited).length := by
  rw [← erase_unvisited, List.length_erase_of_mem h]
  exact Nat.sub_lt (List.length_pos_of_mem h) Nat.one_pos

/-- What a traversal answers that begins with some visited nodes. -/
structure Tour (before : List Nat) where
  /-- The nodes that are visited in the end. -/
  visited : List Nat
  /-- The nodes that were listed, in order. -/
  listed : List Nat
  /-- Visited nodes stay visited. -/
  keeps : ∀ d ∈ before, d ∈ visited

/-- Visit nodes one after another.  A node that was visited before is passed; any other one is
marked as visited, then what it reads is visited from left to right, then the node is listed. -/
def traverse (g : Graph F) (visited : List Nat) (todo : List Nat) : Tour visited :=
  match todo with
  | [] => ⟨visited, [], fun _ hd => hd⟩
  | id :: ids =>
    if id ∈ visited then g.traverse visited ids
    else
      let below := g.traverse (id :: visited) (g.depsOf id)
      let after := g.traverse below.visited ids
      ⟨after.visited, below.listed ++ id :: after.listed,
        fun d hd => after.keeps d (below.keeps d (List.mem_cons_of_mem _ hd))⟩
termination_by ((g.unvisited visited).length, todo.length)
decreasing_by
  · right
    simp
  · by_cases hlt : id < g.size
    · left
      exact length_unvisited_lt (mem_unvisited.mpr ⟨hlt, ‹_›⟩)
    · -- Outside of the graph nothing is read.
      have hnil := depsOf_of_size_le (g := g) (Nat.le_of_not_lt hlt)
      rw [Prod.lex_def, hnil]
      exact (Nat.lt_or_eq_of_le
        (g.length_unvisited_le fun d hd => List.mem_cons_of_mem _ hd)).imp_right
        fun heq => ⟨heq, by simp⟩
  · have hle := g.length_unvisited_le fun d hd => below.keeps d (List.mem_cons_of_mem id hd)
    rw [Prod.lex_def]
    exact (Nat.lt_or_eq_of_le hle).imp_right fun heq => ⟨heq, by simp⟩

/-- The nodes that the traversal of some roots lists. -/
def postOrder (g : Graph F) (roots : List Handle) : List (Node F) :=
  (g.traverse [] (roots.map Handle.id)).listed.filterMap fun id => g[id]?

section

variable {g : Graph F} {visited : List Nat}

theorem traverse_nil : g.traverse visited [] = ⟨visited, [], fun _ hd => hd⟩ := by
  rw [traverse]

theorem traverse_of_mem {id : Nat} (h : id ∈ visited) (ids : List Nat) :
    g.traverse visited (id :: ids) = g.traverse visited ids := by
  rw [traverse, if_pos h]

theorem visited_traverse {id : Nat} (h : id ∉ visited) (ids : List Nat) :
    (g.traverse visited (id :: ids)).visited
      = (g.traverse (g.traverse (id :: visited) (g.depsOf id)).visited ids).visited := by
  rw [traverse, if_neg h]

/-- A node that was not visited is listed behind what is listed below it. -/
theorem listed_traverse {id : Nat} (h : id ∉ visited) (ids : List Nat) :
    (g.traverse visited (id :: ids)).listed = (g.traverse (id :: visited) (g.depsOf id)).listed
      ++ id :: (g.traverse (g.traverse (id :: visited) (g.depsOf id)).visited ids).listed := by
  rw [traverse, if_neg h]

/-- What holds of a traversal if it holds of the ones that it is made of. -/
@[elab_as_elim]
theorem traverse_induction {motive : List Nat → List Nat → Prop}
    (nil : ∀ visited, motive visited [])
    (pass : ∀ visited id ids, id ∈ visited → motive visited ids → motive visited (id :: ids))
    (enter : ∀ visited id ids, id ∉ visited → motive (id :: visited) (g.depsOf id) →
      motive (g.traverse (id :: visited) (g.depsOf id)).visited ids → motive visited (id :: ids))
    (visited todo : List Nat) : motive visited todo :=
  traverse.induct g motive nil pass (fun visited id ids h hbelow hafter _ =>
    enter visited id ids h hbelow hafter) visited todo

/-- What is visited in the end was visited before or is listed. -/
theorem mem_traverse_visited {todo : List Nat} {d : Nat} :
    d ∈ (g.traverse visited todo).visited ↔ d ∈ visited ∨ d ∈ (g.traverse visited todo).listed := by
  induction visited, todo using g.traverse_induction with
  | nil visited => simp [traverse_nil]
  | pass visited id ids h ih => rw [traverse_of_mem h, ih]
  | enter visited id ids h ihBelow ihAfter =>
    rw [visited_traverse h, listed_traverse h, ihAfter, ihBelow, List.mem_append, List.mem_cons,
      List.mem_cons]
    tauto

/-- All nodes that are to be visited are. -/
theorem mem_traverse_of_mem {todo : List Nat} {d : Nat} (hd : d ∈ todo) :
    d ∈ (g.traverse visited todo).visited := by
  induction visited, todo using g.traverse_induction with
  | nil visited => cases hd
  | pass visited id ids h ih =>
    rcases List.mem_cons.mp hd with rfl | hd
    · exact Tour.keeps _ d h
    · rw [traverse_of_mem h]
      exact ih hd
  | enter visited id ids h ihBelow ihAfter =>
    rw [visited_traverse h]
    rcases List.mem_cons.mp hd with rfl | hd
    · exact Tour.keeps _ d (Tour.keeps _ d (List.mem_cons_self ..))
    · exact ihAfter hd

/-- No visited node is listed. -/
theorem not_mem_of_mem_listed {todo : List Nat} {d : Nat}
    (hd : d ∈ (g.traverse visited todo).listed) :
    d ∉ visited := by
  induction visited, todo using g.traverse_induction with
  | nil visited =>
    rw [traverse_nil] at hd
    cases hd
  | pass visited id ids h ih =>
    rw [traverse_of_mem h] at hd
    exact ih hd
  | enter visited id ids h ihBelow ihAfter =>
    rw [listed_traverse h, List.mem_append, List.mem_cons] at hd
    rcases hd with hd | rfl | hd
    · exact fun hmem => ihBelow hd (List.mem_cons_of_mem _ hmem)
    · exact h
    · exact fun hmem => ihAfter hd (Tour.keeps _ d (List.mem_cons_of_mem _ hmem))

/-- No node is listed twice. -/
theorem nodup_listed (todo : List Nat) : (g.traverse visited todo).listed.Nodup := by
  induction visited, todo using g.traverse_induction with
  | nil visited =>
    rw [traverse_nil]
    exact List.nodup_nil
  | pass visited id ids h ih =>
    rw [traverse_of_mem h]
    exact ih
  | enter visited id ids h ihBelow ihAfter =>
    rw [listed_traverse h, List.nodup_append, List.nodup_cons]
    refine ⟨ihBelow, ⟨fun hid => ?_, ihAfter⟩, fun d hd e he => ?_⟩
    · exact not_mem_of_mem_listed hid (Tour.keeps _ id (List.mem_cons_self ..))
    · rintro rfl
      rcases List.mem_cons.mp he with rfl | he
      · exact not_mem_of_mem_listed hd (List.mem_cons_self ..)
      · exact not_mem_of_mem_listed he (mem_traverse_visited.mpr (.inr hd))

/-- What a listed node reads is visited. -/
theorem mem_traverse_of_mem_deps {todo : List Nat} {id d : Nat}
    (hid : id ∈ (g.traverse visited todo).listed) (hd : d ∈ g.depsOf id) :
    d ∈ (g.traverse visited todo).visited := by
  induction visited, todo using g.traverse_induction with
  | nil visited =>
    rw [traverse_nil] at hid
    cases hid
  | pass visited first ids h ih =>
    rw [traverse_of_mem h] at hid ⊢
    exact ih hid
  | enter visited first ids h ihBelow ihAfter =>
    rw [listed_traverse h, List.mem_append, List.mem_cons] at hid
    rw [visited_traverse h]
    rcases hid with hid | rfl | hid
    · exact Tour.keeps _ d (ihBelow hid)
    · exact Tour.keeps _ d (mem_traverse_of_mem hd)
    · exact ihAfter hid

/-- Whatever is listed, one of the nodes to be visited depends on. -/
theorem under_of_mem_listed {todo : List Nat} {d : Nat}
    (hd : d ∈ (g.traverse visited todo).listed) :
    ∃ id ∈ todo, g.Under d id := by
  induction visited, todo using g.traverse_induction with
  | nil visited =>
    rw [traverse_nil] at hd
    cases hd
  | pass visited first ids h ih =>
    rw [traverse_of_mem h] at hd
    obtain ⟨id, hid, hunder⟩ := ih hd
    exact ⟨id, List.mem_cons_of_mem _ hid, hunder⟩
  | enter visited first ids h ihBelow ihAfter =>
    rw [listed_traverse h, List.mem_append, List.mem_cons] at hd
    rcases hd with hd | rfl | hd
    · obtain ⟨id, hid, hunder⟩ := ihBelow hd
      exact ⟨first, List.mem_cons_self .., hunder.tail hid⟩
    · exact ⟨d, List.mem_cons_self .., .refl⟩
    · obtain ⟨id, hid, hunder⟩ := ihAfter hd
      exact ⟨id, List.mem_cons_of_mem _ hid, hunder⟩

/-- **A traversal from no visited node lists what the given nodes depend on.** -/
theorem mem_traverse_listed {todo : List Nat} {d : Nat} :
    d ∈ (g.traverse [] todo).listed ↔ ∃ id ∈ todo, g.Under d id := by
  refine ⟨under_of_mem_listed, ?_⟩
  have hlisted : ∀ {id}, id ∈ (g.traverse [] todo).visited → id ∈ (g.traverse [] todo).listed :=
    fun hid => (mem_traverse_visited.mp hid).resolve_left List.not_mem_nil
  rintro ⟨id, hid, hunder⟩
  -- From the given node downwards: what a listed node reads is listed.
  induction hunder using ReflTransGen.head_induction_on with
  | refl => exact hlisted (mem_traverse_of_mem hid)
  | head hd _ ih => exact hlisted (mem_traverse_of_mem_deps ih hd)

/-! ### The loop and the recursion -/

/-- **What is still to be visited at the top of the stack is traversed before the stack
shrinks.** -/
theorem walk_eq_traverse (hg : g.WellFormed) {todo : List Nat} (htodo : ∀ d ∈ todo, d < g.size)
    (id : Nat) (rest : Trail) (finished : List Nat) :
    g.walk ((id, todo) :: rest) (g.unvisited visited) finished
      = g.walk rest (g.unvisited (g.traverse visited todo).visited)
          (id :: ((g.traverse visited todo).listed.reverse ++ finished)) := by
  -- The rest of the trail is arbitrary: the loop does not look below the top of the stack.
  induction visited, todo using g.traverse_induction generalizing id rest finished with
  | nil visited =>
    rw [Graph.walk, traverse_nil]
    rfl
  | pass visited d ds h ih =>
    rw [Graph.walk, if_neg fun hmem => (mem_unvisited.mp hmem).2 h, traverse_of_mem h]
    exact ih (fun e he => htodo e (List.mem_cons_of_mem _ he)) id rest finished
  | enter visited d ds h ihBelow ihAfter =>
    rw [List.forall_mem_cons] at htodo
    -- First what the entered node reads is used up, then what was left beside it.
    rw [Graph.walk, if_pos (mem_unvisited.mpr ⟨htodo.1, h⟩), erase_unvisited,
      ihBelow (fun e he => hg.depsOf_lt he), ihAfter htodo.2, visited_traverse h, listed_traverse h]
    simp

/-- The walks from some roots, one after another, are one traversal of them. -/
theorem foldl_walkFrom_eq_traverse (hg : g.WellFormed) {roots : List Nat}
    (hroots : ∀ r ∈ roots, r < g.size) (finished : List Nat) :
    roots.foldl g.walkFrom (g.unvisited visited, finished)
      = (g.unvisited (g.traverse visited roots).visited,
          (g.traverse visited roots).listed.reverse ++ finished) := by
  induction visited, roots using g.traverse_induction generalizing finished with
  | nil visited =>
    rw [traverse_nil]
    rfl
  | pass visited root roots h ih =>
    rw [List.forall_mem_cons] at hroots
    rw [List.foldl_cons, walkFrom, if_neg fun hmem => (mem_unvisited.mp hmem).2 h,
      traverse_of_mem h]
    exact ih hroots.2 finished
  | enter visited root roots h _ ih =>
    rw [List.forall_mem_cons] at hroots
    rw [List.foldl_cons, walkFrom, if_pos (mem_unvisited.mpr ⟨hroots.1, h⟩), erase_unvisited,
      walk_eq_traverse hg (fun e he => hg.depsOf_lt he), Graph.walk, ih hroots.2,
      visited_traverse h, listed_traverse h]
    simp

/-- The loop finishes identities in the order in which the recursion lists them. -/
theorem orderIds_eq_traverse (hg : g.WellFormed) {roots : List Nat}
    (hroots : ∀ r ∈ roots, r < g.size) : g.orderIds roots = (g.traverse [] roots).listed := by
  have hstart : List.range g.size = g.unvisited [] := by simp [unvisited]
  unfold orderIds
  rw [hstart, foldl_walkFrom_eq_traverse hg hroots, List.append_nil, List.reverse_reverse]

/-- What nodes of the graph depend on is in the graph. -/
theorem Under.lt (hg : g.WellFormed) {id root : Nat} (h : g.Under id root) (hroot : root < g.size) :
    id < g.size := by
  rcases ReflTransGen.cases_head h with rfl | ⟨d, hd, -⟩
  · exact hroot
  · exact hg.depsOf_lt hd

variable {roots : List Handle}

/-- The listed nodes have the listed identities. -/
theorem map_id_postOrder (hg : g.WellFormed) (hroots : ∀ h ∈ roots, h.id < g.size) :
    (g.postOrder roots).map Node.id = (g.traverse [] (roots.map Handle.id)).listed := by
  refine map_id_nodes hg.ids fun id hid => ?_
  obtain ⟨r, hr, hunder⟩ := mem_traverse_listed.mp hid
  obtain ⟨h, hh, rfl⟩ := List.mem_map.mp hr
  exact hunder.lt hg (hroots h hh)

/-- A node is listed if it is one of the graph that some root depends on. -/
theorem mem_postOrder (hg : g.WellFormed) (hroots : ∀ h ∈ roots, h.id < g.size) {n : Node F} :
    n ∈ g.postOrder roots ↔ g[n.id]? = some n ∧ ∃ h ∈ roots, g.Under n.id h.id := by
  have hids : n.id ∈ (g.traverse [] (roots.map Handle.id)).listed ↔ ∃ h ∈ roots,
      g.Under n.id h.id := by
    rw [mem_traverse_listed]
    simp
  rw [← hids]
  constructor
  · intro hn
    refine ⟨?_, map_id_postOrder hg hroots ▸ List.mem_map_of_mem hn⟩
    obtain ⟨id, -, hid⟩ := List.mem_filterMap.mp hn
    rw [hg.ids id n hid]
    exact hid
  · rintro ⟨hget, hid⟩
    exact List.mem_filterMap.mpr ⟨n.id, hid, hget⟩

/-- A single root is listed last. -/
theorem getLast?_postOrder {h : Handle} (hh : h.id < g.size) :
    (g.postOrder [h]).getLast? = g.node? h := by
  have hnode : g[h.id]? = some g[h.id] := Array.getElem?_eq_getElem hh
  unfold postOrder node?
  rw [List.map_cons, List.map_nil, listed_traverse List.not_mem_nil, traverse_nil,
    List.filterMap_append, List.filterMap_cons, hnode]
  simp

/-- The loop lists the nodes that the recursion lists, in the same order. -/
theorem orderFrom_eq_postOrder (hg : g.WellFormed) (hroots : ∀ h ∈ roots, h.id < g.size) :
    g.orderFrom roots = g.postOrder roots := by
  unfold orderFrom postOrder
  rw [orderIds_eq_traverse hg (by simpa using hroots)]

end

end Graph

/-! ### The order of building -/

/-- Whatever a listed node reads comes before it. -/
def ReadsEarlier (nodes : List (Node F)) : Prop :=
  ∀ (k : Nat) (n : Node F), nodes[k]? = some n → ∀ h ∈ n.deps,
    ∃ j, j < k ∧ ∃ m, nodes[j]? = some m ∧ m.id = h.id

/-- What the loop lists from some roots, and how it ends. -/
structure Graph.InPostOrder (g : Graph F) (roots : List Handle) : Prop where
  /-- No run of the loop goes on forever. -/
  ends : WellFounded fun t s => g.Step s t
  /-- The walk is what the rounds of the loop come to. -/
  runs : ∀ trail unreached finished,
    ReflTransGen g.Step (trail, unreached, finished) ([], g.walk trail unreached finished)
  /-- The loop lists what the recursion lists. -/
  recursion : g.orderFrom roots = g.postOrder roots
  /-- No node is listed twice. -/
  distinct : ((g.orderFrom roots).map Node.id).Nodup
  /-- The listed nodes are those that the roots are and depend on. -/
  reachable : ∀ n, n ∈ g.orderFrom roots ↔ g[n.id]? = some n ∧ ∃ h ∈ roots, g.Under n.id h.id
  /-- A single root comes last. -/
  root : ∀ h, roots = [h] → (g.orderFrom roots).getLast? = g.node? h
  /-- In an acyclic graph whatever a node reads comes before it. -/
  earlier : g.Acyclic → ReadsEarlier (g.orderFrom roots)
  /-- Then nothing is complained about. -/
  accepted : g.Acyclic → violations (g.orderFrom roots) = []

/-- **The loop lists what the recursion lists**, in every finite graph and from all roots; and no
complaint is made exactly about lists in which whatever a node reads comes before it. -/
theorem orderFrom_in_post_order {g : Graph F} (hg : g.WellFormed) {roots : List Handle}
    (hroots : ∀ h ∈ roots, h.id < g.size) :
    g.InPostOrder roots ∧ ∀ nodes : List (Node F), violations nodes = [] ↔ ReadsEarlier nodes := by
  have horder := Graph.orderFrom_eq_postOrder hg hroots
  have hearlier : g.Acyclic → ReadsEarlier (g.orderFrom roots) :=
    fun hacyclic => (Graph.ordered_orderFrom hacyclic roots).earlier
  refine ⟨⟨g.wellFounded_step, g.walk_runs, horder, ?_, ?_, ?_, hearlier, ?_⟩,
    fun _ => violations_eq_nil_iff⟩
  · rw [horder, Graph.map_id_postOrder hg hroots]
    exact Graph.nodup_listed _
  · rw [horder]
    exact fun _ => Graph.mem_postOrder hg hroots
  · rintro h rfl
    rw [horder]
    exact Graph.getLast?_postOrder (hroots h (List.mem_singleton_self h))
  · exact fun hacyclic => violations_eq_nil_iff.mpr (hearlier hacyclic)

/-- Two layers that read each other, of which one reads an input too. -/
def cyclicGraph : Graph ℚ :=
  #[⟨0, ⟨none, none, .none, ""⟩, .input⟩,
    ⟨1, ⟨none, none, .none, ""⟩, .layer ⟨Builtin.plus.op, [.node ⟨2, .layer, ""⟩,
      .node ⟨0, .input, ""⟩], [], .same, .same, [], none⟩⟩,
    ⟨2, ⟨none, none, .none, ""⟩, .layer ⟨Builtin.exp.op, [.node ⟨1, .layer, ""⟩], [], .same, .same,
      [], none⟩⟩]

theorem orderFrom_in_post_order_cyclicGraph :
    cyclicGraph.WellFormed ∧ ¬cyclicGraph.Acyclic ∧
      cyclicGraph.InPostOrder [⟨1, .layer, ""⟩, ⟨2, .layer, ""⟩] ∧
      (cyclicGraph.orderFrom [⟨1, .layer, ""⟩, ⟨2, .layer, ""⟩]).map Node.id = [2, 0, 1] := by
  have hg : cyclicGraph.WellFormed := Graph.wellFormed_of_forall_lt (by decide)
  refine ⟨hg, fun hacyclic => hacyclic.irreflexive 1 ?_,
    (orderFrom_in_post_order hg (by decide)).1, ?_⟩
  · have hread : 1 ∈ cyclicGraph.depsOf 2 ∧ 2 ∈ cyclicGraph.depsOf 1 := by decide
    exact .head hread.1 (.single hread.2)
  · simp [Graph.orderFrom, Graph.orderIds, Graph.walkFrom, Graph.walk, Graph.depsOf, cyclicGraph,
      Node.deps, Node.handles, List.range_succ, Value.node?]

end SlotGrad
