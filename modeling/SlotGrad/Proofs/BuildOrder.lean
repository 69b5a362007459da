import SlotGrad.Program.Compile
import SlotGrad.Proofs.PostOrder

/-!
# The order in which roots are compiled

The compiler lists the nodes under its roots in dependency order.  Several roots are read by a layer
of the compiler's own, which is put behind all nodes of the graph; as nothing reads it, the graph
stays acyclic.

## Main definitions

* `Graph.widened` — the graph with the layer that joins some roots.
* `buildOrder` — the nodes that some roots compile to.

## Main results

* `mem_orderIds` — the listed nodes are those that the roots depend on.
* `Acyclic.push` — an acyclic graph with one more node, which reads the others, is acyclic.
* `ordered_buildOrder` — the nodes under some roots are compiled in dependency order.
* `mem_buildOrder_of_two_le` — several roots are compiled to the nodes that each of them is compiled
  to, and the layer that joins them.
* `compileRoots_eq` — compiling some roots is compiling the nodes under them.
-/

namespace SlotGrad

open Relation (TransGen ReflTransGen)

variable {F : Type}

namespace Graph

/-- **The listed nodes are those that the roots depend on.** -/
theorem mem_orderIds {g : Graph F} (hg : g.Acyclic) {roots : List Nat}
    (hroots : ∀ r ∈ roots, r < g.size) {id : Nat} :
    id ∈ g.orderIds roots ↔ ∃ r ∈ roots, g.Under id r := by
  rw [orderIds_eq_traverse hg.wellFormed hroots]
  exact mem_traverse_listed

/-! ### One more node -/

section

variable {g : Graph F} {n : Node F}

theorem depsOf_push_of_lt {id : Nat} (h : id < g.size) :
    Graph.depsOf (g.push n) id = g.depsOf id := by
  unfold depsOf
  rw [Array.getElem?_push_lt h, Array.getElem?_eq_getElem h]

theorem depsOf_push_size : Graph.depsOf (g.push n) g.size = n.deps.map Handle.id := by
  unfold depsOf
  rw [Array.getElem?_push_size]

/-- A node of a graph with one more is one of the graph's, or the new one at the end. -/
theorem getElem?_push_eq_some {k : Nat} {m : Node F} :
    (g.push n)[k]? = some m ↔ g[k]? = some m ∨ k = g.size ∧ n = m := by
  rw [Array.getElem?_push]
  split
  · rename_i hk
    rw [hk, Array.getElem?_eq_none (Nat.le_refl _)]
    simp
  · rename_i hk
    simp [hk]

/-- What is read in an acyclic graph with one more node was there before, and so was all that is
read on the way to an older node. -/
theorem Acyclic.reads_push (hg : g.Acyclic) (hdeps : ∀ h ∈ n.deps, h.id < g.size) {i j : Nat}
    (h : TransGen (fun d id => d ∈ Graph.depsOf (g.push n) id) i j) :
    i < g.size ∧ (j < g.size → TransGen (fun d id => d ∈ g.depsOf id) i j) := by
  have hstep : ∀ {d id : Nat}, d ∈ Graph.depsOf (g.push n) id →
      d < g.size ∧ (id < g.size → d ∈ g.depsOf id) := by
    intro d id hd
    obtain ⟨m, hm, k, hk, rfl⟩ := mem_depsOf.mp hd
    rcases getElem?_push_eq_some.mp hm with hm | ⟨rfl, rfl⟩
    · exact ⟨hg.inGraph id m hm k hk, fun _ => mem_depsOf.mpr ⟨m, hm, k, hk, rfl⟩⟩
    · exact ⟨hdeps k hk, fun hlt => absurd hlt (Nat.lt_irrefl _)⟩
  induction h with
  | single hd => exact ⟨(hstep hd).1, fun hlt => .single ((hstep hd).2 hlt)⟩
  | tail _ hd ih => exact ⟨ih.1, fun hlt => .tail (ih.2 (hstep hd).1) ((hstep hd).2 hlt)⟩

/-- An acyclic graph with one more node, which reads older ones, is acyclic. -/
theorem Acyclic.push (hg : g.Acyclic) (hid : n.id = g.size) (hdeps : ∀ h ∈ n.deps, h.id < g.size) :
    Acyclic (g.push n) := by
  refine ⟨?_, ?_, ?_⟩
  · intro k m hm
    rcases getElem?_push_eq_some.mp hm with hm | ⟨rfl, rfl⟩
    · exact hg.ids k m hm
    · exact hid
  · intro k m hm h hh
    rw [Array.size_push]
    rcases getElem?_push_eq_some.mp hm with hm | ⟨rfl, rfl⟩
    · exact Nat.lt_succ_of_lt (hg.inGraph k m hm h hh)
    · exact Nat.lt_succ_of_lt (hdeps h hh)
  · intro id hpath
    obtain ⟨hlt, hold⟩ := hg.reads_push hdeps hpath
    exact hg.irreflexive id (hold hlt)

end

/-! ### The joining layer -/

/-- The graph with the layer that joins some roots. -/
def widened (g : Graph F) (source : String) (roots : List Handle) : Graph F :=
  g.push (joiningLayer g source (roots.map .node))

theorem deps_joiningLayer (g : Graph F) (source : String) (roots : List Handle) :
    (joiningLayer g source (roots.map .node)).deps = roots := by
  simp [joiningLayer, Node.deps, Node.handles, List.filterMap_map, Function.comp_def, Value.node?]

theorem Acyclic.widened {g : Graph F} (hg : g.Acyclic) (source : String) {roots : List Handle}
    (hroots : ∀ h ∈ roots, h.id < g.size) : (g.widened source roots).Acyclic :=
  hg.push rfl (by rwa [deps_joiningLayer])

end Graph

/-- The nodes that some roots compile to, in order. -/
def buildOrder (g : Graph F) (source : String) (roots : List Handle) : List (Node F) :=
  match roots with
  | [root] => g.orderFrom [root]
  | roots => (g.widened source roots).orderFrom [(joiningLayer g source (roots.map .node)).handle]

/-- **The nodes under some roots are compiled in dependency order.** -/
theorem ordered_buildOrder {g : Graph F} (hg : g.Acyclic) (source : String) {roots : List Handle}
    (hroots : ∀ h ∈ roots, h.id < g.size) : Ordered (buildOrder g source roots) := by
  unfold buildOrder
  split
  · exact Graph.ordered_orderFrom hg _
  · exact Graph.ordered_orderFrom (hg.widened source hroots) _

/-- There is a last node: the only root, or the layer that joins all. -/
theorem buildOrder_ne_nil {g : Graph F} (hg : g.Acyclic) (source : String) {roots : List Handle}
    (hroots : ∀ h ∈ roots, h.id < g.size) : buildOrder g source roots ≠ [] := by
  have hne : ∀ {g : Graph F} {h : Handle}, g.Acyclic → h.id < g.size → g.orderFrom [h] ≠ [] := by
    intro g h hg hh hnil
    have hlast := Graph.getLast?_orderFrom hg hh
    rw [hnil] at hlast
    cases hlast
  unfold buildOrder
  split
  · exact hne hg (hroots _ (List.mem_singleton_self _))
  · refine hne (hg.widened source hroots) ?_
    show g.size < (g.push _).size
    rw [Array.size_push]
    exact Nat.lt_succ_self _

/-! ### Several roots and each of them -/

section

open SlotGrad.Graph

variable {g : Graph F}

/-- The listed nodes are the graph's nodes under the roots. -/
theorem Graph.mem_orderFrom (hg : g.Acyclic) {roots : List Handle}
    (hroots : ∀ h ∈ roots, h.id < g.size) {n : Node F} :
    n ∈ g.orderFrom roots ↔ g[n.id]? = some n ∧ ∃ h ∈ roots, g.Under n.id h.id := by
  rw [orderFrom_eq_postOrder hg.wellFormed hroots]
  exact mem_postOrder hg.wellFormed hroots

/-- The joining layer depends on itself and on what the roots depend on. -/
theorem Graph.under_widened (hg : g.Acyclic) {source : String} {roots : List Handle}
    (hroots : ∀ h ∈ roots, h.id < g.size) {id : Nat} :
    (g.widened source roots).Under id g.size ↔ id = g.size ∨ ∃ h ∈ roots, g.Under id h.id := by
  have hdeps : Graph.depsOf (g.widened source roots) g.size = roots.map Handle.id := by
    unfold Graph.widened
    rw [depsOf_push_size, deps_joiningLayer]
  constructor
  · intro h
    rcases ReflTransGen.cases_tail h with rfl | ⟨d, hid, hd⟩
    · exact .inl rfl
    · have hd' : d ∈ roots.map Handle.id := hdeps ▸ hd
      obtain ⟨h, hh, rfl⟩ := List.mem_map.mp hd'
      refine .inr ⟨h, hh, ?_⟩
      rcases Relation.reflTransGen_iff_eq_or_transGen.mp hid with heq | hpath
      · rw [heq]
        exact .refl
      · exact ((hg.reads_push (by rwa [deps_joiningLayer]) hpath).2 (hroots h hh)).to_reflTransGen
  · rintro (rfl | ⟨h, hh, hid⟩)
    · exact .refl
    · refine ReflTransGen.tail (b := h.id) (ReflTransGen.mono (fun d m hd => ?_) _ _ hid) ?_
      · obtain ⟨n, hn, -⟩ := mem_depsOf.mp hd
        unfold Graph.widened
        rw [depsOf_push_of_lt (Array.getElem?_eq_some_iff.mp hn).1]
        exact hd
      · rw [hdeps]
        exact List.mem_map_of_mem hh

/-- Several roots are compiled from the layer that joins them. -/
theorem buildOrder_of_two_le {source : String} {roots : List Handle} (htwo : 2 ≤ roots.length) :
    buildOrder g source roots
      = (g.widened source roots).orderFrom [(joiningLayer g source (roots.map .node)).handle] := by
  match roots, htwo with
  | _ :: _ :: _, _ => rfl

/-- Several roots are compiled to the nodes that each of them is compiled to, and the layer that
joins them. -/
theorem mem_buildOrder_of_two_le (hg : g.Acyclic) {source : String} {roots : List Handle}
    (htwo : 2 ≤ roots.length) (hroots : ∀ h ∈ roots, h.id < g.size) {n : Node F} :
    n ∈ buildOrder g source roots ↔
      n = joiningLayer g source (roots.map .node) ∨ ∃ h ∈ roots, n ∈ buildOrder g source [h] := by
  have hsingle : ∀ h ∈ roots, n ∈ buildOrder g source [h] ↔ g[n.id]? = some n ∧
      g.Under n.id h.id := by
    intro h hh
    exact (mem_orderFrom hg (by simpa using hroots h hh)).trans (by simp)
  have hjoined : ((g.widened source roots)[n.id]? = some n ∧
    (g.widened source roots).Under n.id g.size)
      ↔ n ∈ buildOrder g source roots := by
    rw [buildOrder_of_two_le htwo, mem_orderFrom (hg.widened source hroots) (fun h hh => ?_)]
    · simp [joiningLayer, Node.handle]
    · cases List.mem_singleton.mp hh
      exact (Array.size_push ..).symm ▸ Nat.lt_succ_self _
  rw [← hjoined, under_widened hg hroots, Graph.widened, getElem?_push_eq_some]
  constructor
  · rintro ⟨hget | ⟨-, rfl⟩, hid⟩
    · have hlt := (Array.getElem?_eq_some_iff.mp hget).1
      obtain ⟨h, hh, hunder⟩ := hid.resolve_left (Nat.ne_of_lt hlt)
      exact .inr ⟨h, hh, (hsingle h hh).mpr ⟨hget, hunder⟩⟩
    · exact .inl rfl
  · rintro (rfl | ⟨h, hh, hn⟩)
    · exact ⟨.inr ⟨rfl, rfl⟩, .inl rfl⟩
    · obtain ⟨hget, hunder⟩ := (hsingle h hh).mp hn
      exact ⟨.inl hget, .inr ⟨h, hh, hunder⟩⟩

/-- Several roots are compiled to a list that ends with the layer that joins them. -/
theorem getLast?_buildOrder (hg : g.Acyclic) {source : String} {roots : List Handle}
    (htwo : 2 ≤ roots.length) (hroots : ∀ h ∈ roots, h.id < g.size) :
    (buildOrder g source roots).getLast? = some (joiningLayer g source (roots.map .node)) := by
  have hwide := hg.widened source hroots
  have hlast := getLast?_orderFrom hwide (h := (joiningLayer g source (roots.map .node)).handle)
    ((Array.size_push ..).symm ▸ Nat.lt_succ_self g.size)
  rw [← buildOrder_of_two_le htwo] at hlast
  obtain ⟨n, hn, hid⟩ := Option.map_eq_some_iff.mp hlast
  have hget := getElem?_of_mem_orderFrom hwide
    (buildOrder_of_two_le htwo ▸ List.mem_of_getLast? hn)
  have hid : n.id = g.size := hid
  rw [hid, Graph.widened, Array.getElem?_push_size] at hget
  rw [hn, Option.some.inj hget]

/-- A root alone is compiled to a list that ends with it. -/
theorem getLast?_buildOrder_singleton (hg : g.Acyclic) {source : String} {h : Handle}
    (hh : h.id < g.size) : ((buildOrder g source [h]).getLast?).map Node.id = some h.id :=
  getLast?_orderFrom hg hh

end

/-- Compiling some roots is compiling the nodes under them. -/
theorem compileRoots_eq [Arith F] {checks : Checks F} {g : Graph F}
    {source : String} {roots : List Handle} (hne : roots ≠ []) {options : Options F} :
    compileRoots checks g source (roots.map .node) options
      = compileNodes checks (fun n => n.id < g.size) (buildOrder g source roots) (some roots)
          options := by
  have hgiven : ∀ hs : List Handle,
      (hs.map (.node : Handle → Value F)).filterMap Value.node? = hs := by
    intro hs
    simp [List.filterMap_map, Function.comp_def, Value.node?]
  cases roots with
  | nil => exact absurd rfl hne
  | cons first others =>
    cases others with
    | nil => rfl
    | cons second rest =>
      unfold compileRoots
      rw [hgiven]
      rfl

end SlotGrad
