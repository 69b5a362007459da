import Mathlib.Data.Set.Function
import SlotGrad.Proofs.BuildOrder
import SlotGrad.Proofs.MovedNets

/-!
# Graphs built twice

The same structure can be built more than once, in any order and among any other nodes.  The
walk that lists the nodes under some roots only compares identities, so a walk through the
copies goes in step with the walk through the nodes: each reaches what the other reaches, and
they finish corresponding nodes at the same time.  So the copies are listed in the order of the
nodes, and compile to the same.

## Main definitions

* `Graph.Below` — the identities of the nodes under some roots.
* `Graph.Copies` — the nodes under some roots stand in another graph as well.
* `Graph.LeftAlike` — two walks that have not reached corresponding identities.

## Main results

* `Graph.walk_copies` — walks through nodes and copies go in step.
* `Graph.orderFrom_copies` — copies are listed in the order of the nodes.
* `compileRoots_copies` — copies compile to the compilation of the nodes, moved.
* `compilation_follows_structure` — what compilation gives for a structure that is built twice.
-/

namespace SlotGrad

open Relation (ReflTransGen)

variable {F : Type}

namespace Graph

/-- Whether an identity is that of a node under some roots. -/
def Below (g : Graph F) (roots : List Nat) (i : Nat) : Prop := ∃ r ∈ roots, g.Under i r

/-- The nodes under some roots of a graph stand in another graph as well, under other
identities: there is the moved node for each of them, and no two of them share one. -/
structure Copies (f : Nat → Nat) (φ : Value F → Value F) (g g' : Graph F) (roots : List Nat) :
    Prop where
  /-- The moved nodes. -/
  nodes : ∀ i n, g.Below roots i → g[i]? = some n → g'[f i]? = some (n.moved f φ)
  /-- Different identities are moved to different ones. -/
  injOn : Set.InjOn f {i | g.Below roots i}

section

variable {f : Nat → Nat} {φ : Value F → Value F} {g g' : Graph F} {roots : List Nat}

/-- What a node under the roots reads is under the roots. -/
theorem Below.step {i d : Nat} (hi : g.Below roots i) (hd : d ∈ g.depsOf i) : g.Below roots d := by
  obtain ⟨r, hr, hunder⟩ := hi
  exact ⟨r, hr, hunder.head hd⟩

/-- What is under roots of the graph is in the graph. -/
theorem Below.exists_node (hg : g.Acyclic) (hroots : ∀ r ∈ roots, r < g.size) {i : Nat}
    (hi : g.Below roots i) : ∃ n, g[i]? = some n := by
  obtain ⟨r, hr, hunder⟩ := hi
  have hlt : i < g.size := by
    rcases ReflTransGen.cases_head hunder with rfl | ⟨j, hj, -⟩
    · exact hroots i hr
    · obtain ⟨n, hn, h, hh, rfl⟩ := mem_depsOf.mp hj
      exact hg.inGraph j n hn h hh
  exact ⟨_, Array.getElem?_eq_getElem hlt⟩

namespace Copies

variable (hcopies : Copies f φ g g' roots) (hφ : Value.Keeps φ)
include hcopies hφ

/-- A moved node reads the moved nodes. -/
theorem depsOf {i : Nat} {n : Node F} (hi : g.Below roots i) (hn : g[i]? = some n) :
    g'.depsOf (f i) = (g.depsOf i).map f := by
  unfold Graph.depsOf
  rw [hcopies.nodes i n hi hn, hn]
  dsimp only
  rw [Node.deps_moved hφ, List.map_map, List.map_map]
  rfl

end Copies

/-- The identities that two walks have not reached correspond, as far as they are under the
roots. -/
structure LeftAlike (f : Nat → Nat) (g : Graph F) (roots left left' : List Nat) : Prop where
  /-- No identity is left twice. -/
  nodup : left.Nodup
  /-- Nor in the other walk. -/
  nodup' : left'.Nodup
  /-- An identity is left if the one that it is moved to is. -/
  mem_iff : ∀ i, g.Below roots i → (i ∈ left ↔ f i ∈ left')

/-- Both walks reach one more identity. -/
theorem LeftAlike.erase {left left' : List Nat} (h : LeftAlike f g roots left left')
    (hinj : Set.InjOn f {i | g.Below roots i}) {d : Nat} (hd : g.Below roots d) :
    LeftAlike f g roots (left.erase d) (left'.erase (f d)) := by
  refine ⟨h.nodup.erase d, h.nodup'.erase (f d), fun i hi => ?_⟩
  rw [h.nodup.mem_erase_iff, h.nodup'.mem_erase_iff, h.mem_iff i hi, hinj.ne_iff hi hd]

/-- **Walks correspond.**  A walk through moved nodes finishes the moved nodes in the same order. -/
theorem walk_copies (hg : g.Acyclic) (hroots : ∀ r ∈ roots, r < g.size) (hφ : Value.Keeps φ)
    (hcopies : Copies f φ g g' roots) (trail : Trail) (left finished : List Nat) :
    ∀ {left' : List Nat}, (∀ p ∈ trail, ∀ d ∈ p.2, g.Below roots d) →
      LeftAlike f g roots left left' →
      LeftAlike f g roots (g.walk trail left finished).1
          (g'.walk (trail.map (Prod.map f (List.map f))) left' (finished.map f)).1 ∧
        (g'.walk (trail.map (Prod.map f (List.map f))) left' (finished.map f)).2
          = (g.walk trail left finished).2.map f := by
  induction trail, left, finished using Graph.walk.induct g with
  | case1 left finished =>
    intro left' _ hleft
    rw [List.map_nil, Graph.walk, Graph.walk]
    exact ⟨hleft, rfl⟩
  | case2 left finished id rest ih =>
    intro left' htrail hleft
    rw [List.forall_mem_cons] at htrail
    have hrest := ih htrail.2 hleft
    rw [List.map_cons, Prod.map_apply, List.map_nil, Graph.walk, Graph.walk]
    exact hrest
  | case3 left finished id d ds rest hmem ih =>
    intro left' htrail hleft
    rw [List.forall_mem_cons, List.forall_mem_cons] at htrail
    obtain ⟨⟨hd, hds⟩, hrest⟩ := htrail
    obtain ⟨n, hn⟩ := hd.exists_node hg hroots
    -- The copy of a node below the roots depends on the copies of its dependencies.
    have hgo := ih (List.forall_mem_cons.mpr ⟨fun e he => hd.step he,
      List.forall_mem_cons.mpr ⟨hds, hrest⟩⟩) (hleft.erase hcopies.injOn hd)
    rw [List.map_cons, Prod.map_apply, List.map_cons, Graph.walk, if_pos hmem, Graph.walk,
      if_pos ((hleft.mem_iff d hd).mp hmem), hcopies.depsOf hφ hd hn]
    exact hgo
  | case4 left finished id d ds rest hmem ih =>
    intro left' htrail hleft
    rw [List.forall_mem_cons, List.forall_mem_cons] at htrail
    obtain ⟨⟨hd, hds⟩, hrest⟩ := htrail
    have hgo := ih (List.forall_mem_cons.mpr ⟨hds, hrest⟩) hleft
    rw [List.map_cons, Prod.map_apply, List.map_cons, Graph.walk, if_neg hmem, Graph.walk,
      if_neg fun h => hmem ((hleft.mem_iff d hd).mpr h)]
    exact hgo

/-- The walks from corresponding roots correspond. -/
theorem walkFrom_copies (hg : g.Acyclic) (hroots : ∀ r ∈ roots, r < g.size) (hφ : Value.Keeps φ)
    (hcopies : Copies f φ g g' roots) {heads : List Nat} (hheads : ∀ r ∈ heads, r ∈ roots) :
    ∀ (finished : List Nat) {left left' : List Nat}, LeftAlike f g roots left left' →
      ((heads.map f).foldl (walkFrom g') (left', finished.map f)).2
        = ((heads.foldl (walkFrom g) (left, finished)).2).map f := by
  induction heads with
  | nil => exact fun _ _ _ _ => rfl
  | cons head heads ih =>
    intro finished left left' hleft
    rw [List.forall_mem_cons] at hheads
    have hhead : g.Below roots head := ⟨head, hheads.1, .refl⟩
    rw [List.map_cons, List.foldl_cons, List.foldl_cons]
    by_cases hmem : head ∈ left
    · obtain ⟨n, hn⟩ := hhead.exists_node hg hroots
      obtain ⟨hleft', hfinished⟩ := walk_copies hg hroots hφ hcopies [(head, g.depsOf head)]
        (left.erase head) finished (List.forall_mem_singleton.mpr fun d hd => hhead.step hd)
        (hleft.erase hcopies.injOn hhead)
      rw [List.map_singleton, Prod.map_apply, ← hcopies.depsOf hφ hhead hn] at hleft' hfinished
      have hstep : walkFrom g' (left', finished.map f) (f head)
          = ((g'.walk [(f head, g'.depsOf (f head))] (left'.erase (f head)) (finished.map f)).1,
            ((g.walk [(head, g.depsOf head)] (left.erase head) finished).2).map f) := by
        rw [← hfinished]
        exact if_pos ((hleft.mem_iff head hhead).mp hmem)
      rw [hstep, show walkFrom g (left, finished) head = _ from if_pos hmem]
      exact ih hheads.2 _ hleft'
    · have hstep : walkFrom g' (left', finished.map f) (f head) = (left', finished.map f) :=
        if_neg fun h => hmem ((hleft.mem_iff head hhead).mpr h)
      rw [hstep, show walkFrom g (left, finished) head = _ from if_neg hmem]
      exact ih hheads.2 _ hleft

/-- **Moved nodes are listed in the order of the nodes.** -/
theorem orderIds_copies (hg : g.Acyclic) (hroots : ∀ r ∈ roots, r < g.size) (hφ : Value.Keeps φ)
    (hcopies : Copies f φ g g' roots) :
    g'.orderIds (roots.map f) = (g.orderIds roots).map f := by
  have hstart : LeftAlike f g roots (List.range g.size) (List.range g'.size) := by
    refine ⟨List.nodup_range, List.nodup_range, fun i hi => ?_⟩
    obtain ⟨n, hn⟩ := hi.exists_node hg hroots
    have hlt := (Array.getElem?_eq_some_iff.mp hn).1
    have hlt' := (Array.getElem?_eq_some_iff.mp (hcopies.nodes i n hi hn)).1
    exact iff_of_true (List.mem_range.mpr hlt) (List.mem_range.mpr hlt')
  have hwalks := walkFrom_copies hg hroots hφ hcopies (fun r hr => hr) [] hstart
  unfold orderIds
  rw [List.map_nil] at hwalks
  rw [hwalks, List.map_reverse]

end

/-! ### Listed nodes -/

section

variable {f : Nat → Nat} {φ : Value F → Value F} {g g' : Graph F} {roots : List Handle}

/-- The nodes under moved roots are the moved nodes, in the same order. -/
theorem orderFrom_copies (hg : g.Acyclic) (hroots : ∀ h ∈ roots, h.id < g.size)
    (hφ : Value.Keeps φ) (hcopies : Copies f φ g g' (roots.map Handle.id)) :
    g'.orderFrom (roots.map (Handle.moved f)) = (g.orderFrom roots).map (Node.moved f φ) := by
  have hids : ∀ r ∈ roots.map Handle.id, r < g.size := by simpa using hroots
  have hmoved : (roots.map (Handle.moved f)).map Handle.id = (roots.map Handle.id).map f := by
    rw [List.map_map, List.map_map]
    rfl
  unfold orderFrom
  rw [hmoved, orderIds_copies hg hids hφ hcopies, List.filterMap_map, List.map_filterMap]
  refine List.filterMap_congr fun i hi => ?_
  have hbelow : g.Below (roots.map Handle.id) i := (mem_orderIds hg hids).mp hi
  obtain ⟨n, hn⟩ := hbelow.exists_node hg hids
  rw [Function.comp_apply, hcopies.nodes i n hbelow hn, hn]
  rfl

/-- Identities under the roots are told apart from those of the listed nodes. -/
theorem Copies.tells (hg : g.Acyclic) (hroots : ∀ h ∈ roots, h.id < g.size)
    (hcopies : Copies f φ g g' (roots.map Handle.id)) {i : Nat}
    (hi : g.Below (roots.map Handle.id) i) : Tells f (g.orderFrom roots) i := by
  intro n hn heq
  obtain ⟨-, h, hh, hunder⟩ := (mem_orderFrom hg hroots).mp hn
  exact hcopies.injOn ⟨h.id, List.mem_map_of_mem hh, hunder⟩ hi heq

/-- What the listed nodes read is told apart from them. -/
theorem Copies.tellsDeps (hg : g.Acyclic) (hroots : ∀ h ∈ roots, h.id < g.size)
    (hcopies : Copies f φ g g' (roots.map Handle.id)) :
    ∀ n ∈ g.orderFrom roots, TellsDeps f (g.orderFrom roots) n := by
  intro n hn h hh
  obtain ⟨hget, k, hk, hunder⟩ := (mem_orderFrom hg hroots).mp hn
  refine hcopies.tells hg hroots ⟨k.id, List.mem_map_of_mem hk, hunder.head ?_⟩
  exact mem_depsOf.mpr ⟨n, hget, h, hh, rfl⟩

/-! ### The joining layer -/

/-- The layer that joins moved roots is the moved layer. -/
theorem joiningLayer_moved (hφ : Value.Keeps φ) (hnext : f g.size = g'.size) (source : String)
    (roots : List Handle) :
    (joiningLayer g source (roots.map .node)).moved f φ
      = joiningLayer g' source ((roots.map (Handle.moved f)).map .node) := by
  simp [joiningLayer, Node.moved, Role.moved, Application.moved, TestArgs.moved, sentNamed, hnext,
    hφ.none, Function.comp_def, Value.sent]

/-- With the joining layers, there are copies of all nodes under it. -/
theorem Copies.widened (hg : g.Acyclic) (hroots : ∀ h ∈ roots, h.id < g.size) (hφ : Value.Keeps φ)
    (hcopies : Copies f φ g g' (roots.map Handle.id)) (hnext : f g.size = g'.size)
    (source : String) :
    Copies f φ (g.widened source roots) (g'.widened source (roots.map (Handle.moved f)))
        [g.size] := by
  have hbelow : ∀ i, (g.widened source roots).Below [g.size] i →
      i = g.size ∨ g.Below (roots.map Handle.id) i := by
    rintro i ⟨r, hr, hunder⟩
    cases List.mem_singleton.mp hr
    refine ((under_widened hg hroots).mp hunder).imp_right ?_
    rintro ⟨h, hh, hi⟩
    exact ⟨h.id, List.mem_map_of_mem hh, hi⟩
  have hids : ∀ r ∈ roots.map Handle.id, r < g.size := by simpa using hroots
  -- A node under the roots is moved into the other graph, not to the place of its joining layer.
  have hinside : ∀ i, g.Below (roots.map Handle.id) i → f i < g'.size := by
    intro i hi
    obtain ⟨n, hn⟩ := hi.exists_node hg hids
    exact (Array.getElem?_eq_some_iff.mp (hcopies.nodes i n hi hn)).1
  refine ⟨fun i n hi hn => ?_, fun i hi j hj heq => ?_⟩
  · rcases getElem?_push_eq_some.mp hn with hn | ⟨rfl, rfl⟩
    · have hlt := (Array.getElem?_eq_some_iff.mp hn).1
      have hunder := (hbelow i hi).resolve_left (Nat.ne_of_lt hlt)
      exact getElem?_push_eq_some.mpr (.inl (hcopies.nodes i n hunder hn))
    · rw [joiningLayer_moved hφ hnext]
      exact getElem?_push_eq_some.mpr (.inr ⟨hnext, rfl⟩)
  · rcases hbelow i hi with rfl | hi <;> rcases hbelow j hj with rfl | hj
    · rfl
    · have hlt := hinside j hj
      omega
    · have hlt := hinside i hi
      omega
    · exact hcopies.injOn hi hj heq

end

end Graph

/-! ### Compilations -/

section

open SlotGrad.Graph

variable {f : Nat → Nat} {φ : Value F → Value F} {g g' : Graph F} {roots : List Handle}

/-- The nodes in a build order are nodes under the roots, and the layer that joins them. -/
theorem below_of_mem_buildOrder (hg : g.Acyclic) (hroots : ∀ h ∈ roots, h.id < g.size)
    (hne : roots ≠ []) {source : String} {n : Node F} (hn : n ∈ buildOrder g source roots) :
    n.id = g.size ∨ g[n.id]? = some n ∧ g.Below (roots.map Handle.id) n.id := by
  have hsingle : ∀ h ∈ roots, n ∈ buildOrder g source [h] →
      g[n.id]? = some n ∧ g.Below (roots.map Handle.id) n.id := by
    intro h hh hn
    obtain ⟨hget, k, hk, hunder⟩ := (mem_orderFrom hg (by simpa using hroots h hh)).mp hn
    cases List.mem_singleton.mp hk
    exact ⟨hget, h.id, List.mem_map_of_mem hh, hunder⟩
  match roots, hne with
  | [root], _ => exact .inr (hsingle root (List.mem_singleton_self _) hn)
  | first :: second :: rest, _ =>
    rcases (mem_buildOrder_of_two_le hg (by simp) hroots).mp hn with rfl | ⟨h, hh, hn⟩
    · exact .inl rfl
    · exact .inr (hsingle h hh hn)

section

variable (hg : g.Acyclic) (hroots : ∀ h ∈ roots, h.id < g.size) (hφ : Value.Keeps φ)
  (hcopies : Copies f φ g g' (roots.map Handle.id)) (hnext : f g.size = g'.size)
include hg hroots hφ hcopies hnext

/-- The build order of moved roots is the moved build order, and its nodes are told apart. -/
theorem buildOrder_copies (source : String) :
    buildOrder g' source (roots.map (Handle.moved f))
        = (buildOrder g source roots).map (Node.moved f φ) ∧
      Apart f (buildOrder g source roots) roots := by
  have hwide := hcopies.widened hg hroots hφ hnext source
  have hjoined : ∀ h ∈ [(joiningLayer g source (roots.map .node)).handle],
      h.id < (g.widened source roots).size := by
    intro h hh
    cases List.mem_singleton.mp hh
    exact (Array.size_push ..).symm ▸ Nat.lt_succ_self g.size
  have hmany : (g'.widened source (roots.map (Handle.moved f))).orderFrom
        [(joiningLayer g' source ((roots.map (Handle.moved f)).map .node)).handle]
      = ((g.widened source roots).orderFrom [(joiningLayer g source (roots.map .node)).handle]).map
        (Node.moved f φ) := by
    rw [← orderFrom_copies (hg.widened source hroots) hjoined hφ hwide, List.map_singleton,
      ← joiningLayer_moved hφ hnext, Node.handle_moved]
  have hmanyApart : Apart f ((g.widened source roots).orderFrom
      [(joiningLayer g source (roots.map .node)).handle]) roots := by
    refine ⟨hwide.tellsDeps (hg.widened source hroots) hjoined, fun h hh => ?_⟩
    refine hwide.tells (hg.widened source hroots) hjoined ⟨g.size, List.mem_singleton_self _, ?_⟩
    exact (under_widened hg hroots).mpr (.inr ⟨h, hh, .refl⟩)
  match roots with
  | [] => exact ⟨hmany, hmanyApart⟩
  | [root] =>
    refine ⟨orderFrom_copies hg hroots hφ hcopies, hcopies.tellsDeps hg hroots, fun h hh => ?_⟩
    exact hcopies.tells hg hroots ⟨h.id, List.mem_map_of_mem hh, .refl⟩
  | first :: second :: rest => exact ⟨hmany, hmanyApart⟩

/-- **Moved roots are compiled to the compilation of the roots, moved**, and where that fails,
it fails with the same error. -/
theorem compileRoots_copies [Arith F] {checks : Checks F} (hchecks : ∀ c ∈ checks, c.Structural)
    (source : String) (options : Options F) :
    compileRoots checks g' source ((roots.map (Handle.moved f)).map .node) (options.moved φ)
      = (compileRoots checks g source (roots.map .node) options).map (Compilation.moved f φ) := by
  by_cases hne : roots = []
  · subst hne
    rfl
  obtain ⟨horder, hapart⟩ := buildOrder_copies hg hroots hφ hcopies hnext source
  rw [compileRoots_eq hne, compileRoots_eq (by simpa using hne), horder]
  refine compileNodes_moved hchecks hφ hapart (fun n hn => decide_eq_decide.mpr ?_) options
  rw [Node.id_moved]
  rcases below_of_mem_buildOrder hg hroots hne hn with hid | ⟨hget, hbelow⟩
  · rw [hid, hnext]
    exact iff_of_false (Nat.lt_irrefl _) (Nat.lt_irrefl _)
  · have hlt := (Array.getElem?_eq_some_iff.mp hget).1
    have hlt' := (Array.getElem?_eq_some_iff.mp (hcopies.nodes n.id n hbelow hget)).1
    exact iff_of_true hlt' hlt

end

end

/-! ### Constants without nodes -/

section

variable {f : Nat → Nat}

/-- Without a change of constants, a compilation stays as it is but for the nodes it refers to. -/
theorem Compilation.moved_id (c : Compilation F) :
    c.moved f id =
      { c with net := { c.net with nodes := c.net.nodes.map (Option.map (Handle.moved f)) } } := by
  have hinstruction : (Instruction.moved id : Instruction F → Instruction F) = id := by
    funext i
    have hnamed : sentNamed id i.kwargs = i.kwargs := List.map_id' _
    simp [Instruction.moved, hnamed]
  have hstore : c.store.map id = c.store := by simp [Store.map]
  have hparam : (ParamEntry.moved id : ParamEntry F → ParamEntry F) = id := rfl
  simp [Compilation.moved, CompiledNet.moved, hinstruction, hparam, hstore]

end

/-- **Compilation follows the structure of the graph.**  The nodes under some roots stand in
another graph as well, wherever and in whatever order they were built there.  Then the build
order of the moved roots is the moved build order, and the moved roots compile to the
compilation of the roots, in which only references to nodes are moved: those in the list of
nodes, and those inside of constants.  If that fails, it fails with the same error.  If no
constant contains a node, then names, streams, registries, metadata, the first store and the
findings are the same. -/
theorem compilation_follows_structure [Arith F] {checks : Checks F}
    (hchecks : ∀ c ∈ checks, c.Structural) {f : Nat → Nat} {g g' : Graph F} {roots : List Handle}
    (hg : g.Acyclic) (hroots : ∀ h ∈ roots, h.id < g.size)
    (hcopies : g.Copies f (Value.moved f) g' (roots.map Handle.id)) (hnext : f g.size = g'.size)
    (source : String) (options : Options F) :
    buildOrder g' source (roots.map (Handle.moved f))
        = (buildOrder g source roots).map (Node.moved f (Value.moved f)) ∧
      compileRoots checks g' source ((roots.map (Handle.moved f)).map .node)
          (options.moved (Value.moved f))
        = (compileRoots checks g source (roots.map .node) options).map
          (Compilation.moved f (Value.moved f)) ∧
      ((∀ i n, g.Below (roots.map Handle.id) i → g[i]? = some n → ∀ v ∈ n.constants, v.NodeFree) →
        compileRoots checks g' source ((roots.map (Handle.moved f)).map .node) options
          = (compileRoots checks g source (roots.map .node) options).map fun c =>
            { c with net :=
              { c.net with nodes := c.net.nodes.map (Option.map (Handle.moved f)) } }) := by
  refine ⟨(buildOrder_copies hg hroots (Value.keeps_moved f) hcopies hnext source).1,
    compileRoots_copies hg hroots (Value.keeps_moved f) hcopies hnext hchecks source options,
    fun hfree => ?_⟩
  -- The nodes in the other graph have the same constants.
  have hsame : g.Copies f id g' (roots.map Handle.id) := by
    refine ⟨fun i n hi hn => ?_, hcopies.injOn⟩
    rw [hcopies.nodes i n hi hn, Node.moved_congr fun v hv => (hfree i n hi hn v hv).moved_eq]
    rfl
  have hcompile := compileRoots_copies hg hroots Value.keeps_id hsame hnext hchecks source options
  rw [funext Compilation.moved_id] at hcompile
  exact hcompile

/-! ### A product built in two orders -/

section

/-- An input and a parameter, and their product. -/
def inputFirst : Graph ℚ :=
  #[⟨0, { bareLabel with name := some "x" }, .input⟩,
    ⟨1, { bareLabel with name := some "w" }, .param ⟨.real 3, .none, .none, .gradient⟩⟩,
    ⟨2, bareLabel, .layer ⟨Builtin.times.op, [.node ⟨0, .input, "Input(x)"⟩,
      .node ⟨1, .param, "Param(w)"⟩], [], .same, .same, [], none⟩⟩]

/-- The same nodes, of which the parameter was built first. -/
def paramFirst : Graph ℚ :=
  #[⟨0, { bareLabel with name := some "w" }, .param ⟨.real 3, .none, .none, .gradient⟩⟩,
    ⟨1, { bareLabel with name := some "x" }, .input⟩,
    ⟨2, bareLabel, .layer ⟨Builtin.times.op, [.node ⟨1, .input, "Input(x)"⟩,
      .node ⟨0, .param, "Param(w)"⟩], [], .same, .same, [], none⟩⟩]

/-- Where the nodes of the first graph are in the second one. -/
def swapped : Nat → Nat
  | 0 => 1
  | 1 => 0
  | k => k

/-- The product and the input. -/
def productAndInput : List Handle := [⟨2, .layer, "Layer(times, ?)"⟩, ⟨0, .input, "Input(x)"⟩]

theorem swapped_swapped : ∀ k, swapped (swapped k) = k
  | 0 | 1 | _ + 2 => rfl

theorem acyclic_inputFirst : inputFirst.Acyclic :=
  Graph.acyclic_of_forall_fin (by decide)

theorem copies_inputFirst (roots : List Nat) :
    inputFirst.Copies swapped (Value.moved swapped) paramFirst roots := by
  refine ⟨fun i n _ hn => ?_, fun i _ j _ h => ?_⟩
  · match i, hn with
    | 0, hn =>
      cases hn
      rfl
    | 1, hn =>
      cases hn
      rfl
    | 2, hn =>
      cases hn
      rfl
    | _ + 3, hn => cases hn
  · rw [← swapped_swapped i, h, swapped_swapped]

theorem nodeFree_inputFirst {i : Nat} {n : Node ℚ} (hn : inputFirst[i]? = some n) :
    ∀ v ∈ n.constants, v.NodeFree := by
  have hall : ∀ v ∈ ([.none, .real 3, .none, .none] : List (Value ℚ)), v.NodeFree := by
    simp [Value.NodeFree.none, Value.NodeFree.real]
  match i, hn with
  | 0, hn =>
    cases hn
    exact List.forall_mem_singleton.mpr .none
  | 1, hn =>
    cases hn
    exact hall
  | 2, hn =>
    cases hn
    exact List.forall_mem_singleton.mpr .none
  | _ + 3, hn => cases hn

theorem buildOrder_inputFirst : buildOrder inputFirst "" productAndInput
    = inputFirst.toList ++ [joiningLayer inputFirst "" (productAndInput.map .node)] := by
  have hsize : (inputFirst.widened "" productAndInput).size = 4 := rfl
  have hdeps : [0, 1, 2, 3].map (inputFirst.widened "" productAndInput).depsOf
      = [[], [], [0, 1], [2, 0]] := rfl
  simp only [List.map_cons, List.map_nil, List.cons.injEq, and_true] at hdeps
  have hids : (inputFirst.widened "" productAndInput).orderIds [3] = [0, 1, 2, 3] := by
    simp [Graph.orderIds, Graph.walkFrom, Graph.walk, hsize, hdeps, List.range_succ]
  change ((inputFirst.widened "" productAndInput).orderIds [3]).filterMap _ = _
  rw [hids]
  rfl

theorem product_built_in_two_orders :
    ∃ c c',
      compileRoots Checks.builtin inputFirst "" (productAndInput.map .node) plainOptions = .ok c ∧
      compileRoots Checks.builtin paramFirst ""
        ((productAndInput.map (Handle.moved swapped)).map .node) plainOptions = .ok c' ∧
      (buildOrder inputFirst "" productAndInput).map Node.id = [0, 1, 2, 3] ∧
      (buildOrder paramFirst "" (productAndInput.map (Handle.moved swapped))).map Node.id
        = [1, 0, 2, 3] ∧
      c'.net.names = c.net.names ∧ c'.net.forward = c.net.forward ∧
      c'.net.backward = c.net.backward ∧ c'.net.test = c.net.test ∧ c'.net.params = c.net.params ∧
      c'.store = c.store := by
  have horder : (buildOrder inputFirst "" productAndInput).map Node.id = [0, 1, 2, 3] := by
    rw [buildOrder_inputFirst]
    rfl
  obtain ⟨c, hc⟩ : ∃ c, compileRoots Checks.builtin inputFirst "" (productAndInput.map .node)
      plainOptions = .ok c := by
    rw [compileRoots_eq (by decide), buildOrder_inputFirst]
    exact ⟨_, rfl⟩
  obtain ⟨hmoved, -, hsame⟩ := compilation_follows_structure structural_builtin acyclic_inputFirst
    (by decide) (copies_inputFirst (productAndInput.map Handle.id)) rfl "" plainOptions
  have hcompiled := hsame fun i n _ hn => nodeFree_inputFirst hn
  rw [hc] at hcompiled
  refine ⟨c, _, hc, hcompiled, horder, ?_, rfl, rfl, rfl, rfl, rfl, rfl⟩
  calc (buildOrder paramFirst "" (productAndInput.map (Handle.moved swapped))).map Node.id
      = ((buildOrder inputFirst "" productAndInput).map Node.id).map swapped := by
        rw [hmoved, List.map_map, List.map_map]
        rfl
    _ = [1, 0, 2, 3] := by
        rw [horder]
        rfl

end

end SlotGrad
