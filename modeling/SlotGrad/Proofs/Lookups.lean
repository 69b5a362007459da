import Mathlib.Data.List.Forall2
import Mathlib.Data.List.Nodup

/-!
# Lookups by key

Lists of keys with values, as arguments by name, tallies and registries are.  The first pair with a
key is the one that is found; where no key occurs twice, every pair is found under its key.

## Main results

* `lookup_of_mem` — a pair is found under its key if no key occurs twice.
* `lookup_map_key` — keys can be renamed.
* `lookup_reverse_cons` — the last pair with a key, found from the end.
-/

namespace SlotGrad

variable {α β γ : Type} [BEq α] [LawfulBEq α] {a : α} {b : β} {ps : List (α × β)}

theorem mem_of_lookup (h : ps.lookup a = some b) : (a, b) ∈ ps := by
  obtain ⟨before, after, heq, -⟩ := List.lookup_eq_some_iff.mp h
  simp [heq]

theorem lookup_isSome_iff : (ps.lookup a).isSome ↔ ∃ b, (a, b) ∈ ps := by
  rw [Option.isSome_iff_ne_none, ne_eq, List.lookup_eq_none_iff]
  simp

theorem ne_of_lookup_eq_none (h : ps.lookup a = none) {p : α × β} (hp : p ∈ ps) : p.1 ≠ a :=
  fun heq => by simpa [heq] using List.lookup_eq_none_iff.mp h p hp

/-- Where no key occurs twice, a pair is found under its key. -/
theorem lookup_of_mem (hd : (ps.map Prod.fst).Nodup) (h : (a, b) ∈ ps) : ps.lookup a = some b := by
  induction ps with
  | nil => cases h
  | cons p ps ih =>
    obtain ⟨c, d⟩ := p
    rw [List.map_cons, List.nodup_cons] at hd
    rcases List.mem_cons.mp h with hhead | htail
    · cases hhead
      exact List.lookup_cons_self
    · have hne : a ≠ c := by
        rintro rfl
        exact hd.1 (List.mem_map.mpr ⟨(a, b), htail, rfl⟩)
      rw [List.lookup_cons, beq_eq_false_iff_ne.mpr hne]
      exact ih hd.2 htail

omit [LawfulBEq α] in
theorem lookup_map_snd (f : β → γ) (a : α) (ps : List (α × β)) :
    (ps.map fun p => (p.1, f p.2)).lookup a = (ps.lookup a).map f := by
  induction ps with
  | nil => rfl
  | cons p ps ih =>
    rw [List.map_cons, List.lookup_cons, List.lookup_cons, ih]
    cases a == p.1 <;> rfl

/-- Keys can be renamed where the one that is looked up keeps apart from the others. -/
theorem lookup_map_key [BEq γ] [LawfulBEq γ] {f : α → γ} (h : ∀ p ∈ ps, f p.1 = f a → p.1 = a) :
    (ps.map fun p => (f p.1, p.2)).lookup (f a) = ps.lookup a := by
  induction ps with
  | nil => rfl
  | cons p ps ih =>
    have hrest := ih fun q hq => h q (List.mem_cons_of_mem _ hq)
    by_cases hp : p.1 = a
    · rw [List.map_cons, List.lookup_cons, List.lookup_cons, hp, beq_self_eq_true, beq_self_eq_true]
    · have hf : f p.1 ≠ f a := fun heq => hp (h p (List.mem_cons_self ..) heq)
      rw [List.map_cons, List.lookup_cons, List.lookup_cons, beq_eq_false_iff_ne.mpr (Ne.symm hp),
        beq_eq_false_iff_ne.mpr (Ne.symm hf)]
      exact hrest

omit [LawfulBEq α] in
/-- From the end, the pairs that come later are found before the first. -/
theorem lookup_reverse_cons (p : α × β) (ps : List (α × β)) (a : α) :
    (p :: ps).reverse.lookup a = (ps.reverse.lookup a).or
    (if a == p.1 then some p.2 else none) := by
  rw [List.reverse_cons, List.lookup_append, List.lookup_cons]
  cases a == p.1 <;> rfl

end SlotGrad
