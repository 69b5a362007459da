/-!
# Tallies

Counts of things, in the order in which the things were first counted.

## Main definitions

* `Tally`, `Tally.count`, `Tally.bump` — counts, one of them, and counting once more.
* `Tally.ofList` — how often each member of a list occurs.
* `Tally.byCount` — the counts, greatest first.
-/

namespace SlotGrad

/-- Counts of things, in the order in which the things were first counted. -/
abbrev Tally (α : Type) := List (α × Nat)

namespace Tally

variable {α : Type} [DecidableEq α]

/-- How often a thing was counted. -/
def count (t : Tally α) (a : α) : Nat := (t.lookup a).getD 0

/-- Count a thing once more. -/
def bump (t : Tally α) (a : α) : Tally α :=
  match t with
  | [] => [(a, 1)]
  | (b, n) :: rest => if b = a then (b, n + 1) :: rest else (b, n) :: bump rest a

@[simp] theorem count_bump (t : Tally α) (a b : α) :
    (t.bump a).count b = t.count b + if a = b then 1 else 0 := by
  induction t with
  | nil =>
    by_cases h : b = a
    · simp [count, bump, h]
    · have h' : ¬a = b := fun e => h e.symm
      simp [count, bump, List.lookup_cons, h', beq_eq_false_iff_ne.2 h]
  | cons p t ih =>
    obtain ⟨c, n⟩ := p
    by_cases hc : c = a
    · subst hc
      by_cases h : b = c
      · simp [count, bump, h]
      · have h' : ¬c = b := fun e => h e.symm
        simp [count, bump, List.lookup_cons, h', beq_eq_false_iff_ne.2 h]
    · by_cases h : b = c
      · have : ¬a = b := fun e => hc (h ▸ e.symm)
        simp [count, bump, hc, h]
        exact fun e => hc e.symm
      · simpa [count, bump, List.lookup_cons, hc, beq_eq_false_iff_ne.2 h] using ih

/-- How often each member of a list occurs. -/
def ofList (as : List α) : Tally α := as.foldl bump []

/-- The counts, greatest first; equal counts stay in their order. -/
def byCount (t : Tally α) : List (α × Nat) := t.mergeSort fun p q => q.2 ≤ p.2

end Tally
end SlotGrad
