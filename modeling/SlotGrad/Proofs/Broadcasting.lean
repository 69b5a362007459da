import SlotGrad.Proofs.Positions

/-!
# Broadcasting

A shape fits another if, matched from the last extent, each of its extents is the other's or one.
Two shapes have a common shape exactly when both fit it, and a grid is read at every position of a
shape that its own fits.

## Main definitions

* `Shape.Fits` — when a grid of one shape can be read at the positions of another.
* `Grid.spread` — a grid read at the positions of a shape that its own fits.

## Main results

* `Shape.fits_of_broadcast?`, `Shape.Fits.broadcast?` — common shapes are those that both fit.
* `Shape.Fits.project_mem`, `Shape.Fits.project_project` — reading positions through a fit.
* `Grid.spread_zipWith?` — elementwise operations commute with spreading.
-/

namespace SlotGrad

namespace Shape

/-! ### Fitting extents -/

/-- An extent that is the other one or can be stretched to it. -/
def Stretches (m n : Nat) : Prop := m = n ∨ m = 1

/-- A shape whose extents, matched from the last one, are those of another or one. -/
def Fits (a s : Shape) : Prop :=
  ∃ lead own : List Nat, s = lead ++ own ∧ List.Forall₂ Stretches a own

theorem Fits.refl (s : Shape) : Fits s s :=
  ⟨[], s, rfl, List.forall₂_same.mpr fun _ _ => .inl rfl⟩

theorem fits_nil (s : Shape) : Fits [] s := ⟨s, [], by simp, .nil⟩

theorem Fits.length_le {a s : Shape} (h : Fits a s) : a.length ≤ s.length := by
  obtain ⟨lead, own, rfl, hown⟩ := h
  rw [List.length_append, hown.length_eq]
  omega

theorem stretches_trans {a b c : List Nat} (h : List.Forall₂ Stretches a b)
    (h' : List.Forall₂ Stretches b c) : List.Forall₂ Stretches a c := by
  induction h generalizing c with
  | nil => exact h'
  | cons hmn _ ih =>
    obtain _ | ⟨hnk, h'⟩ := h'
    refine .cons ?_ (ih h')
    unfold Stretches at *
    omega

theorem Fits.trans {a b c : Shape} (h : Fits a b) (h' : Fits b c) : Fits a c := by
  obtain ⟨lead, own, rfl, hown⟩ := h
  obtain ⟨lead', own', rfl, hown'⟩ := h'
  have hsplit := List.forall₂_drop lead.length hown'
  rw [List.drop_left] at hsplit
  refine ⟨lead' ++ own'.take lead.length, own'.drop lead.length, ?_, stretches_trans hown hsplit⟩
  rw [List.append_assoc, List.take_append_drop]

theorem commonExtent?_stretches {m n k : Nat} (h : commonExtent? m n = some k) :
    Stretches m k ∧ Stretches n k := by
  unfold commonExtent? at h
  unfold Stretches
  split_ifs at h <;> cases h <;> omega

theorem commonExtent?_of_stretches {m n : Nat} (h : Stretches m n) :
    commonExtent? m n = some n ∧ commonExtent? n m = some n := by
  unfold commonExtent?
  rcases h with rfl | rfl
  · simp
  · by_cases hn : n = 1
    · simp [hn]
    · simp [hn, Ne.symm hn]

/-- The common shape is one that both shapes fit, read from the last extent on. -/
theorem broadcastReversed?_stretches {s t r : List Nat} (h : broadcastReversed? s t = some r) :
    (∃ own lead, r = own ++ lead ∧ List.Forall₂ Stretches s own) ∧
      ∃ own lead, r = own ++ lead ∧ List.Forall₂ Stretches t own := by
  have hsame : ∀ l : List Nat, ∃ own lead, l = own ++ lead ∧ List.Forall₂ Stretches l own :=
    fun l => ⟨l, [], by simp, List.forall₂_same.mpr fun _ _ => .inl rfl⟩
  induction s generalizing t r with
  | nil =>
    cases h
    exact ⟨⟨[], t, rfl, .nil⟩, hsame t⟩
  | cons m s ih =>
    cases t with
    | nil =>
      cases h
      exact ⟨hsame _, [], m :: s, rfl, .nil⟩
    | cons n t =>
      unfold broadcastReversed? at h
      split at h
      · rename_i k r hk hr
        cases h
        obtain ⟨⟨own, lead, rfl, hs⟩, own', lead', heq, ht⟩ := ih hr
        obtain ⟨hm, hn⟩ := commonExtent?_stretches hk
        exact ⟨⟨k :: own, lead, rfl, .cons hm hs⟩, k :: own', lead', by rw [heq]; rfl, .cons hn ht⟩
      · cases h

theorem broadcastReversed?_of_stretches {a own : List Nat} (lead : List Nat)
    (h : List.Forall₂ Stretches a own) :
    broadcastReversed? a (own ++ lead) = some (own ++ lead) ∧
      broadcastReversed? (own ++ lead) a = some (own ++ lead) := by
  induction h with
  | nil =>
    refine ⟨rfl, ?_⟩
    cases lead <;> rfl
  | cons hmn _ ih =>
    obtain ⟨hm, hn⟩ := commonExtent?_of_stretches hmn
    rw [List.cons_append]
    unfold broadcastReversed?
    rw [ih.1, ih.2, hm, hn]
    exact ⟨rfl, rfl⟩

/-- Both shapes fit their common one. -/
theorem fits_of_broadcast? {a b s : Shape} (h : broadcast? a b = some s) : Fits a s ∧ Fits b s := by
  unfold broadcast? at h
  obtain ⟨r, hr, rfl⟩ := Option.map_eq_some_iff.mp h
  have hback : ∀ {t : Shape}, (∃ own lead, r = own ++ lead ∧ List.Forall₂ Stretches t.reverse own) →
      Fits t r.reverse := by
    rintro t ⟨own, lead, rfl, hown⟩
    refine ⟨lead.reverse, own.reverse, List.reverse_append, ?_⟩
    have := List.forall₂_reverse_iff.mpr hown
    rwa [List.reverse_reverse] at this
  obtain ⟨ha, hb⟩ := broadcastReversed?_stretches hr
  exact ⟨hback ha, hback hb⟩

/-- A shape that fits another has it as their common one. -/
theorem Fits.broadcast? {a s : Shape} (h : Fits a s) :
    broadcast? a s = some s ∧ SlotGrad.Shape.broadcast? s a = some s := by
  obtain ⟨lead, own, rfl, hown⟩ := h
  obtain ⟨hl, hr⟩ := broadcastReversed?_of_stretches lead.reverse
    (List.forall₂_reverse_iff.mpr hown)
  unfold SlotGrad.Shape.broadcast?
  rw [List.reverse_append, hl, hr]
  simp

/-! ### Reading through a fit -/

/-- The coordinates at stretched extents are zero and the others are kept. -/
def clip (a : Shape) (i : List Nat) : List Nat :=
  List.zipWith (fun n k => if n = 1 then 0 else k) a i

theorem project_append {a : Shape} {i j : List Nat} (h : j.length = a.length) :
    project a (i ++ j) = clip a j := by
  unfold project clip
  have hdrop : (i ++ j).length - a.length = i.length := by
    rw [List.length_append]
    omega
  rw [hdrop, List.drop_left]

theorem project_eq_clip {a : Shape} {i : List Nat} (h : i.length = a.length) :
    project a i = clip a i := project_append (i := []) h

theorem clip_mem {a own : Shape} (h : List.Forall₂ Stretches a own) {i : List Nat}
    (hi : i ∈ indices own) : clip a i ∈ indices a := by
  induction h generalizing i with
  | nil => simp [clip]
  | @cons m n a own hmn _ ih =>
    obtain _ | ⟨k, i⟩ := i
    · cases mem_indices.mp hi
    · rw [cons_mem_indices] at hi
      refine cons_mem_indices.mpr ⟨?_, ih hi.2⟩
      dsimp only
      rcases hmn with rfl | rfl
      · split
        · omega
        · exact hi.1
      · simp

theorem clip_self {s : Shape} {i : List Nat} (hi : i ∈ indices s) : clip s i = i := by
  induction s generalizing i with
  | nil =>
    rw [indices_nil, List.mem_singleton] at hi
    rw [hi]
    rfl
  | cons n s ih =>
    obtain _ | ⟨k, i⟩ := i
    · cases mem_indices.mp hi
    · rw [cons_mem_indices] at hi
      have hrest := ih hi.2
      unfold clip at hrest ⊢
      rw [List.zipWith_cons_cons, hrest]
      split
      · have : k = 0 := by omega
        rw [this]
      · rfl

theorem clip_clip {a b : Shape} (h : List.Forall₂ Stretches a b) (i : List Nat) :
    clip a (clip b i) = clip a i := by
  induction h generalizing i with
  | nil => rfl
  | @cons m n a b hmn _ ih =>
    cases i with
    | nil => rfl
    | cons k i =>
      have hrest := ih i
      unfold clip at hrest ⊢
      simp only [List.zipWith_cons_cons, hrest]
      rcases hmn with rfl | rfl
      · split <;> rfl
      · rfl

/-- A position of a shape reads a position of every shape that fits it. -/
theorem Fits.project_mem {a s : Shape} (h : Fits a s) {i : List Nat} (hi : i ∈ indices s) :
    project a i ∈ indices a := by
  obtain ⟨lead, own, rfl, hown⟩ := h
  obtain ⟨u, v, hu, hv, rfl⟩ := exists_append_of_mem_indices hi
  rw [project_append ((length_of_mem_indices hv).trans hown.length_eq.symm)]
  exact clip_mem hown hv

theorem project_self {s : Shape} {i : List Nat} (hi : i ∈ indices s) : project s i = i := by
  rw [project_eq_clip (length_of_mem_indices hi), clip_self hi]

/-- Reading through two fits is reading through the one they make. -/
theorem Fits.project_project {a b s : Shape} (h : Fits a b) (h' : Fits b s) {i : List Nat}
    (hi : i ∈ indices s) : project a (project b i) = project a i := by
  obtain ⟨lead', own', rfl, hown'⟩ := h'
  obtain ⟨u, v, -, hv, rfl⟩ := exists_append_of_mem_indices hi
  have hvlen := (length_of_mem_indices hv).trans hown'.length_eq.symm
  rw [project_append hvlen]
  obtain ⟨lead, own, rfl, hown⟩ := h
  have hsplit : v = v.take lead.length ++ v.drop lead.length := (List.take_append_drop _ _).symm
  have hlen : (v.drop lead.length).length = own.length := by
    rw [List.length_append] at hvlen
    rw [List.length_drop]
    omega
  have htake : (v.take lead.length).length = lead.length := by
    rw [List.length_append] at hvlen
    rw [List.length_take]
    omega
  have hclip : clip (lead ++ own) v
      = clip lead (v.take lead.length) ++ clip own (v.drop lead.length) := by
    unfold clip
    conv_lhs => rw [hsplit]
    exact List.zipWith_append htake.symm
  have hown_len : (clip own (v.drop lead.length)).length = a.length := by
    unfold clip
    rw [List.length_zipWith, hlen, hown.length_eq, Nat.min_self]
  have hwhole : u ++ v = u ++ v.take lead.length ++ v.drop lead.length := by
    rw [List.append_assoc, List.take_append_drop]
  rw [hclip, project_append hown_len, clip_clip hown, hwhole,
    project_append (hlen.trans hown.length_eq.symm)]

theorem Fits.append {a s b t : Shape} (h : Fits a s) (h' : List.Forall₂ Stretches b t) :
    Fits (a ++ b) (s ++ t) := by
  obtain ⟨lead, own, rfl, hown⟩ := h
  exact ⟨lead, own ++ t, List.append_assoc .., List.rel_append hown h'⟩

/-- Reading is done separately in two groups of axes of which the last group is complete. -/
theorem Fits.project_append_append {a s b t : Shape} (h : Fits a s)
    (h' : List.Forall₂ Stretches b t) {i j : List Nat} (hi : i ∈ indices s) (hj : j ∈ indices t) :
    project (a ++ b) (i ++ j) = project a i ++ clip b j := by
  obtain ⟨lead, own, rfl, hown⟩ := h
  obtain ⟨u, v, -, hv, rfl⟩ := exists_append_of_mem_indices hi
  have hvlen := (length_of_mem_indices hv).trans hown.length_eq.symm
  have hjlen := (length_of_mem_indices hj).trans h'.length_eq.symm
  have hlen : (v ++ j).length = (a ++ b).length := by
    rw [List.length_append, List.length_append, hvlen, hjlen]
  rw [List.append_assoc, project_append hlen, project_append hvlen]
  unfold clip
  exact List.zipWith_append hvlen.symm

end Shape

/-! ### Grids read through a fit -/

namespace Grid

variable {α β γ : Type}

section

variable [Inhabited α]

/-- A grid read at the positions of a shape that its own fits. -/
def spread (g : Grid α) (i : List Nat) : α := g.at (g.shape.project i)

theorem spread_of_mem {g : Grid α} {i : List Nat} (h : i ∈ g.shape.indices) :
    g.spread i = g.at i := by
  rw [spread, Shape.project_self h]

theorem spread_project {g : Grid α} {b s : Shape} (h : g.shape.Fits b) (h' : b.Fits s)
    {i : List Nat} (hi : i ∈ s.indices) : g.spread (b.project i) = g.spread i := by
  rw [spread, spread, h.project_project h' hi]

theorem spread_single (x : α) (i : List Nat) : (single x).spread i = x := by
  rw [spread, at_single]

theorem spread_map [Inhabited β] {f : α → β} (hf : f default = default) (g : Grid α)
    (i : List Nat) : (g.map f).spread i = f (g.spread i) := at_map hf g _

theorem broadcastTo?_eq_some {g h : Grid α} {s : Shape} (hb : g.broadcastTo? s = some h) :
    g.shape.Fits s ∧ h = ofFn s g.spread := by
  unfold broadcastTo? at hb
  split_ifs at hb with hs hfit
  · cases hb
    subst hs
    refine ⟨Shape.Fits.refl _, ext_at rfl fun i hi => ?_⟩
    rw [at_ofFn hi, spread_of_mem hi]
  · cases hb
    exact ⟨(Shape.fits_of_broadcast? hfit).1, rfl⟩

theorem broadcastTo?_of_fits {g : Grid α} {s : Shape} (h : g.shape.Fits s) :
    g.broadcastTo? s = some (ofFn s g.spread) := by
  unfold broadcastTo?
  split_ifs with hs hfit
  · subst hs
    refine congrArg some (ext_at rfl fun i hi => ?_)
    rw [at_ofFn hi, spread_of_mem hi]
  · rfl
  · exact absurd h.broadcast?.1 hfit

end

section

variable [Inhabited α] [Inhabited β]

/-- A function of the elements commutes with stretching. -/
theorem broadcastTo?_map {f : α → β} (hf : f default = default)
    (g : Grid α) (s : Shape) : (g.map f).broadcastTo? s = (g.broadcastTo? s).map (Grid.map f) := by
  unfold broadcastTo?
  rw [shape_map]
  split_ifs
  · rfl
  · rw [Option.map_some, map_ofFn]
    simp only [at_map hf]
  · rfl

theorem zipWith?_eq_some {f : α → β → γ} {a : Grid α} {b : Grid β} {c : Grid γ}
    (h : zipWith? f a b = some c) :
    a.shape.Fits c.shape ∧ b.shape.Fits c.shape ∧ Shape.broadcast? a.shape b.shape = some c.shape ∧
      c = ofFn c.shape fun i => f (a.spread i) (b.spread i) := by
  unfold zipWith? at h
  obtain ⟨s, hs, rfl⟩ := Option.map_eq_some_iff.mp h
  obtain ⟨ha, hb⟩ := Shape.fits_of_broadcast? hs
  exact ⟨ha, hb, hs, rfl⟩

/-- Elementwise operations commute with spreading. -/
theorem spread_zipWith? [Inhabited γ] {f : α → β → γ} {a : Grid α} {b : Grid β} {c : Grid γ}
    (h : zipWith? f a b = some c) {s : Shape} (hs : c.shape.Fits s) {i : List Nat}
    (hi : i ∈ s.indices) : c.spread i = f (a.spread i) (b.spread i) := by
  obtain ⟨ha, hb, -, hc⟩ := zipWith?_eq_some h
  have hmem := hs.project_mem hi
  rw [spread, hc, shape_ofFn, at_ofFn hmem, spread_project ha hs hi, spread_project hb hs hi]

end

end Grid

end SlotGrad
