import SlotGrad.Proofs.Transposes

/-!
# Adjoints of reductions are transposes

A reduction along axes sums the elements at the positions that become one when the coordinates
of those axes are erased, and its adjoint stretches the derivative of the result back along
them.  Which axes an argument names is worked out once from the operand and once from the
derivative; on arguments that a reduction accepts the two agree.

## Main results

* `Value.axes_eq_ok` — the axes that an accepted argument names.
* `expandReduced_numbers`, `expandReduced_reals` — what a stretched derivative reads.
* `Kernel.sumAdjoint_transposes`, `Kernel.meanAdjoint_transposes` — sums and means.
-/

namespace SlotGrad

/-! ### The axes of a reduction -/

namespace Value

variable {F : Type} [Arith F]

/-- An integer argument is a place. -/
theorem asPlace_of_asInteger {v : Value F} {n : Int} (h : v.asInteger = .ok n) :
    v.asPlace = .ok n := by
  cases v with
  | flag b => cases h
  | _ => exact h

/-- The axes of a tuple are those of its members, which are distinct and exist. -/
theorem foldlM_addAxis {rank : Nat} {vs : List (Value F)} {acc ks : List Nat}
    (h : vs.foldlM (addAxis rank) acc = .ok ks) (hacc : acc.Nodup) :
    ∃ js, ks = acc ++ js ∧ ks.Nodup ∧ (∀ j ∈ js, j < rank) ∧
      vs.mapM (fun v => do axisOf rank (← v.asPlace)) = .ok js := by
  induction vs generalizing acc with
  | nil =>
    cases h
    exact ⟨[], (List.append_nil _).symm, hacc, by simp, rfl⟩
  | cons v vs ih =>
    rw [List.foldlM_cons] at h
    obtain ⟨acc', hacc', h⟩ := bind_eq_ok.mp h
    unfold addAxis at hacc'
    obtain ⟨n, hn, hacc'⟩ := bind_eq_ok.mp hacc'
    obtain ⟨k, hk, hacc'⟩ := bind_eq_ok.mp hacc'
    split at hacc'
    · cases hacc'
    · rename_i hnew
      cases pure_eq_ok.mp hacc'
      have hnodup : (acc ++ [k]).Nodup := by
        rw [List.nodup_append]
        refine ⟨hacc, by simp, fun a ha b hb => ?_⟩
        cases List.mem_singleton.mp hb
        rintro rfl
        exact hnew ha
      obtain ⟨js, rfl, hnd, hlt, hmap⟩ := ih h hnodup
      refine ⟨k :: js, by simp, hnd, fun j hj => ?_, ?_⟩
      · rcases List.mem_cons.mp hj with rfl | hj
        · exact Shape.axis?_lt (ofOption_eq_ok.mp hk)
        · exact hlt j hj
      · rw [List.mapM_cons, asPlace_of_asInteger hn, hmap]
        change (do
          let j ← axisOf rank n
          return j :: js : Fallible (List Nat)) = _
        rw [hk]
        rfl

theorem places_sortAxes {n : Nat} {ks : List Nat} (hnodup : ks.Nodup) (hlt : ∀ k ∈ ks, k < n) :
    Places n (sortAxes ks) := by
  have hperm : (sortAxes ks).Perm ks := List.mergeSort_perm ks _
  have hle : (sortAxes ks).Pairwise fun j k => j ≤ k := by
    have hsorted : (ks.mergeSort fun j k => decide (j ≤ k)).Pairwise fun j k => decide (j ≤ k) :=
      List.pairwise_mergeSort (fun a b c hab hbc => by simp at *; omega)
        (fun a b => by simp; omega) ks
    exact hsorted.imp fun h => by simpa using h
  refine ⟨?_, fun k hk => hlt k (hperm.mem_iff.mp hk)⟩
  have hne : (sortAxes ks).Pairwise (· ≠ ·) := hperm.nodup_iff.mpr hnodup
  exact (hle.and hne).imp fun h => Nat.lt_of_le_of_ne h.1 h.2

theorem eraseDups_of_nodup {ks : List Nat} (h : ks.Nodup) : ks.eraseDups = ks := by
  induction ks with
  | nil => rfl
  | cons k ks ih =>
    obtain ⟨hk, hks⟩ := List.nodup_cons.mp h
    rw [List.eraseDups_cons]
    have hfilter : ks.filter (fun j => !(j == k)) = ks := by
      refine List.filter_eq_self.mpr fun j hj => ?_
      have : j ≠ k := fun hjk => hk (hjk ▸ hj)
      simpa using this
    rw [hfilter, ih hks]

/-- Distinct places that exist are those of new axes. -/
theorem newAxes_of_nodup {rank : Nat} {vs : List (Value F)} {ks : List Nat}
    (h : vs.mapM (fun v => do axisOf (rank + vs.length) (← v.asPlace)) = .ok ks)
    (hnodup : ks.Nodup) : newAxes rank vs = .ok (sortAxes ks) := by
  unfold newAxes
  dsimp only
  rw [h]
  change (if ks.eraseDups.length ≠ ks.length then throw .badValue
    else return sortAxes ks : Fallible (List Nat)) = _
  rw [eraseDups_of_nodup hnodup, if_neg (by simp)]
  rfl

/-- The axes that an accepted argument of a reduction names, in increasing order: all of them if it
is absent, and otherwise those that the result gets back as new axes at the places it names. -/
theorem axes_eq_ok {rank : Nat} {axis : Value F} {ks : List Nat} (h : axis.axes rank = .ok ks) :
    Places rank ks ∧
      (axis.isNone = true → ks = List.range rank) ∧
      (axis.isNone = false → 0 < rank → newAxes (rank - ks.length) axis.places = .ok ks) := by
  -- A single place is an axis among all of them.
  have hone : ∀ v : Value F, v.members? = Option.none → (do
      let n ← v.asInteger
      if rank = 0 ∧ (n = 0 ∨ n = -1) then return []
      return [← axisOf rank n] : Fallible (List Nat)) = .ok ks →
        Places rank ks ∧ (0 < rank → newAxes (rank - ks.length) v.places = .ok ks) := by
    intro v hmembers hv
    obtain ⟨n, hn, hv⟩ := bind_eq_ok.mp hv
    split at hv
    · rename_i hzero
      cases pure_eq_ok.mp hv
      exact ⟨⟨.nil, by simp⟩, fun hpos => absurd hzero.1 (by omega)⟩
    · obtain ⟨k, hk, hv⟩ := bind_eq_ok.mp hv
      cases pure_eq_ok.mp hv
      have hlt : k < rank := Shape.axis?_lt (ofOption_eq_ok.mp hk)
      refine ⟨⟨List.pairwise_singleton .., by simpa using hlt⟩, fun hpos => ?_⟩
      have hplaces : v.places = [v] := by
        unfold places
        rw [hmembers]
        rfl
      have htotal : rank - [k].length + [v].length = rank := by
        simp only [List.length_singleton]
        omega
      have hsort : sortAxes [k] = [k] := List.mergeSort_singleton k
      rw [hplaces, ← hsort]
      refine newAxes_of_nodup ?_ (List.nodup_singleton k)
      rw [hsort, htotal, List.mapM_cons, asPlace_of_asInteger hn]
      change (do
        let j ← axisOf rank n
        return [j] : Fallible (List Nat)) = _
      rw [hk]
      rfl
  cases axis with
  | none =>
    cases h
    exact ⟨⟨List.pairwise_lt_range, fun k hk => List.mem_range.mp hk⟩, fun _ => rfl,
      fun h => by cases h⟩
  | tuple vs =>
    -- Places in a tuple name distinct axes in any order, which are sorted.
    obtain ⟨js, hjs, hks⟩ := bind_eq_ok.mp h
    obtain ⟨js', hjs', hnodup, hlt, hmap⟩ := foldlM_addAxis hjs .nil
    rw [List.nil_append] at hjs'
    subst hjs'
    cases pure_eq_ok.mp hks
    have hplaces := places_sortAxes hnodup hlt
    refine ⟨hplaces, fun h => (by cases h), fun _ _ => newAxes_of_nodup ?_ hnodup⟩
    have hlength : (sortAxes js).length = vs.length :=
      (List.mergeSort_perm js _).length_eq.trans (mapM_eq_ok.mp hmap).length_eq.symm
    have htotal : rank - (sortAxes js).length + vs.length = rank := by
      have := hplaces.length_le
      omega
    have hvs : (tuple vs : Value F).places = vs := rfl
    rw [hvs, htotal, hmap]
  | list vs => cases h
  | _ =>
    obtain ⟨hplaces, hnew⟩ := hone _ rfl h
    exact ⟨hplaces, fun h => (by cases h), fun _ => hnew⟩

end Value

/-! ### Stretching back -/

/-- Where a shape has ones at some axes and is itself elsewhere, positions are read with zeros at
those axes. -/
theorem Shape.clip_setAll {s : Shape} {ks i : List Nat} (hi : i ∈ s.indices) :
    Shape.clip (setAll 1 ks s) i = setAll 0 ks i := by
  have hlen := Shape.length_of_mem_indices hi
  refine List.ext_getElem? fun k => ?_
  unfold clip
  rw [List.getElem?_zipWith, getElem?_setAll, getElem?_setAll]
  by_cases hk : k < s.length
  · have hki : k < i.length := by omega
    have hlt := Shape.getD_lt_of_mem_indices hi hk
    rw [List.getD_eq_getElem _ _ hki, List.getD_eq_getElem _ _ hk] at hlt
    rw [List.getElem?_eq_getElem hk, List.getElem?_eq_getElem hki]
    by_cases hmem : k ∈ ks
    · rw [if_pos ⟨hmem, hk⟩, if_pos ⟨hmem, hki⟩]
      rfl
    · rw [if_neg fun h => hmem h.1, if_neg fun h => hmem h.1]
      dsimp only
      split_ifs with hone
      · congr 1
        omega
      · rfl
  · rw [if_neg fun h => hk h.2, if_neg fun h => hk (hlen ▸ h.2), List.getElem?_eq_none (by omega),
      List.getElem?_eq_none (by omega)]

section

variable {F : Type} [Arith F]

/-- A derivative of a reduction, or one without axes, stretched to the shape of what was reduced
reads the derivative where the coordinates of the reduced axes are erased. -/
theorem expandReduced_numbers {dy x axis v : Value F} {t : Tensor F} {s : Shape} {ks : List Nat}
    (ht : dy.contents = .ok (.numbers t)) (hx : x.shape = .ok s)
    (haxis : axis.axes s.length = .ok ks) (hshape : t.shape = eraseAll ks s ∨ t.shape = [])
    (hv : expandReduced dy x axis = .ok v) :
    ∃ e : Grid (Elem F t.dtype), v = .array ⟨t.dtype, e⟩ ∧ e.shape = s ∧
      ∀ i ∈ s.indices, e.at i = t.grid.spread (eraseAll ks i) := by
  obtain ⟨d, g⟩ := t
  have hshape : g.shape = eraseAll ks s ∨ g.shape = [] := hshape
  obtain ⟨hplaces, hnone, hnew⟩ := Value.axes_eq_ok haxis
  -- Whatever axes are put in, the copies read what is copied at the clipped coordinates.
  have hstretch : ∀ {c : Grid (Elem F d)}, (do
      return Value.ofContents (← (Contents.numbers ⟨d, c⟩).broadcastTo s) : Fallible (Value F))
        = .ok v → v = .array ⟨d, .ofFn s c.spread⟩ := by
    intro c hc
    obtain ⟨c', hc', hc⟩ := bind_eq_ok.mp hc
    unfold Contents.broadcastTo Contents.restructure at hc'
    obtain ⟨e, he, hc'⟩ := bind_eq_ok.mp hc'
    cases pure_eq_ok.mp hc'
    rw [← pure_eq_ok.mp hc, (Grid.broadcastTo?_eq_some (ofOption_eq_ok.mp he)).2]
    rfl
  unfold expandReduced at hv
  rw [ht, hx] at hv
  change (do
    let c ← (if axis.isNone ∨ g.shape = [] then pure (Contents.numbers ⟨d, g⟩)
      else do (Contents.numbers ⟨d, g⟩).insertAxes (← newAxes g.shape.length axis.places) :
        Fallible (Contents F))
    return Value.ofContents (← c.broadcastTo s) : Fallible (Value F)) = .ok v at hv
  by_cases hscalar : g.shape = []
  · rw [if_pos (.inr hscalar)] at hv
    refine ⟨_, hstretch hv, rfl, fun i hi => ?_⟩
    rw [Grid.at_ofFn hi, Grid.spread, Grid.spread, ← Grid.first_eq_at hscalar,
      ← Grid.first_eq_at hscalar]
  · have hshape := hshape.resolve_right hscalar
    have hlen := length_eraseAll hplaces
    rw [← hshape] at hlen
    have hpos : 0 < s.length := by
      have := List.length_pos_iff.mpr hscalar
      omega
    -- Without named axes all are reduced, and the derivative would have none.
    have hsome : axis.isNone = false := by
      by_contra h
      have hall := hnone (by simpa using h)
      rw [hall, Shape.eraseAll_range, List.drop_length] at hshape
      exact hscalar hshape
    rw [if_neg (by simp [hsome, hscalar])] at hv
    have hrank : g.shape.length = s.length - ks.length := by omega
    rw [hrank, hnew hsome hpos] at hv
    have hv : (do
        return Value.ofContents (← (Contents.numbers ⟨d, Grid.insertAxes ks g⟩).broadcastTo s) :
          Fallible (Value F)) = .ok v := hv
    refine ⟨_, hstretch hv, rfl, fun i hi => ?_⟩
    have hback : Places (g.shape.length + ks.length) ks := hlen.symm ▸ hplaces
    have hones : (Grid.insertAxes ks g).shape = setAll 1 ks s := by
      rw [Grid.shape_insertAxes g hback, hshape, insertAll_eraseAll 1 hplaces]
    have hilen := Shape.length_of_mem_indices hi
    have hplaces' : Places i.length ks := hilen.symm ▸ hplaces
    have hmem : eraseAll ks i ∈ g.shape.indices := hshape ▸ Shape.eraseAll_mem_indices ks hi
    rw [Grid.at_ofFn hi, Grid.spread, hones,
      Shape.project_eq_clip (by rw [length_setAll, hilen]), Shape.clip_setAll hi,
      ← insertAll_eraseAll 0 hplaces', Grid.at_insertAxes g hback hmem, Grid.spread_of_mem hmem]

theorem expandReduced_reals {dy x axis v : Value F} {d : Grid F} {s : Shape} {ks : List Nat}
    (hd : dy.reals? = some d) (hx : x.shape = .ok s) (haxis : axis.axes s.length = .ok ks)
    (hshape : d.shape = eraseAll ks s ∨ d.shape = []) (hv : expandReduced dy x axis = .ok v) :
    ∃ e, v.reals? = some e ∧ e.shape = s ∧ ∀ i ∈ s.indices, e.at i = d.spread (eraseAll ks i) := by
  obtain ⟨e, rfl, hes, hat⟩ :=
    expandReduced_numbers (Value.contents_of_reals? hd) hx haxis hshape hv
  exact ⟨e, rfl, hes, hat⟩

end

/-! ### Counting what is gathered -/

namespace Shape

/-- Places before the erased ones keep their members. -/
theorem getD_eraseAll {ks : List Nat} {k : Nat} (h : ∀ j ∈ ks, k < j) (s : Shape) :
    (eraseAll ks s).getD k 0 = s.getD k 0 := by
  induction ks with
  | nil => rfl
  | cons j ks ih =>
    have hkj := h j (List.mem_cons_self ..)
    rw [← ih fun i hi => h i (List.mem_cons_of_mem _ hi)]
    unfold eraseAll
    rw [List.foldr_cons, List.getD_eq_getElem?_getD, List.getElem?_eraseIdx_of_lt hkj,
      ← List.getD_eq_getElem?_getD]

theorem size_eraseIdx {s : Shape} {k : Nat} (hk : k < s.length) :
    size s = s.getD k 0 * size (s.eraseIdx k) := by
  induction s generalizing k with
  | nil => simp at hk
  | cons n s ih =>
    cases k with
    | zero => rfl
    | succ k =>
      have hk : k < s.length := by simpa using hk
      rw [List.eraseIdx_cons_succ, size_cons, size_cons, List.getD_cons_succ, ih hk]
      ring

/-- The positions of a shape are those that are left when axes are erased, each once for every
choice of the erased coordinates. -/
theorem size_eraseAll {s : Shape} {ks : List Nat} (h : Places s.length ks) :
    size s = (ks.map fun k => s.getD k 0).prod * size (eraseAll ks s) := by
  induction ks with
  | nil => exact (Nat.one_mul _).symm
  | cons k ks ih =>
    have hlt := (List.pairwise_cons.mp h.increasing).1
    have hk : k < (eraseAll ks s).length := by
      have hlen := length_eraseAll h.tail
      have := h.add_length_lt
      omega
    rw [ih h.tail, size_eraseIdx hk, getD_eraseAll hlt, List.map_cons, List.prod_cons]
    change _ = _ * size ((eraseAll ks s).eraseIdx k)
    ring

theorem total_of_size_eq_zero {M : Type*} [AddCommMonoid M] {s : Shape} (h : s.size = 0)
    (f : List Nat → M) : total s f = 0 := by
  refine total_eq_zero fun i hi => ?_
  have := List.length_pos_of_mem hi
  rw [length_indices] at this
  omega

end Shape

/-- A mean counts the extents of the axes that it gathers. -/
theorem Value.gatheredCount_eq {F : Type} [Arith F] {s : Shape} {axis : Value F} {ks : List Nat}
    {count : Nat} (haxis : axis.axes s.length = .ok ks) (h : gatheredCount s axis = .ok count) :
    count = (ks.map fun k => s.getD k 0).prod := by
  -- A single place names one axis, of which the extent is the count.
  have hone : ∀ v : Value F, (do
      let n ← v.asInteger
      if s.length = 0 ∧ (n = 0 ∨ n = -1) then return []
      return [← axisOf s.length n] : Fallible (List Nat)) = .ok ks →
        (do return s.getD (← axisOf s.length (← v.asPlace)) 0 : Fallible Nat) = .ok count →
          count = (ks.map fun k => s.getD k 0).prod := by
    intro v hv hcount
    obtain ⟨n, hn, hv⟩ := bind_eq_ok.mp hv
    rw [asPlace_of_asInteger hn] at hcount
    obtain ⟨k, hk, hcount⟩ := bind_eq_ok.mp
      (show (do return s.getD (← axisOf s.length n) 0 : Fallible Nat) = .ok count from hcount)
    have hlt : k < s.length := Shape.axis?_lt (ofOption_eq_ok.mp hk)
    rw [if_neg fun h => by omega, hk] at hv
    cases hv
    rw [← pure_eq_ok.mp hcount, List.map_singleton, List.prod_singleton]
  cases axis with
  | none =>
    cases haxis
    cases h
    -- Without an argument all axes are gathered, and the count is the size.
    have hplaces : Places s.length (List.range s.length) :=
      ⟨List.pairwise_lt_range, fun k hk => List.mem_range.mp hk⟩
    rw [Shape.size_eraseAll hplaces, Shape.eraseAll_range, List.drop_length, Shape.size_nil,
      Nat.mul_one]
  | tuple vs =>
    obtain ⟨js, hjs, hks⟩ := bind_eq_ok.mp haxis
    obtain ⟨js', hjs', -, -, hmap⟩ := foldlM_addAxis hjs .nil
    rw [List.nil_append] at hjs'
    subst hjs'
    cases pure_eq_ok.mp hks
    obtain ⟨js', hjs', h⟩ := bind_eq_ok.mp h
    rw [hmap] at hjs'
    cases hjs'
    rw [← pure_eq_ok.mp h, ← List.prod_eq_foldl]
    exact ((List.mergeSort_perm js _).map _).prod_eq.symm
  | list vs => cases haxis
  | _ => exact hone _ haxis h

/-! ### Sums and means -/

namespace Kernel

open Value

variable {K : Type} [Field K] [Arith K] [ExactArith K]

variable {a w : Value (Dual K)} {axis dy out : Value K} {g : Grid (Dual K)}

omit [ExactArith K] in
theorem sumAdjoint_transposes (ha : a.reals? = some g)
    (hw : Kernel.sum a (axis.map Dual.embed) = .ok w) (hdy : dy.IsCotangent w)
    (hout : sumAdjoint (a.map Dual.re) dy axis = .ok out) :
    out.IsCotangent a ∧ out.pairing a = dy.pairing w := by
  have han := numbers?_of_reals? ha
  unfold Kernel.sum at hw
  rw [total_reals ha, axes_map Dual.hom_embed] at hw
  obtain ⟨ks, hks, hw⟩ := bind_eq_ok.mp hw
  have hwr : w.reals? = some (g.sumAlong ks) := by
    rw [← pure_eq_ok.mp hw]
    exact reals?_reduced _
  obtain ⟨d, hd, hcotangent⟩ := hdy.grid (numbers?_of_reals? hwr)
  rw [Grid.shape_sumAlong] at hcotangent
  obtain ⟨e, he, hes, heat⟩ := expandReduced_reals hd (shape_map_re han) hks
    (hcotangent.imp_right And.left) hout
  refine ⟨isCotangent_of_shape_eq he han hes, ?_⟩
  rw [pairing_eq he han, pairing_eq hd (numbers?_of_reals? hwr), Grid.pairing_of_shape_eq hes]
  have htotal := Grid.total_sumAlong Dual.additive_eps g (axes_eq_ok hks).1 d.spread
  calc g.shape.total (fun i => e.at i * (g.at i).eps)
      = g.shape.total fun i => (g.at i).eps * d.spread (eraseAll ks i) :=
        Shape.total_congr fun i hi => by rw [heat i hi, mul_comm]
    _ = (g.sumAlong ks).shape.total fun i => ((g.sumAlong ks).at i).eps * d.spread i := htotal.symm
    _ = d.pairing (g.sumAlong ks) := Shape.total_congr fun i _ => mul_comm ..

/-- A mean of real values answers the sums divided by the product of the gathered extents. -/
theorem average_eq_ok {F : Type} [Arith F] {x axis v : Value F} {g : Grid F}
    (hx : x.reals? = some g) (hv : x.average axis = .ok v) :
    ∃ ks u, axis.axes g.rank = .ok ks ∧ u.shape = eraseAll ks g.shape ∧ v.reals? = some u ∧
      Grid.zipWith? Arith.div (g.sumAlong ks)
        (.single (Arith.ofInt ((ks.map fun k => g.shape.getD k 0).prod : Nat))) = some u := by
  rw [average_reals hx] at hv
  obtain ⟨count, hcount, hv⟩ := bind_eq_ok.mp hv
  obtain ⟨ks, hks, hv⟩ := bind_eq_ok.mp hv
  obtain ⟨u, hu, hv⟩ := bind_eq_ok.mp hv
  have hu := ofOption_eq_ok.mp hu
  have hprod := gatheredCount_eq hks hcount
  refine ⟨ks, u, hks, ?_, ?_, hprod ▸ hu⟩
  · exact (shape_zipWith?_of_fits hu (Shape.fits_nil _)).trans (Grid.shape_sumAlong g ks)
  · rw [← pure_eq_ok.mp hv]
    exact reals?_reduced u

theorem meanAdjoint_transposes (ha : a.reals? = some g)
    (hw : mean a (axis.map Dual.embed) = .ok w) (hdy : dy.IsCotangent w)
    (hout : meanAdjoint (a.map Dual.re) dy axis = .ok out) :
    out.IsCotangent a ∧ out.pairing a = dy.pairing w := by
  have han := numbers?_of_reals? ha
  have har : (a.map Dual.re).reals? = some (g.map Dual.re) := by rw [reals?_map, ha]; rfl
  obtain ⟨ks, u, hks, hus, hwr, hu⟩ := average_eq_ok ha hw
  rw [axes_map Dual.hom_embed] at hks
  have hplaces := (axes_eq_ok hks).1
  obtain ⟨d, hd, hcotangent⟩ := hdy.grid (numbers?_of_reals? hwr)
  rw [hus] at hcotangent
  -- The adjoint divides the stretched derivative by the number of members for each of the result's.
  unfold meanAdjoint at hout
  obtain ⟨result, hresult, hout⟩ := bind_eq_ok.mp hout
  obtain ⟨ks', v, hks', hvs, hresultr, -⟩ := average_eq_ok har hresult
  have hsame : (.ok ks : Fallible (List Nat)) = .ok ks' := hks.symm.trans hks'
  cases hsame
  obtain ⟨m, hm, hout⟩ := bind_eq_ok.mp hout
  obtain ⟨n, hn, hout⟩ := bind_eq_ok.mp hout
  have hm : g.shape.size = m := by
    unfold Value.size at hm
    rw [shape_map_re han] at hm
    exact pure_eq_ok.mp hm
  have hn : Shape.size (eraseAll ks g.shape) = n := by
    unfold Value.size at hn
    rw [shape_of_reals? hresultr, hvs] at hn
    exact pure_eq_ok.mp hn
  obtain ⟨wide, hwide, hout⟩ := bind_eq_ok.mp hout
  obtain ⟨e, he, hes, heat⟩ := expandReduced_reals hd (shape_map_re han) hks
    (hcotangent.imp_right And.left) hwide
  obtain ⟨f, hf, hfr⟩ := operate_eq_ok (numbers?_of_reals? he)
    (b := .integer ((m / max n 1 : Nat) : Int)) rfl (.inl (by rw [he]; rfl)) hout
  have hfs : f.shape = g.shape := (shape_zipWith?_of_fits hf (Shape.fits_nil _)).trans hes
  refine ⟨isCotangent_of_shape_eq hfr han hfs, ?_⟩
  rw [pairing_eq hfr han, pairing_eq hd (numbers?_of_reals? hwr)]
  have hsize := Shape.size_eraseAll hplaces
  by_cases hempty : n = 0
  · -- Neither the operand nor the result has a member.
    have hgz : g.shape.size = 0 := by rw [hsize, hn, hempty, Nat.mul_zero]
    have huz : u.shape.size = 0 := by rw [hus, hn, hempty]
    unfold Grid.pairing
    rw [Shape.total_of_size_eq_zero hgz, Shape.total_of_size_eq_zero huz]
  -- Otherwise the number of members for each of the result's is the product of the extents.
  · set c := (ks.map fun k => g.shape.getD k 0).prod with hc
    have hcount : m / max n 1 = c := by
      rw [← hm, hsize, hn, Nat.max_eq_left (by omega), Nat.mul_div_cancel _ (by omega)]
    rw [hcount] at hf
    have hfat : ∀ i ∈ g.shape.indices, f.spread i = d.spread (eraseAll ks i) / c := by
      intro i hi
      rw [Grid.spread_zipWith? hf (hfs ▸ Shape.Fits.refl _) hi, Grid.spread_single,
        Grid.spread_of_mem (hes ▸ hi), heat i hi]
      change Arith.div _ (Arith.ofInt (c : Int)) = _
      rw [ExactArith.div_eq, ExactArith.ofInt_eq, Int.cast_natCast]
    -- A quotient by a constant has the quotient of the derivatives as its derivative.
    have huat : ∀ i ∈ u.shape.indices, (u.at i).eps = ((g.sumAlong ks).at i).eps / c := by
      intro i hi
      have hmem : i ∈ (g.sumAlong ks).shape.indices := by
        rw [Grid.shape_sumAlong, ← hus]
        exact hi
      rw [Grid.zipWith?_at .div hu hi, Grid.spread_single, Grid.spread_of_mem hmem]
      change (((g.sumAlong ks).at i).eps * Arith.ofInt (c : Int) - ((g.sumAlong ks).at i).re * 0)
        / (Arith.ofInt (c : Int) * Arith.ofInt (c : Int)) = _
      rw [ExactArith.ofInt_eq, Int.cast_natCast, mul_zero, sub_zero]
      by_cases hzero : (c : K) = 0
      · simp [hzero]
      · field_simp
    have htotal := Grid.total_sumAlong Dual.additive_eps g hplaces fun i => d.spread i / c
    calc f.pairing g
        = g.shape.total fun i => (g.at i).eps * (d.spread (eraseAll ks i) / c) :=
          Shape.total_congr fun i hi => by rw [hfat i hi, mul_comm]
      _ = (g.sumAlong ks).shape.total
            fun i => ((g.sumAlong ks).at i).eps * (d.spread i / c) := htotal.symm
      _ = d.pairing u := by
          rw [Grid.shape_sumAlong, ← hus]
          refine Shape.total_congr fun i hi => ?_
          rw [huat i hi]
          ring

end Kernel

end SlotGrad
