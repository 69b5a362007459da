import SlotGrad.Proofs.DerivativeSums
import SlotGrad.Proofs.Structure

/-!
# Roots joined into a vector

The layer that joins several roots writes their members one after another, each root's in
row-major order.  Its adjoint undoes this: the derivative of the vector is cut where the roots
were joined, and every part is given the shape of its root.

## Main definitions

* `Grid.Concatenates`, `Value.Concatenates` — a vector of the elements of grids, or of values.

## Main results

* `Kernel.roots_eq_ok` — what the layer computes, and when.
* `Kernel.exists_rootsAdjoint` — what its adjoint answers for a derivative that is a vector.
-/

namespace SlotGrad

/-! ### Vectors -/

namespace Grid

section

variable {α : Type}

/-- A vector of the elements of some grids, one grid after another. -/
structure Concatenates (gs : List (Grid α)) (w : Grid α) : Prop where
  /-- There is one axis. -/
  shape : w.shape = [(gs.map size).sum]
  /-- The elements are those of the grids, each read in row-major order. -/
  elements : w.toList = gs.flatMap toList

theorem ext_toList {a b : Grid α} (hs : a.shape = b.shape) (h : a.toList = b.toList) : a = b := by
  obtain ⟨s, xs, hsize⟩ := a
  obtain ⟨t, ys, hsize'⟩ := b
  cases hs
  cases Array.toList_inj.mp h
  rfl

theorem Concatenates.unique {gs : List (Grid α)} {v w : Grid α} (hv : Concatenates gs v)
    (hw : Concatenates gs w) : v = w :=
  ext_toList (hv.shape.trans hw.shape.symm) (hv.elements.trans hw.elements.symm)

theorem length_toList (g : Grid α) : g.toList.length = g.size := Array.length_toList

/-- The elements of a vector that is given by its elements. -/
theorem toList_ofFn_vector (n : Nat) (f : List Nat → α) :
    (ofFn [n] f).toList = (List.range n).map fun j => f [j] := by
  simp [ofFn, toList, Function.comp_def, ← List.map_eq_flatMap]

variable [Inhabited α]

/-- A vector is read at a place of its list. -/
theorem at_vector {g : Grid α} {n : Nat} (h : g.shape = [n]) (j : Nat) :
    g.at [j] = (g.toList[j]?).getD default := by
  unfold «at» toList
  rw [h]
  simp [Shape.ravel, Array.getD_eq_getD_getElem?]

/-- Joined vectors are read in the list of all elements. -/
theorem atJoined_flatten (x : Nat) : ∀ (gs : List (Grid α)) (j : Nat),
    atJoined 0 [x] (gs.map flatten) j = ((gs.flatMap toList)[j]?).getD default
  | [], _ => rfl
  | g :: gs, j => by
    rw [List.map_cons, atJoined_cons, List.flatMap_cons]
    have hextent : g.flatten.shape.getD 0 0 = g.toList.length := (length_toList g).symm
    rw [hextent]
    split
    · rw [List.getElem?_append_left ‹_›]
      exact at_vector (g := g.flatten) rfl j
    · rw [List.getElem?_append_right (Nat.le_of_not_lt ‹_›)]
      exact atJoined_flatten x gs _

/-- **Flattened grids are joined into the vector of their elements.** -/
theorem exists_join?_flatten {gs : List (Grid α)} (hne : gs ≠ []) :
    ∃ w, join? 0 (gs.map flatten) = some w ∧ Concatenates gs w := by
  obtain ⟨g, gs, rfl⟩ := List.exists_cons_of_ne_nil hne
  have hall : (gs.map flatten).all (fun b => b.rank = g.flatten.rank ∧
      crossSection 0 b.shape = crossSection 0 g.flatten.shape) = true := by
    rw [List.all_eq_true]
    intro b hb
    obtain ⟨b, -, rfl⟩ := List.mem_map.mp hb
    rfl
  have htotal : (g.flatten :: gs.map flatten).foldl (fun n b => n + b.shape.getD 0 0) 0
      = ((g :: gs).map size).sum := by
    rw [foldl_extents, Nat.zero_add, ← List.map_cons, extentSum, List.map_map]
    rfl
  unfold join?
  rw [List.map_cons]
  dsimp only
  rw [if_pos ⟨Nat.one_pos, hall⟩, htotal]
  refine ⟨_, rfl, rfl, ?_⟩
  have hlength : ((g :: gs).map size).sum = ((g :: gs).flatMap toList).length := by
    rw [List.length_flatMap]
    exact congrArg List.sum (List.map_congr_left fun b _ => (length_toList b).symm)
  change (ofFn [((g :: gs).map size).sum] _).toList = _
  rw [toList_ofFn_vector, hlength]
  refine List.ext_getElem (by simp) fun j hj hj' => ?_
  rw [List.getElem_map, List.getElem_range]
  exact (atJoined_flatten j (g :: gs) j).trans (by rw [List.getElem?_eq_getElem hj']; rfl)

end

section

variable {α β : Type} [Inhabited β]

/-- The elements of a run of a vector. -/
theorem toList_layers {d : Grid β} {n : Nat} (hd : d.shape = [n]) {start count : Nat}
    (h : start + count ≤ n) :
    (d.layers 0 start count).toList = (d.toList.drop start).take count := by
  have hlength : d.toList.length = n := by
    rw [length_toList, size, d.size_eq, hd, Shape.size_cons, Shape.size_nil, Nat.mul_one]
  unfold layers
  rw [hd]
  change (ofFn [count] _).toList = _
  rw [toList_ofFn_vector]
  refine List.ext_getElem (by simp; omega) fun j hj hj' => ?_
  have hlt : start + j < d.toList.length := by
    simp at hj
    omega
  rw [List.getElem_map, List.getElem_range, List.getElem_take, List.getElem_drop]
  change d.at [j + start] = _
  rw [at_vector hd, Nat.add_comm j start, List.getElem?_eq_getElem hlt]
  rfl

/-- The runs that belong to grids one after another have the sizes of these grids, and their
elements. -/
theorem partsOf_flatten {d : Grid β} {n : Nat} (hd : d.shape = [n]) {f : β → α} :
    ∀ {gs : List (Grid α)} {start : Nat}, (d.toList.drop start).map f = gs.flatMap toList →
      start ≤ n →
      List.Forall₂ (fun p g => p.toList.map f = g.toList) (partsOf 0 d start (gs.map flatten)) gs
  | [], _, _, _ => .nil
  | g :: gs, start, h, hstart => by
    have hlength : d.toList.length = n := by
      rw [length_toList, size, d.size_eq, hd, Shape.size_cons, Shape.size_nil, Nat.mul_one]
    have hextent : g.flatten.shape.getD 0 0 = g.toList.length := (length_toList g).symm
    rw [List.flatMap_cons] at h
    have hle : start + g.toList.length ≤ n := by
      have := congrArg List.length h
      rw [List.length_map, List.length_drop, List.length_append, hlength] at this
      omega
    rw [List.map_cons, partsOf, hextent]
    refine .cons ?_ (partsOf_flatten hd ?_ hle)
    · rw [toList_layers hd hle, List.map_take, h, List.take_left]
    · rw [← List.drop_drop, List.map_drop, h, List.drop_left]

end

end Grid

/-! ### The kernel -/

section

variable {F : Type} [Arith F]

/-- An array of the members of some values, one value after another: as numbers of the common
element type if all members are numbers, and as objects otherwise. -/
def Value.Concatenates (vs : List (Value F)) (w : Value F) : Prop :=
  ∃ cs, vs.mapM Value.contents = .ok cs ∧
    ((∃ ts g, cs = ts.map .numbers ∧ w = .array ⟨Tensor.commonDtype ts, g⟩ ∧
        Grid.Concatenates (ts.map fun t => t.gridAs (Tensor.commonDtype ts)) g) ∨
      (∃ c ∈ cs, c.tensor? = Option.none) ∧ ∃ g, w = .objects g.shape g.toList ∧
        Grid.Concatenates (cs.map Contents.toObjects) g)

/-- Elements are converted in the same way in a vector. -/
theorem Tensor.gridAs_flatten (t : Tensor F) (d : Dtype) :
    t.flatten.gridAs d = (t.gridAs d).flatten := by
  obtain ⟨e, g⟩ := t
  by_cases hd : e = d
  · subst hd
    exact (gridAs_self e g.flatten).trans (congrArg Grid.flatten (gridAs_self e g).symm)
  · refine (dif_neg (c := e = d) hd).trans ?_
    rw [show gridAs ⟨e, g⟩ d = g.map (Elem.convert e d) from dif_neg hd]
    exact Grid.ext_toList (congrArg (fun n => [n]) (Array.size_map ..).symm) rfl

namespace Contents

omit [Arith F] in
/-- Contents are all numbers, or one of them is not. -/
theorem all_numbers_or (cs : List (Contents F)) :
    (∃ ts : List (Tensor F), cs = ts.map .numbers) ∨ ∃ c ∈ cs, c.tensor? = none := by
  induction cs with
  | nil => exact .inl ⟨[], rfl⟩
  | cons c cs ih =>
    cases hc : c.tensor? with
    | none => exact .inr ⟨c, List.mem_cons_self .., hc⟩
    | some t =>
      obtain rfl : c = .numbers t := by
        cases c <;> cases hc
        rfl
      rcases ih with ⟨ts, rfl⟩ | ⟨d, hd, hnone⟩
      · exact .inl ⟨t :: ts, rfl⟩
      · exact .inr ⟨d, List.mem_cons_of_mem _ hd, hnone⟩

theorem exists_join_numbers {ts : List (Tensor F)} (hne : ts ≠ []) :
    ∃ g, join 0 ((ts.map numbers).map flatten) = .ok (.numbers ⟨Tensor.commonDtype ts, g⟩) ∧
      Grid.Concatenates (ts.map fun t => t.gridAs (Tensor.commonDtype ts)) g := by
  have hdtype : Tensor.commonDtype (ts.map Tensor.flatten) = Tensor.commonDtype ts := by
    unfold Tensor.commonDtype
    rw [List.foldl_map]
    rfl
  have hnumbers : ((ts.map numbers).map flatten).filterMap tensor? = ts.map Tensor.flatten := by
    rw [List.map_map, List.filterMap_map]
    exact congrFun (List.filterMap_eq_map (f := Tensor.flatten)) ts
  have hgrids : (ts.map Tensor.flatten).map (fun t => t.gridAs (Tensor.commonDtype ts))
      = (ts.map fun t => t.gridAs (Tensor.commonDtype ts)).map Grid.flatten := by
    rw [List.map_map, List.map_map]
    exact List.map_congr_left fun t _ => Tensor.gridAs_flatten t _
  have hne' : (ts.map fun t => t.gridAs (Tensor.commonDtype ts)) ≠ [] := by simpa using hne
  obtain ⟨g, hg, hconcat⟩ := Grid.exists_join?_flatten hne'
  refine ⟨g, ?_, hconcat⟩
  unfold join Tensor.join
  rw [hnumbers, if_pos (by simp), hdtype]
  dsimp only
  rw [hgrids, hg]
  rfl

theorem exists_join_objects {cs : List (Contents F)} (h : ∃ c ∈ cs, c.tensor? = none) :
    ∃ g, join 0 (cs.map flatten) = .ok (.objects g) ∧
      Grid.Concatenates (cs.map toObjects) g := by
  obtain ⟨c, hc, hnone⟩ := h
  have hflat : ∀ c : Contents F, c.flatten.tensor?.isSome = c.tensor?.isSome := by
    intro c
    cases c <;> rfl
  have hfewer : ((cs.map flatten).filterMap tensor?).length ≠ (cs.map flatten).length := by
    intro hall
    have hsome := List.filterMap_length_eq_length.mp hall c.flatten (List.mem_map_of_mem hc)
    rw [hflat, hnone] at hsome
    cases hsome
  have hgrids : (cs.map flatten).map toObjects = (cs.map toObjects).map Grid.flatten := by
    rw [List.map_map, List.map_map]
    refine List.map_congr_left fun c _ => ?_
    refine Grid.ext_toList ?_ ?_
    · cases c with
      | objects g => rfl
      | _ => exact congrArg (fun n => [n]) (Array.size_map ..).symm
    · cases c <;> rfl
  have hne : cs.map toObjects ≠ [] := List.ne_nil_of_mem (List.mem_map_of_mem hc)
  obtain ⟨g, hg, hconcat⟩ := Grid.exists_join?_flatten hne
  refine ⟨g, ?_, hconcat⟩
  unfold join
  dsimp only
  rw [if_neg hfewer, hgrids, hg]

end Contents

/-- Values have one concatenation. -/
theorem Value.Concatenates.unique {vs : List (Value F)} {v w : Value F} (hv : Concatenates vs v)
    (hw : Concatenates vs w) : v = w := by
  obtain ⟨cs, hcs, hv⟩ := hv
  obtain ⟨cs', hcs', hw⟩ := hw
  rw [hcs] at hcs'
  cases hcs'
  -- Either contents are all numbers, or they are not.
  have hnumbers : ∀ ts : List (Tensor F), ¬ ∃ c ∈ ts.map Contents.numbers,
      c.tensor? = Option.none := by
    rintro ts ⟨c, hc, hnone⟩
    obtain ⟨t, -, rfl⟩ := List.mem_map.mp hc
    cases hnone
  rcases hv with ⟨ts, g, rfl, rfl, hg⟩ | ⟨hother, g, rfl, hg⟩
  · rcases hw with ⟨ts', g', hts, rfl, hg'⟩ | ⟨hother, -⟩
    · obtain rfl : ts = ts' := List.map_injective_iff.mpr (fun _ _ h => Contents.numbers.inj h) hts
      rw [hg.unique hg']
    · exact absurd hother (hnumbers ts)
  · rcases hw with ⟨ts', g', rfl, -⟩ | ⟨-, g', rfl, hg'⟩
    · exact absurd hother (hnumbers ts')
    · rw [hg.unique hg']

namespace Kernel

/-- Values that can be read as arrays are joined. -/
theorem exists_roots {vs : List (Value F)} (hne : vs ≠ []) {cs : List (Contents F)}
    (hcs : vs.mapM Value.contents = .ok cs) : ∃ w, roots vs = .ok w ∧ Value.Concatenates vs w := by
  unfold roots allContents
  rw [hcs]
  rcases Contents.all_numbers_or cs with ⟨ts, rfl⟩ | hother
  · have hts : ts ≠ [] := by
      rintro rfl
      exact hne (List.forall₂_nil_right_iff.mp (mapM_eq_ok.mp hcs))
    obtain ⟨g, hjoin, hg⟩ := Contents.exists_join_numbers hts
    exact ⟨_, bind_eq_ok.mpr ⟨_, rfl, bind_eq_ok.mpr ⟨_, hjoin, rfl⟩⟩, _, hcs,
      .inl ⟨ts, g, rfl, rfl, hg⟩⟩
  · obtain ⟨g, hjoin, hg⟩ := Contents.exists_join_objects hother
    exact ⟨_, bind_eq_ok.mpr ⟨_, rfl, bind_eq_ok.mpr ⟨_, hjoin, rfl⟩⟩, _, hcs,
      .inr ⟨hother, g, rfl, hg⟩⟩

/-- **The layer that joins values computes their concatenation.** -/
theorem roots_eq_ok {vs : List (Value F)} (hne : vs ≠ []) {w : Value F} :
    roots vs = .ok w ↔ Value.Concatenates vs w := by
  constructor
  · intro h
    obtain ⟨cs, hcs, -⟩ := bind_eq_ok.mp h
    obtain ⟨w', hw', hconcat⟩ := exists_roots hne hcs
    rw [h] at hw'
    cases hw'
    exact hconcat
  · intro h
    obtain ⟨cs, hcs, -⟩ := id h
    obtain ⟨w', hw', hconcat⟩ := exists_roots hne hcs
    rw [h.unique hconcat]
    exact hw'

/-- The part of a vector of numbers that belongs to a value, under the value's shape. -/
theorem exists_reshape {d : Dtype} {p : Grid (Elem F d)} {g : Grid F} {v : Value F}
    (hp : p.toList.map (Elem.toReal d) = g.toList) (hv : v.shape = .ok g.shape) :
    ∃ o, (do return Value.ofContents (← Contents.reshape (← v.shape) (.numbers ⟨d, p⟩)) :
      Fallible (Value F)) = .ok o ∧ o.figures? = some g := by
  have hsize : g.shape.size = p.shape.size := by
    rw [← g.size_eq, ← p.size_eq, ← Array.length_toList, ← Array.length_toList]
    exact (congrArg List.length hp).symm.trans (List.length_map ..)
  obtain ⟨q, hq, hdata⟩ : ∃ q, p.reshape? g.shape = some q ∧ q.toList = p.toList := by
    unfold Grid.reshape?
    rw [dif_pos hsize]
    exact ⟨_, rfl, rfl⟩
  refine ⟨.array ⟨d, q⟩, ?_, congrArg some (Grid.ext_toList ?_ ?_)⟩
  · rw [hv]
    unfold Contents.reshape Contents.restructure
    simp only [bind, Except.bind, hq, Fallible.ofOption_some, pure, Except.pure]
    rfl
  · exact (Grid.shape_reshape? hq : q.shape = g.shape)
  · change (q.data.map (Elem.toReal d)).toList = _
    rw [Array.toList_map]
    exact (congrArg _ hdata).trans hp

/-- The parts of a vector of numbers, each under the shape of its value. -/
theorem exists_reshapeParts {d : Dtype} {ps : List (Grid (Elem F d))} {gs : List (Grid F)}
    (hps : List.Forall₂ (fun p g => p.toList.map (Elem.toReal d) = g.toList) ps gs) :
    ∀ {vs : List (Value F)}, List.Forall₂ (fun v g => v.shape = .ok g.shape) vs gs →
      ∃ outs, reshapeParts (ps.map fun p => .numbers ⟨d, p⟩) vs = .ok outs ∧
        List.Forall₂ (fun o g => o.figures? = some g) outs gs := by
  induction hps with
  | nil =>
    intro vs hvs
    cases hvs
    exact ⟨[], rfl, .nil⟩
  | @cons p g ps gs hp _ ih =>
    intro vs hvs
    obtain _ | ⟨hv, hvs⟩ := hvs
    obtain ⟨o, ho, hfigures⟩ := exists_reshape hp hv
    obtain ⟨outs, houts, hall⟩ := ih hvs
    refine ⟨o :: outs, ?_, .cons hfigures hall⟩
    unfold reshapeParts at houts ⊢
    rw [List.map_cons, List.zip_cons_cons, List.mapM_cons]
    exact bind_eq_ok.mpr ⟨o, ho, bind_eq_ok.mpr ⟨outs, houts, rfl⟩⟩

/-- **The adjoint cuts a vector where the values were joined**: it answers one part for each value,
under the shape of the value. -/
theorem exists_rootsAdjoint {vs : List (Value F)} {gs : List (Grid F)} (hne : vs ≠ [])
    (hvs : List.Forall₂ (fun v g => v.shape = .ok g.shape) vs gs) {s : Value F} {u : Grid F}
    (hs : s.figures? = some u) (hu : Grid.Concatenates gs u) :
    ∃ outs, rootsAdjoint (vs ++ [s]) = .ok (.tuple outs) ∧
      List.Forall₂ (fun o g => o.figures? = some g) outs gs := by
  -- A value that stands for a vector is a tensor.
  obtain ⟨t, ht, rfl⟩ : ∃ t : Tensor F, s.contents = .ok (.numbers t) ∧ u = t.toReals := by
    rcases Value.figures?_eq_some hs with ⟨-, x, -, -, rfl⟩ | ⟨t, -, -, ht, -, rfl⟩
    · cases hu.shape
    · exact ⟨t, ht, rfl⟩
  obtain ⟨d, g⟩ := t
  have hshape : g.shape = [(gs.map Grid.size).sum] := hu.shape
  have hgs : gs ≠ [] := fun h => hne (List.forall₂_nil_right_iff.mp (h ▸ hvs))
  have hsizes : vs.mapM Value.size = .ok ((gs.map Grid.flatten).map fun g => g.shape.getD 0 0) := by
    rw [mapM_eq_ok, List.map_map, List.forall₂_map_right_iff]
    refine hvs.imp fun v g hv => ?_
    unfold Value.size
    rw [hv]
    exact congrArg Except.ok g.size_eq.symm
  have hcut : g.flatten.cut 0 (cuttingPoints ((gs.map Grid.flatten).map fun g => g.shape.getD 0 0))
      = Grid.partsOf 0 g.flatten 0 (gs.map Grid.flatten) := by
    refine Grid.cut_cuttingPoints (by simpa using hgs) ?_
    unfold Grid.extentSum
    rw [List.map_map]
    change g.data.size = _
    rw [g.size_eq, hshape, Shape.size_cons, Shape.size_nil, Nat.mul_one]
    rfl
  have hparts : List.Forall₂ (fun p g => p.toList.map (Elem.toReal d) = g.toList)
      (Grid.partsOf 0 g.flatten 0 (gs.map Grid.flatten)) gs := by
    refine Grid.partsOf_flatten rfl ?_ (Nat.zero_le _)
    rw [List.drop_zero, ← hu.elements]
    exact Array.toList_map.symm
  obtain ⟨outs, houts, hall⟩ := exists_reshapeParts hparts hvs
  refine ⟨outs, ?_, hall⟩
  have hcontents : (Contents.numbers ⟨d, g⟩ : Contents F).flatten.cut 0
      (cuttingPoints ((gs.map Grid.flatten).map fun g => g.shape.getD 0 0))
        = (Grid.partsOf 0 g.flatten 0 (gs.map Grid.flatten)).map fun p => .numbers ⟨d, p⟩ := by
    rw [← hcut]
    exact List.map_map ..
  have haxes : ¬ (Contents.numbers ⟨d, g⟩ : Contents F).shape = [] := by
    change ¬ g.shape = []
    rw [hshape]
    exact List.cons_ne_nil _ _
  unfold rootsAdjoint
  rw [List.getLast?_concat, List.dropLast_concat]
  simp only [Fallible.ofOption_some, bind, Except.bind, ht, if_neg haxes, hsizes, hcontents, houts,
    pure, Except.pure]

end Kernel

end

end SlotGrad
