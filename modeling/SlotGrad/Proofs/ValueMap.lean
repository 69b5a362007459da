import SlotGrad.Kernel.Layout
import SlotGrad.Kernel.Reduction
import SlotGrad.Proofs.Completion
import SlotGrad.Proofs.Dual

/-!
# Values over another number system

A function between number systems is applied to a value by applying it to every real number in it.
What a value says as an axis, a shape or an index depends on integers, flags and truth of numbers
only, so a function that keeps the operations of number systems keeps it.

## Main definitions

* `Elem.map`, `Tensor.map`, `Contents.map`, `Value.map` — a function applied to all real numbers.

## Main results

* `Value.contents_map` — values read as arrays.
* `Value.axes_map`, `Value.picks_map`, `Kernel.extents_map` — axis, index and shape arguments.
-/

namespace SlotGrad

variable {F G : Type}

/-! ### Elements and tensors -/

/-- A function on real numbers applied to an element. -/
def Elem.map (φ : F → G) : (d : Dtype) → Elem F d → Elem G d
  | .bool, b => b
  | .int32, n => n
  | .int64, n => n
  | .float32, x => φ x
  | .float64, x => φ x

/-- A function on real numbers applied to all elements. -/
def Tensor.map (φ : F → G) (t : Tensor F) : Tensor G := ⟨t.dtype, t.grid.map (Elem.map φ t.dtype)⟩

mutual

/-- A function on real numbers applied to all numbers in a value. -/
def Value.map (φ : F → G) : Value F → Value G
  | .none => .none
  | .flag b => .flag b
  | .integer n => .integer n
  | .real x => .real (φ x)
  | .text s => .text s
  | .list xs => .list (mapMembers φ xs)
  | .tuple xs => .tuple (mapMembers φ xs)
  | .dict es => .dict (mapEntries φ es)
  | .slice a b c => .slice (a.map φ) (b.map φ) (c.map φ)
  | .ellipsis => .ellipsis
  | .array t => .array (t.map φ)
  | .scalar d x => .scalar d (Elem.map φ d x)
  | .device t => .device (t.map φ)
  | .objects s xs => .objects s (mapMembers φ xs)
  | .node h => .node h
  | .function f => .function f
  | .op o => .op o
  | .other => .other

/-- A function on real numbers applied to all numbers in some values. -/
def Value.mapMembers (φ : F → G) : List (Value F) → List (Value G)
  | [] => []
  | x :: xs => x.map φ :: mapMembers φ xs

/-- A function on real numbers applied to all numbers in the entries of a dictionary. -/
def Value.mapEntries (φ : F → G) : List (Value F × Value F) → List (Value G × Value G)
  | [] => []
  | (k, v) :: es => (k.map φ, v.map φ) :: mapEntries φ es

end

theorem Value.mapMembers_eq (φ : F → G) (xs : List (Value F)) :
    mapMembers φ xs = xs.map (Value.map φ) := by
  induction xs with
  | nil => rfl
  | cons x xs ih => rw [mapMembers, ih, List.map_cons]

section

variable {φ : F → G} {ψ : G → F}

theorem Tensor.map_map_cancel (h : ∀ x, ψ (φ x) = x) (t : Tensor F) : (t.map φ).map ψ = t := by
  have helem : ∀ (d : Dtype) (x : Elem F d), Elem.map ψ d (Elem.map φ d x) = x := by
    intro d x
    cases d <;> first | rfl | exact h x
  obtain ⟨d, g⟩ := t
  unfold Tensor.map
  dsimp only
  rw [Grid.map_map]
  congr 1
  simp only [helem]
  unfold Grid.map
  simp

mutual

/-- A function that another one undoes is undone in every value. -/
theorem Value.map_map_cancel (h : ∀ x, ψ (φ x) = x) : ∀ v : Value F, (v.map φ).map ψ = v
  | .none => rfl
  | .flag _ => rfl
  | .integer _ => rfl
  | .real x => congrArg Value.real (h x)
  | .text _ => rfl
  | .list xs => congrArg Value.list (Value.mapMembers_cancel h xs)
  | .tuple xs => congrArg Value.tuple (Value.mapMembers_cancel h xs)
  | .dict es => congrArg Value.dict (Value.mapEntries_cancel h es)
  | .slice a b c => by
    change Value.slice ((a.map φ).map ψ) ((b.map φ).map ψ) ((c.map φ).map ψ) = _
    rw [Value.map_map_cancel h a, Value.map_map_cancel h b, Value.map_map_cancel h c]
  | .ellipsis => rfl
  | .array t => congrArg Value.array (Tensor.map_map_cancel h t)
  | .scalar d x => by
    cases d with
    | float32 => exact congrArg (Value.scalar .float32) (h x)
    | float64 => exact congrArg (Value.scalar .float64) (h x)
    | _ => rfl
  | .device t => congrArg Value.device (Tensor.map_map_cancel h t)
  | .objects s xs => congrArg (Value.objects s) (Value.mapMembers_cancel h xs)
  | .node _ => rfl
  | .function _ => rfl
  | .op _ => rfl
  | .other => rfl

theorem Value.mapMembers_cancel (h : ∀ x, ψ (φ x) = x) :
    ∀ xs : List (Value F), Value.mapMembers ψ (Value.mapMembers φ xs) = xs
  | [] => rfl
  | x :: xs => congrArg₂ List.cons (Value.map_map_cancel h x) (Value.mapMembers_cancel h xs)

theorem Value.mapEntries_cancel (h : ∀ x, ψ (φ x) = x) :
    ∀ es : List (Value F × Value F), Value.mapEntries ψ (Value.mapEntries φ es) = es
  | [] => rfl
  | (k, v) :: es => congrArg₂ List.cons
      (congrArg₂ Prod.mk (Value.map_map_cancel h k) (Value.map_map_cancel h v))
      (Value.mapEntries_cancel h es)

end

end

/-- A function on real numbers applied to all numbers in contents. -/
def Contents.map (φ : F → G) : Contents F → Contents G
  | .numbers t => .numbers (t.map φ)
  | .texts g => .texts g
  | .objects g => .objects (g.map (Value.map φ))

section

variable [Arith F] [Arith G] {φ : F → G}

omit [Arith F] [Arith G] in
@[simp] theorem Tensor.dtype_map (φ : F → G) (t : Tensor F) : (t.map φ).dtype = t.dtype := rfl

omit [Arith F] [Arith G] in
@[simp] theorem Tensor.shape_map (φ : F → G) (t : Tensor F) : (t.map φ).shape = t.shape := rfl

omit [Arith F] [Arith G] in
@[simp] theorem Tensor.rank_map (φ : F → G) (t : Tensor F) : (t.map φ).rank = t.rank := rfl

omit [Arith F] [Arith G] in
@[simp] theorem Contents.shape_map (φ : F → G) (c : Contents F) : (c.map φ).shape = c.shape := by
  cases c <;> rfl

theorem Elem.map_zero (h : Arith.Hom φ) (d : Dtype) :
    Elem.map φ d (Elem.zero d) = Elem.zero d := by
  cases d with
  | float32 => exact h.ofInt 0
  | float64 => exact h.ofInt 0
  | _ => rfl

theorem Elem.toInt_map (h : Arith.Hom φ) (d : Dtype) (x : Elem F d) :
    Elem.toInt d (Elem.map φ d x) = Elem.toInt d x := by
  cases d with
  | float32 => exact h.truncate x
  | float64 => exact h.truncate x
  | _ => rfl

theorem Elem.toReal_map (h : Arith.Hom φ) (d : Dtype) (x : Elem F d) :
    Elem.toReal d (Elem.map φ d x) = φ (Elem.toReal d x) := by
  cases d with
  | bool => exact (h.ofInt _).symm
  | int32 => exact (h.ofInt _).symm
  | int64 => exact (h.ofInt _).symm
  | _ => rfl

theorem Elem.isTrue_map (h : Arith.Hom φ) (d : Dtype) (x : Elem F d) :
    Elem.isTrue d (Elem.map φ d x) = Elem.isTrue d x := by
  have hreal : ∀ y : F, (!Arith.same (φ y) (Arith.ofInt 0)) = !Arith.same y (Arith.ofInt 0) := by
    intro y
    rw [← h.ofInt, h.same]
  cases d with
  | float32 => exact hreal x
  | float64 => exact hreal x
  | _ => rfl

theorem Elem.convert_map (h : Arith.Hom φ) (source target : Dtype) (x : Elem F source) :
    Elem.convert source target (Elem.map φ source x)
      = Elem.map φ target (Elem.convert source target x) := by
  unfold Elem.convert
  by_cases hst : source = target
  · subst hst
    rw [dif_pos rfl, dif_pos rfl]
  · rw [dif_neg hst, dif_neg hst]
    cases target with
    | bool => exact Elem.isTrue_map h source x
    | int32 => exact congrArg Int32.ofInt (Elem.toInt_map h source x)
    | int64 => exact congrArg Int64.ofInt (Elem.toInt_map h source x)
    | float32 =>
      change Arith.toSingle (Elem.toReal source (Elem.map φ source x))
        = φ (Arith.toSingle (Elem.toReal source x))
      rw [Elem.toReal_map h, h.toSingle]
    | float64 => exact Elem.toReal_map h source x

theorem Tensor.at_map (h : Arith.Hom φ) (t : Tensor F) (i : List Nat) :
    (t.map φ).grid.at i = Elem.map φ t.dtype (t.grid.at i) :=
  Grid.at_map (Elem.map_zero h t.dtype) t.grid i

theorem Tensor.gridAs_map (h : Arith.Hom φ) (t : Tensor F) (d : Dtype) :
    (t.map φ).gridAs d = (t.gridAs d).map (Elem.map φ d) := by
  obtain ⟨d', g⟩ := t
  unfold gridAs Tensor.map
  dsimp only
  by_cases hd : d' = d
  · subst hd
    rw [dif_pos rfl, dif_pos rfl]
  · rw [dif_neg hd, dif_neg hd, Grid.map_map, Grid.map_map]
    congr 1
    funext x
    exact Elem.convert_map h d' d x

theorem Tensor.toInts_map (h : Arith.Hom φ) (t : Tensor F) : (t.map φ).toInts = t.toInts := by
  obtain ⟨d, g⟩ := t
  unfold toInts Tensor.map
  dsimp only
  rw [Grid.map_map]
  congr 1
  funext x
  exact Elem.toInt_map h d x

omit [Arith F] [Arith G] in
theorem Tensor.commonDtype_map (ts : List (Tensor F)) :
    Tensor.commonDtype (ts.map (Tensor.map φ)) = Tensor.commonDtype ts := by
  unfold commonDtype
  rw [List.foldl_map]
  rfl

omit [Arith F] [Arith G] in
@[simp] theorem Tensor.map_single (φ : F → G) (d : Dtype) (x : Elem F d) :
    (Tensor.single d x).map φ = Tensor.single d (Elem.map φ d x) :=
  congrArg (Tensor.mk d) (Grid.map_single x _)

theorem Tensor.map_zeros (h : Arith.Hom φ) (s : Shape) (d : Dtype) :
    (Tensor.zeros s d : Tensor F).map φ = Tensor.zeros s d := by
  refine congrArg (Tensor.mk d) ((Grid.map_ofFn s _ _).trans ?_)
  unfold Grid.full
  congr 1
  funext i
  exact Elem.map_zero h d

/-! ### Values read as arrays -/

omit [Arith F] [Arith G] in
theorem Value.map_ofElem (φ : F → G) (d : Dtype) (x : Elem F d) :
    (Value.ofElem d x).map φ = Value.ofElem d (Elem.map φ d x) := by
  cases d <;> rfl

omit [Arith F] [Arith G] in
theorem Contents.toObjects_map (φ : F → G) (c : Contents F) :
    (c.map φ).toObjects = c.toObjects.map (Value.map φ) := by
  cases c with
  | numbers t =>
    unfold Contents.map toObjects Tensor.map
    dsimp only
    rw [Grid.map_map, Grid.map_map]
    congr 1
    funext x
    exact (Value.map_ofElem φ t.dtype x).symm
  | texts g =>
    change g.map Value.text = (g.map Value.text).map (Value.map φ)
    rw [Grid.map_map]
    rfl
  | objects g => rfl

omit [Arith F] [Arith G] in
theorem Contents.filterMap_tensor?_map (φ : F → G) (cs : List (Contents F)) :
    (cs.map (Contents.map φ)).filterMap tensor? = (cs.filterMap tensor?).map (Tensor.map φ) := by
  rw [List.filterMap_map, List.map_filterMap]
  congr 1
  funext c
  cases c <;> rfl

theorem Grid.map_stack {α β : Type} [Inhabited α] [Inhabited β] {f : α → β}
    (hf : f default = default) (s : Shape) (gs : List (Grid α)) :
    (Grid.stack s gs).map f = Grid.stack s (gs.map (Grid.map f)) := by
  unfold stack
  rw [Grid.map_ofFn, List.length_map]
  congr 1
  funext i
  rw [List.getElem?_map, Option.map_map]
  cases gs[i.headD 0]? with
  | none => exact hf
  | some g => exact (Grid.at_map hf g _).symm

theorem Grid.map_ofMembers {α β : Type} [Inhabited α] [Inhabited β] {f : α → β}
    (hf : f default = default) (s : Shape) (xs : List α) :
    (Grid.ofMembers s xs).map f = Grid.ofMembers s (xs.map f) := by
  unfold ofMembers
  rw [Grid.map_ofFn]
  congr 1
  funext i
  simp only [Array.getD_eq_getD_getElem?, List.getElem?_toArray, List.getElem?_map]
  cases xs[s.ravel i]? with
  | none => exact hf
  | some x => rfl

theorem Contents.stack_map (h : Arith.Hom φ) (cs : List (Contents F)) :
    Contents.stack (cs.map (Contents.map φ)) = (Contents.stack cs).map (Contents.map φ) := by
  have hshape : ((cs.map (Contents.map φ)).head?.map Contents.shape).getD []
      = (cs.head?.map Contents.shape).getD [] := by
    cases cs with
    | nil => rfl
    | cons c cs => exact Contents.shape_map φ c
  have hall : ∀ s : Shape, ((cs.map (Contents.map φ)).all fun c => decide (c.shape = s))
      = cs.all fun c => decide (c.shape = s) := by
    intro s
    rw [List.all_map]
    congr 1
    funext c
    simp
  have hobjects : (cs.map (Contents.map φ)).any Contents.isObjects
      = cs.any Contents.isObjects := by
    rw [List.any_map]
    congr 1
    funext c
    cases c <;> rfl
  have htexts : ((cs.map (Contents.map φ)).any fun c => c.texts?.isSome)
      = cs.any fun c => c.texts?.isSome := by
    rw [List.any_map]
    congr 1
    funext c
    cases c <;> rfl
  -- All tests of the function give the same, so it takes the same branch.
  unfold Contents.stack
  dsimp only
  rw [hshape, hobjects, htexts, hall, List.isEmpty_map]
  split_ifs
  · refine congrArg (fun t => Except.ok (Contents.numbers t)) ?_
    exact (Tensor.map_zeros h [0] .float64).symm
  · rfl
  · refine congrArg (fun g => Except.ok (Contents.objects g)) ?_
    rw [Grid.map_stack (f := Value.map φ) rfl, List.map_map, List.map_map]
    congr 1
    exact List.map_congr_left fun c _ => Contents.toObjects_map φ c
  · refine congrArg (fun g => Except.ok (Contents.texts g)) ?_
    rw [List.map_map]
    congr 1
    refine List.map_congr_left fun c _ => ?_
    cases c <;> rfl
  · rw [Contents.filterMap_tensor?_map, Tensor.commonDtype_map, List.map_map]
    refine congrArg (fun g => Except.ok (Contents.numbers ⟨_, g⟩)) ?_
    rw [Grid.map_stack (Elem.map_zero h _), List.map_map]
    congr 1
    exact List.map_congr_left fun t _ => Tensor.gridAs_map h t _

omit [Arith F] [Arith G] in
theorem Contents.map_ok_numbers_single (φ : F → G) (d : Dtype) (x : Elem F d) :
    Except.map (Contents.map φ) (Except.ok (.numbers (.single d x)) : Fallible (Contents F))
      = .ok (.numbers (.single d (Elem.map φ d x))) :=
  congrArg (fun t => Except.ok (Contents.numbers t)) (Tensor.map_single φ d x)

omit [Arith F] [Arith G] in
theorem Contents.map_ok_objects_single (φ : F → G) (v : Value F) :
    Except.map (Contents.map φ) (Except.ok (.objects (.single v)) : Fallible (Contents F))
      = .ok (.objects (.single (v.map φ))) :=
  congrArg (fun g => Except.ok (Contents.objects g)) (Grid.map_single v _)

mutual

/-- A value is read as an array before or after a function is applied to its numbers. -/
theorem Value.contents_map (h : Arith.Hom φ) :
    ∀ v : Value F, (v.map φ).contents = v.contents.map (Contents.map φ)
  | .flag b => (Contents.map_ok_numbers_single φ .bool b).symm
  | .integer n => by
    unfold Value.map Value.contents
    split_ifs
    · exact (Contents.map_ok_numbers_single φ .int64 _).symm
    · exact (Contents.map_ok_objects_single φ (.integer n)).symm
  | .real x => (Contents.map_ok_numbers_single φ .float64 x).symm
  | .text _ => rfl
  | .list xs => by
    unfold Value.map Value.contents
    rw [Value.contentsOfMembers_map h xs]
    cases Value.contentsOfMembers xs with
    | error e => rfl
    | ok cs => exact Contents.stack_map h cs
  | .tuple xs => by
    unfold Value.map Value.contents
    rw [Value.contentsOfMembers_map h xs]
    cases Value.contentsOfMembers xs with
    | error e => rfl
    | ok cs => exact Contents.stack_map h cs
  | .array _ => rfl
  | .scalar d x => (Contents.map_ok_numbers_single φ d x).symm
  | .device _ => rfl
  | .objects s xs => by
    unfold Value.map Value.contents
    rw [Value.mapMembers_eq]
    exact congrArg (fun g => Except.ok (Contents.objects g))
      (Grid.map_ofMembers (f := Value.map φ) rfl s xs).symm
  | .none => (Contents.map_ok_objects_single φ .none).symm
  | .dict es => (Contents.map_ok_objects_single φ (.dict es)).symm
  | .slice a b c => (Contents.map_ok_objects_single φ (.slice a b c)).symm
  | .ellipsis => (Contents.map_ok_objects_single φ .ellipsis).symm
  | .node n => (Contents.map_ok_objects_single φ (.node n)).symm
  | .function f => (Contents.map_ok_objects_single φ (.function f)).symm
  | .op o => (Contents.map_ok_objects_single φ (.op o)).symm
  | .other => (Contents.map_ok_objects_single φ .other).symm

theorem Value.contentsOfMembers_map (h : Arith.Hom φ) :
    ∀ xs : List (Value F), Value.contentsOfMembers (Value.mapMembers φ xs)
      = (Value.contentsOfMembers xs).map (List.map (Contents.map φ))
  | [] => rfl
  | x :: xs => by
    unfold Value.mapMembers Value.contentsOfMembers
    rw [Value.contents_map h x, Value.contentsOfMembers_map h xs]
    cases x.contents with
    | error e => rfl
    | ok c =>
      cases Value.contentsOfMembers xs with
      | error e => rfl
      | ok cs => rfl

end

/-! ### Plain numbers and tensors -/

/-- A function on real numbers applied to a plain number. -/
def Weak.map (φ : F → G) : Weak F → Weak G
  | .flag b => .flag b
  | .integer n => .integer n
  | .real x => .real (φ x)

omit [Arith F] [Arith G] in
theorem Value.weak?_map (φ : F → G) (v : Value F) : (v.map φ).weak? = v.weak?.map (Weak.map φ) := by
  cases v <;> rfl

omit [Arith F] [Arith G] in
theorem Value.solid?_map (φ : F → G) (v : Value F) :
    (v.map φ).solid? = v.solid?.map (Tensor.map φ) := by
  cases v with
  | scalar d x => exact congrArg some (Tensor.map_single φ d x).symm
  | _ => rfl

omit [Arith F] [Arith G] in
@[simp] theorem Value.isNone_map (φ : F → G) (v : Value F) : (v.map φ).isNone = v.isNone := by
  cases v <;> rfl

omit [Arith F] [Arith G] in
@[simp] theorem Value.isScalar_map (φ : F → G) (v : Value F) :
    (v.map φ).isScalar = v.isScalar := by
  cases v <;> rfl

theorem Value.wholeOfTensor?_map (h : Arith.Hom φ) (t : Tensor F) :
    wholeOfTensor? (t.map φ) = wholeOfTensor? t := by
  unfold wholeOfTensor?
  rw [Tensor.toInts_map h]
  rfl

/-! ### Integer, axis and shape arguments -/

theorem Value.asInteger_map (h : Arith.Hom φ) (v : Value F) :
    (v.map φ).asInteger = v.asInteger := by
  unfold asInteger
  rw [weak?_map, solid?_map]
  cases v with
  | array t => exact congrArg (Fallible.ofOption _) (wholeOfTensor?_map h t)
  | scalar d x => exact congrArg (Fallible.ofOption _) (wholeOfTensor?_map h (.single d x))
  | device t => exact congrArg (Fallible.ofOption _) (wholeOfTensor?_map h t)
  | _ => rfl

theorem Value.asPlace_map (h : Arith.Hom φ) (v : Value F) : (v.map φ).asPlace = v.asPlace := by
  cases v with
  | array t => exact asInteger_map h (.array t)
  | scalar d x => exact asInteger_map h (.scalar d x)
  | device t => exact asInteger_map h (.device t)
  | _ => rfl

theorem Value.addAxis_map (h : Arith.Hom φ) (rank : Nat) (named : List Nat) (v : Value F) :
    addAxis rank named (v.map φ) = addAxis rank named v := by
  unfold addAxis
  rw [asInteger_map h]

/-- An axis argument names the same axes. -/
theorem Value.axes_map (h : Arith.Hom φ) (rank : Nat) (v : Value F) :
    axes rank (v.map φ) = axes rank v := by
  have hone : ∀ w : Value F, (do
      let n ← (w.map φ).asInteger
      if rank = 0 ∧ (n = 0 ∨ n = -1) then return []
      return [← axisOf rank n] : Fallible (List Nat)) = do
      let n ← w.asInteger
      if rank = 0 ∧ (n = 0 ∨ n = -1) then return []
      return [← axisOf rank n] := by
    intro w
    rw [asInteger_map h]
  cases v with
  | none => rfl
  | tuple vs =>
    unfold Value.map axes
    rw [mapMembers_eq]
    dsimp only
    rw [List.foldlM_map]
    simp only [addAxis_map h]
  | array t => exact hone (.array t)
  | scalar d x => exact hone (.scalar d x)
  | device t => exact hone (.device t)
  | _ => rfl

theorem Value.gatheredCount_map (h : Arith.Hom φ) (s : Shape) (v : Value F) :
    gatheredCount s (v.map φ) = gatheredCount s v := by
  have hone : ∀ w : Value F, (do
      return s.getD (← axisOf s.length (← (w.map φ).asPlace)) 0 : Fallible Nat)
        = do return s.getD (← axisOf s.length (← w.asPlace)) 0 := by
    intro w
    rw [asPlace_map h]
  cases v with
  | none => rfl
  | tuple vs =>
    unfold Value.map gatheredCount
    rw [mapMembers_eq]
    dsimp only
    rw [List.mapM_map]
    simp only [Function.comp_def, asPlace_map h]
  | array t => exact hone (.array t)
  | scalar d x => exact hone (.scalar d x)
  | device t => exact hone (.device t)
  | _ => rfl

omit [Arith F] [Arith G] in
theorem Tensor.size_map (φ : F → G) (t : Tensor F) : (t.map φ).size = t.size := by
  unfold Tensor.size Grid.size
  rw [(t.map φ).grid.size_eq, t.grid.size_eq]
  rfl

/-- A shape argument writes the same extents. -/
theorem Kernel.extents_map (h : Arith.Hom φ) (v : Value F) : extents (v.map φ) = extents v := by
  have hmany : ∀ vs : List (Value F),
      (Value.mapMembers φ vs).mapM Value.asInteger = vs.mapM Value.asInteger := by
    intro vs
    rw [Value.mapMembers_eq, List.mapM_map]
    simp only [Function.comp_def, Value.asInteger_map h]
  have hone : ∀ w : Value F, (do return [← (w.map φ).asInteger] : Fallible (List Int))
      = do return [← w.asInteger] := by
    intro w
    rw [Value.asInteger_map h]
  cases v with
  | list vs => exact hmany vs
  | tuple vs => exact hmany vs
  | array t =>
    have harray := hone (.array t)
    unfold Value.map at harray ⊢
    unfold extents
    dsimp only
    rw [harray, Tensor.toInts_map h, Tensor.size_map]
    rfl
  | scalar d x => exact hone (.scalar d x)
  | device t => exact hone (.device t)
  | _ => rfl

/-! ### Indices -/

theorem Value.bound_map (h : Arith.Hom φ) (v : Value F) : bound (v.map φ) = bound v := by
  have hone : ∀ w : Value F, (do return some (← (w.map φ).asPlace) : Fallible (Option Int))
      = do return some (← w.asPlace) := by
    intro w
    rw [asPlace_map h]
  cases v with
  | none => rfl
  | array t => exact hone (.array t)
  | scalar d x => exact hone (.scalar d x)
  | device t => exact hone (.device t)
  | _ => rfl

theorem Value.pickOfTensor_map (h : Arith.Hom φ) (t : Tensor F) :
    pickOfTensor (t.map φ) = pickOfTensor t := by
  have htrue : (t.map φ).grid.map (Elem.isTrue (t.map φ).dtype)
      = t.grid.map (Elem.isTrue t.dtype) := by
    refine (Grid.map_map ..).trans ?_
    congr 1
    funext x
    exact Elem.isTrue_map h t.dtype x
  unfold pickOfTensor
  rw [htrue, Tensor.toInts_map h]
  rfl

theorem Value.pickOfSequence_map (h : Arith.Hom φ) (v : Value F) :
    pickOfSequence (v.map φ) = pickOfSequence v := by
  unfold pickOfSequence
  rw [contents_map h]
  cases v.contents with
  | error e => rfl
  | ok c =>
    cases c with
    | numbers t =>
      change (do
        if (t.map φ).size = 0 ∧ (t.map φ).dtype = .float64 then
          return .gather ((t.map φ).grid.map fun _ => 0)
        pickOfTensor (t.map φ) : Fallible Pick) = do
        if t.size = 0 ∧ t.dtype = .float64 then return .gather (t.grid.map fun _ => 0)
        pickOfTensor t
      have hzero : (t.map φ).grid.map (fun _ => (0 : Int)) = t.grid.map fun _ => 0 :=
        Grid.map_map ..
      rw [hzero, pickOfTensor_map h, Tensor.size_map]
      rfl
    | texts g => rfl
    | objects g => rfl

theorem Value.pick_map (h : Arith.Hom φ) (v : Value F) : pick (v.map φ) = pick v := by
  cases v with
  | slice a b c =>
    unfold Value.map pick
    dsimp only
    rw [bound_map h, bound_map h, bound_map h]
  | list xs => exact pickOfSequence_map h (.list xs)
  | tuple xs => exact pickOfSequence_map h (.tuple xs)
  | array t => exact pickOfTensor_map h t
  | scalar d x =>
    unfold Value.map pick
    dsimp only
    rw [← Tensor.map_single, pickOfTensor_map h]
  | device t => exact pickOfTensor_map h t
  | _ => rfl

/-- An index picks the same. -/
theorem Value.picks_map (h : Arith.Hom φ) (v : Value F) : picks (v.map φ) = picks v := by
  have hone : ∀ w : Value F, (do return [← (w.map φ).pick] : Fallible (List Pick))
      = do return [← w.pick] := by
    intro w
    rw [pick_map h]
  cases v with
  | tuple vs =>
    unfold Value.map picks
    rw [mapMembers_eq]
    dsimp only
    rw [List.mapM_map]
    simp only [Function.comp_def, pick_map h]
  | array t => exact hone (.array t)
  | scalar d x => exact hone (.scalar d x)
  | device t => exact hone (.device t)
  | list xs => exact hone (.list xs)
  | slice a b c => exact hone (.slice a b c)
  | _ => rfl

end

end SlotGrad
