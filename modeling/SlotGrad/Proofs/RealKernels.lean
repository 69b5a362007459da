import SlotGrad.Proofs.RealValues

/-!
# Reductions and structural kernels on real values

What reductions and the kernels that move members about compute on real values, and that a function
that keeps the operations of number systems may be applied before or after them.

## Main results

* `Value.total_reals`, `Value.average_reals` — reductions.
* `Kernel.mtimes_reals`, `Kernel.reshapeTo_reals`, `Value.getAt_reals`, `Kernel.cat_reals`,
  `Kernel.roots_reals` — kernels that move members about.
* `Value.total_map` and so on — the same over another number system.
-/

namespace SlotGrad

variable {F G : Type} [Arith F] [Arith G] {φ : F → G}

/-! ### Grids over another number system -/

namespace Grid

theorem foldl_map_hom {α β : Type} {f : α → α → α} {f' : β → β → β} {φ : α → β}
    (hf : ∀ x y, φ (f x y) = f' (φ x) (φ y)) (js : List Nat) (g : Nat → α) (start : α) :
    φ (js.foldl (fun acc j => f acc (g j)) start)
      = js.foldl (fun acc j => f' acc (φ (g j))) (φ start) := by
  induction js generalizing start with
  | nil => rfl
  | cons j js ih => rw [List.foldl_cons, List.foldl_cons, ih, hf]

theorem at_map_hom (h : Arith.Hom φ) (g : Grid F) (i : List Nat) : (g.map φ).at i = φ (g.at i) :=
  at_map (h.ofInt 0) g i

theorem sumAlong_map (h : Arith.Hom φ) (g : Grid F) (ks : List Nat) :
    (g.map φ).sumAlong ks = (g.sumAlong ks).map φ := by
  have hadd : ∀ x y : F, φ (Elem.add .float64 x y) = Elem.add .float64 (φ x) (φ y) := h.add
  have hzero : φ (Elem.zero .float64) = Elem.zero .float64 := h.ofInt 0
  have hone : ∀ (k : Nat) (g : Grid F),
      (g.map φ).foldAxis k (Elem.add .float64) (Elem.zero .float64)
        = (g.foldAxis k (Elem.add .float64) (Elem.zero .float64)).map φ := by
    intro k g
    unfold foldAxis
    rw [map_ofFn, shape_map]
    congr 1
    funext i
    rw [foldl_map_hom hadd, hzero]
    simp only [at_map_hom h]
  have hall : (g.map φ).foldAxes ks (Elem.add .float64) (Elem.zero .float64)
      = (g.foldAxes ks (Elem.add .float64) (Elem.zero .float64)).map φ := by
    unfold foldAxes
    induction ks with
    | nil => rfl
    | cons k ks ih => rw [List.foldr_cons, List.foldr_cons, ih, hone]
  unfold sumAlong
  split_ifs
  · rw [map_map, map_map]
    congr 1
    funext x
    rw [hadd, hzero]
  · exact hall

theorem matrixProduct?_map (h : Arith.Hom φ) (a b : Grid F) :
    matrixProduct? (Elem.mul .float64) (Elem.add .float64) (Elem.zero .float64) (a.map φ) (b.map φ)
      = (matrixProduct? (Elem.mul .float64) (Elem.add .float64) (Elem.zero .float64) a b).map
        (Grid.map φ) := by
  have hadd : ∀ x y : F, φ (Elem.add .float64 x y) = Elem.add .float64 (φ x) (φ y) := h.add
  have hmul : ∀ x y : F, φ (Elem.mul .float64 x y) = Elem.mul .float64 (φ x) (φ y) := h.mul
  have hzero : φ (Elem.zero .float64) = Elem.zero .float64 := h.ofInt 0
  unfold matrixProduct?
  dsimp only
  by_cases hc : 2 ≤ a.rank ∧ 2 ≤ b.rank ∧
      a.shape.getD (a.rank - 2 + 1) 0 = b.shape.getD (b.rank - 2) 0
  · have hc' : 2 ≤ (a.map φ).rank ∧ 2 ≤ (b.map φ).rank ∧
        (a.map φ).shape.getD ((a.map φ).rank - 2 + 1) 0
          = (b.map φ).shape.getD ((b.map φ).rank - 2) 0 := hc
    rw [if_pos hc, if_pos hc', Option.map_map]
    congr 1
    funext s
    rw [Function.comp_apply, map_ofFn]
    congr 1
    funext i
    rw [foldl_map_hom hadd, hzero]
    simp only [at_map_hom h, hmul]
    rfl
  · have hc' : ¬ (2 ≤ (a.map φ).rank ∧ 2 ≤ (b.map φ).rank ∧
        (a.map φ).shape.getD ((a.map φ).rank - 2 + 1) 0
          = (b.map φ).shape.getD ((b.map φ).rank - 2) 0) := hc
    rw [if_neg hc, if_neg hc']
    rfl

theorem join?_map (h : Arith.Hom φ) (k : Nat) (gs : List (Grid F)) :
    join? k (gs.map (Grid.map φ)) = (join? k gs).map (Grid.map φ) := by
  have hread : ∀ (i : List Nat) (gs : List (Grid F)) (j : Nat),
      atJoined k i (gs.map (Grid.map φ)) j = φ (atJoined k i gs j) := by
    intro i gs
    induction gs with
    | nil =>
      intro j
      exact (h.ofInt 0).symm
    | cons g gs ih =>
      intro j
      rw [List.map_cons, atJoined_cons, atJoined_cons, shape_map, ih, at_map_hom h]
      split_ifs <;> rfl
  cases gs with
  | nil => rfl
  | cons g gs =>
    have hall : ((gs.map (Grid.map φ)).all fun b => decide (b.rank = (g.map φ).rank ∧
        crossSection k b.shape = crossSection k (g.map φ).shape))
          = gs.all fun b => decide (b.rank = g.rank ∧
            crossSection k b.shape = crossSection k g.shape) := by
      rw [List.all_map]
      rfl
    have hsum : ((g :: gs).map (Grid.map φ)).foldl (fun n b => n + b.shape.getD k 0) 0
        = (g :: gs).foldl (fun n b => n + b.shape.getD k 0) 0 := by
      rw [List.foldl_map]
      rfl
    unfold join?
    rw [List.map_cons]
    dsimp only
    rw [hall, ← List.map_cons, hsum]
    split_ifs with h₁ h₂ h₂
    · rw [Option.map_some, map_ofFn]
      simp only [hread]
      rfl
    · exact absurd h₁ h₂
    · exact absurd h₂ h₁
    · rfl

theorem select_map (h : Arith.Hom φ) (g : Grid F) (sel : Selection) :
    (g.map φ).select sel = (g.select sel).map φ := by
  unfold select
  rw [map_ofFn]
  simp only [at_map_hom h]

omit [Arith F] [Arith G] in
theorem reshape?_map (g : Grid F) (φ : F → G) (s : Shape) :
    (g.map φ).reshape? s = (g.reshape? s).map (Grid.map φ) := by
  unfold reshape?
  by_cases hs : s.size = g.shape.size
  · have hs' : s.size = (g.map φ).shape.size := hs
    rw [dif_pos hs, dif_pos hs']
    rfl
  · have hs' : ¬ s.size = (g.map φ).shape.size := hs
    rw [dif_neg hs, dif_neg hs']
    rfl

omit [Arith F] [Arith G] in
theorem flatten_map (g : Grid F) (φ : F → G) : (g.map φ).flatten = g.flatten.map φ := by
  unfold flatten map
  simp

/-- A vector of one element for a grid without axes; any other grid is unchanged. -/
def vectorized (g : Grid F) : Grid F := if g.shape = [] then g.flatten else g

omit [Arith F] [Arith G] in
theorem vectorized_map (g : Grid F) (φ : F → G) : (g.map φ).vectorized = g.vectorized.map φ := by
  unfold vectorized
  rw [shape_map, flatten_map]
  split_ifs <;> rfl

end Grid

/-- An elementwise operation on two tensors of real numbers. -/
theorem Tensor.binary_reals (op : Tensor.ElementOp F) (g h : Grid F) :
    Tensor.binary op .float64 ⟨.float64, g⟩ ⟨.float64, h⟩ = do
      let w ← Fallible.ofOption .badValue (Grid.zipWith? (op .float64) g h)
      return ⟨.float64, w⟩ := by
  unfold binary
  rw [gridAs_self, gridAs_self]
  cases Grid.zipWith? (op .float64) g h <;> rfl

/-! ### Reductions -/

namespace Value

variable {v axis : Value F} {g : Grid F}

theorem total_reals (hv : v.reals? = some g) (axis : Value F) : v.total axis = do
    let ks ← axis.axes g.rank
    return reduced ⟨.float64, g.sumAlong ks⟩ := by
  unfold total
  rw [contents_of_reals? hv]
  change (do
    let ks ← axis.axes g.rank
    return reduced ((⟨.float64, g⟩ : Tensor F).sum ks) : Fallible (Value F)) = _
  simp only [Tensor.sum_reals]

theorem total_map (h : Arith.Hom φ) (hv : v.reals? = some g) (axis : Value F) :
    (v.map φ).total (axis.map φ) = (v.total axis).map (Value.map φ) := by
  have hv' : (v.map φ).reals? = some (g.map φ) := by rw [reals?_map, hv]; rfl
  rw [total_reals hv, total_reals hv', axes_map h]
  change (do
    let ks ← axis.axes g.rank
    return reduced ⟨.float64, (g.map φ).sumAlong ks⟩ : Fallible (Value G)) = _
  simp only [Grid.sumAlong_map h, ← reduced_map h]
  cases axis.axes g.rank <;> rfl

theorem average_reals (hv : v.reals? = some g) (axis : Value F) : v.average axis = do
    let count ← gatheredCount g.shape axis
    let ks ← axis.axes g.rank
    return reduced ⟨.float64, ← Fallible.ofOption .badValue
      (Grid.zipWith? Arith.div (g.sumAlong ks) (.single (Arith.ofInt count)))⟩ := by
  unfold average
  rw [contents_of_reals? hv]
  change (do
    let count ← gatheredCount g.shape axis
    let ks ← axis.axes g.rank
    return reduced (← Tensor.binary Elem.div .float64 ((⟨.float64, g⟩ : Tensor F).sumAs .float64 ks)
      (.single .float64 (Elem.convert .float64 .float64 (Arith.ofInt count)))) :
        Fallible (Value F)) = _
  simp only [Tensor.sumAs_reals, Elem.convert_self, Tensor.single, Tensor.binary_reals,
    bind_assoc, pure_bind]
  rfl

theorem average_map (h : Arith.Hom φ) (hv : v.reals? = some g) (axis : Value F) :
    (v.map φ).average (axis.map φ) = (v.average axis).map (Value.map φ) := by
  have hv' : (v.map φ).reals? = some (g.map φ) := by rw [reals?_map, hv]; rfl
  rw [average_reals hv, average_reals hv', axes_map h, gatheredCount_map h, Grid.shape_map]
  have hrank : (g.map φ).rank = g.rank := rfl
  rw [hrank]
  cases gatheredCount g.shape axis with
  | error e => rfl
  | ok count =>
    cases axis.axes g.rank with
    | error e => rfl
    | ok ks =>
      have hcount : (.single (Arith.ofInt count) : Grid G)
          = (.single (Arith.ofInt count) : Grid F).map φ := by
        rw [Grid.map_single, h.ofInt]
      change (do return reduced ⟨.float64, ← Fallible.ofOption .badValue
        (Grid.zipWith? Arith.div ((g.map φ).sumAlong ks) (.single (Arith.ofInt count)))⟩ :
          Fallible (Value G)) = Except.map (Value.map φ) (do
            return reduced ⟨.float64, ← Fallible.ofOption .badValue
              (Grid.zipWith? Arith.div (g.sumAlong ks) (.single (Arith.ofInt count)))⟩)
      rw [hcount, Grid.sumAlong_map h, Grid.zipWith?_map (h.ofInt 0) h.div]
      cases Grid.zipWith? Arith.div (g.sumAlong ks) (.single (Arith.ofInt count)) with
      | none => rfl
      | some w => exact congrArg Except.ok (reduced_map h w).symm

end Value

/-! ### Kernels that move members about -/

/-- The matrix product in a known common type. -/
theorem Tensor.product_eq {s t : Tensor F} {d : Dtype} (hd : s.dtype.common t.dtype = d)
    (hrank : ¬ (s.rank = 0 ∨ t.rank = 0)) : s.product t = do
      let w ← Fallible.ofOption .badValue
        (Grid.product? (Elem.mul d) (Elem.add d) (Elem.zero d) (s.gridAs d) (t.gridAs d))
      return ⟨d, w⟩ := by
  subst hd
  unfold product
  rw [if_neg hrank]
  cases Grid.product? (Elem.mul (s.dtype.common t.dtype)) (Elem.add (s.dtype.common t.dtype))
    (Elem.zero (s.dtype.common t.dtype)) (s.gridAs (s.dtype.common t.dtype))
    (t.gridAs (s.dtype.common t.dtype)) <;> rfl

namespace Kernel

variable {a b x : Value F} {g h : Grid F}

theorem mtimes_reals (ha : a.reals? = some g) (hb : b.reals? = some h) (hg : 2 ≤ g.rank)
    (hh : 2 ≤ h.rank) : mtimes a b = do
      let w ← Fallible.ofOption .badValue
        (Grid.matrixProduct? (Elem.mul .float64) (Elem.add .float64) (Elem.zero .float64) g h)
      return Value.reduced ⟨.float64, w⟩ := by
  have hproduct : (⟨.float64, g⟩ : Tensor F).product ⟨.float64, h⟩ = do
      let w ← Fallible.ofOption .badValue
        (Grid.matrixProduct? (Elem.mul .float64) (Elem.add .float64) (Elem.zero .float64) g h)
      return ⟨.float64, w⟩ := by
    have hrank : ¬ ((⟨.float64, g⟩ : Tensor F).rank = 0 ∨ (⟨.float64, h⟩ : Tensor F).rank = 0) := by
      unfold Tensor.rank
      unfold Grid.rank at hg hh
      dsimp only
      omega
    rw [Tensor.product_eq (d := .float64) rfl hrank, Tensor.gridAs_self, Tensor.gridAs_self,
      Grid.product?_eq_matrixProduct? hg hh]
  unfold mtimes
  rw [Value.contents_of_reals? ha, Value.contents_of_reals? hb]
  change (do return Value.reduced (← (⟨.float64, g⟩ : Tensor F).product ⟨.float64, h⟩) :
    Fallible (Value F)) = _
  rw [hproduct, bind_assoc]
  rfl

theorem mtimes_map (hφ : Arith.Hom φ) (ha : a.reals? = some g) (hb : b.reals? = some h)
    (hg : 2 ≤ g.rank) (hh : 2 ≤ h.rank) :
    mtimes (a.map φ) (b.map φ) = (mtimes a b).map (Value.map φ) := by
  have ha' : (a.map φ).reals? = some (g.map φ) := by rw [Value.reals?_map, ha]; rfl
  have hb' : (b.map φ).reals? = some (h.map φ) := by rw [Value.reals?_map, hb]; rfl
  rw [mtimes_reals ha hb hg hh, mtimes_reals ha' hb' hg hh, Grid.matrixProduct?_map hφ]
  cases Grid.matrixProduct? (Elem.mul .float64) (Elem.add .float64) (Elem.zero .float64) g h with
  | none => rfl
  | some w => exact congrArg Except.ok (Value.reduced_map hφ w).symm

/-- An array of real numbers, or the element of one that has been taken out and has no axes. -/
def arrayOrElement (element : Bool) (g : Grid F) : Value F :=
  if element ∧ g.shape = [] then Value.reduced ⟨.float64, g⟩ else .array ⟨.float64, g⟩

theorem reals?_arrayOrElement (element : Bool) (g : Grid F) :
    (arrayOrElement element g).reals? = some g := by
  unfold arrayOrElement
  split_ifs
  · exact Value.reals?_reduced g
  · rfl

theorem arrayOrElement_map (hφ : Arith.Hom φ) (element : Bool) (g : Grid F) :
    (arrayOrElement element g).map φ = arrayOrElement element (g.map φ) := by
  unfold arrayOrElement
  rw [Grid.shape_map]
  split_ifs
  · exact Value.reduced_map hφ g
  · rfl

theorem reshapeTo_reals (hx : x.reals? = some g) (es : List Int) : reshapeTo x es = do
    let s ← closeShape g.shape.size es
    let w ← Fallible.ofOption .badValue (g.reshape? s)
    return arrayOrElement x.isScalar w := by
  unfold reshapeTo
  rw [Value.contents_of_reals? hx]
  change (do
    let s ← closeShape g.shape.size es
    let result ← (Contents.numbers ⟨.float64, g⟩).reshape s
    return if x.isScalar ∧ result.shape = [] then Value.reducedContents result
      else Value.ofContents result : Fallible (Value F)) = _
  unfold Contents.reshape Contents.restructure
  simp only [bind_assoc, pure_bind]
  rfl

theorem reshape_of_isNone (x : Value F) {shape : Value F} (hs : shape.isNone = false) :
    reshape x shape = (do reshapeTo x (← extents shape)) := by
  cases shape <;> first | rfl | cases hs

theorem reshape_none_reals (hx : x.reals? = some g) : reshape x .none
    = .ok (if x.isScalar then x else .array ⟨.float64, g⟩) := by
  unfold reshape
  rw [Value.contents_of_reals? hx]
  split_ifs <;> rfl

theorem reshape_map (hφ : Arith.Hom φ) (hx : x.reals? = some g) (shape : Value F) :
    reshape (x.map φ) (shape.map φ) = (reshape x shape).map (Value.map φ) := by
  have hx' : (x.map φ).reals? = some (g.map φ) := by rw [Value.reals?_map, hx]; rfl
  have hto : ∀ es, reshapeTo (x.map φ) es = (reshapeTo x es).map (Value.map φ) := by
    intro es
    rw [reshapeTo_reals hx, reshapeTo_reals hx', Value.isScalar_map, Grid.shape_map]
    cases closeShape g.shape.size es with
    | error e => rfl
    | ok s =>
      change (do
        let w ← Fallible.ofOption .badValue ((g.map φ).reshape? s)
        return arrayOrElement x.isScalar w : Fallible (Value G)) = Except.map (Value.map φ) (do
          let w ← Fallible.ofOption .badValue (g.reshape? s)
          return arrayOrElement x.isScalar w)
      rw [Grid.reshape?_map]
      cases g.reshape? s with
      | none => rfl
      | some w => exact congrArg Except.ok (arrayOrElement_map hφ _ w).symm
  cases hs : shape.isNone with
  | true =>
    have hshape : shape = .none := by cases shape <;> first | rfl | cases hs
    subst hshape
    have hnone : reshape (x.map φ) .none = (reshape x .none).map (Value.map φ) := by
      rw [reshape_none_reals hx, reshape_none_reals hx', Value.isScalar_map]
      split_ifs <;> rfl
    exact hnone
  | false =>
    have hs' : (shape.map φ).isNone = false := by rw [Value.isNone_map, hs]
    rw [reshape_of_isNone _ hs, reshape_of_isNone _ hs', extents_map hφ]
    cases extents shape with
    | error e => rfl
    | ok es => exact hto es

end Kernel

namespace Value

variable {x index : Value F} {g : Grid F}

theorem getAt_reals (hx : x.reals? = some g) (index : Value F) : x.getAt index = do
    let sel ← Selection.resolve (← index.picks) g.shape
    return Kernel.arrayOrElement sel.isElement (g.select sel) := by
  unfold getAt
  rw [contents_of_reals? hx]
  cases index.picks with
  | error e => rfl
  | ok ps =>
    change (do
      let sel ← Selection.resolve ps g.shape
      let part ← (Contents.numbers ⟨.float64, g⟩).select sel
      return if sel.isElement ∧ sel.shape = [] then reducedContents part else ofContents part :
        Fallible (Value F)) = do
      let sel ← Selection.resolve ps g.shape
      return Kernel.arrayOrElement sel.isElement (g.select sel)
    cases Selection.resolve ps g.shape <;> rfl

theorem getAt_map (h : Arith.Hom φ) (hx : x.reals? = some g) (index : Value F) :
    (x.map φ).getAt (index.map φ) = (x.getAt index).map (Value.map φ) := by
  have hx' : (x.map φ).reals? = some (g.map φ) := by rw [reals?_map, hx]; rfl
  rw [getAt_reals hx, getAt_reals hx', picks_map h, Grid.shape_map]
  cases index.picks with
  | error e => rfl
  | ok ps =>
    change (do
      let sel ← Selection.resolve ps g.shape
      return Kernel.arrayOrElement sel.isElement ((g.map φ).select sel) : Fallible (Value G))
        = Except.map (Value.map φ) (do
          let sel ← Selection.resolve ps g.shape
          return Kernel.arrayOrElement sel.isElement (g.select sel))
    cases Selection.resolve ps g.shape with
    | error e => rfl
    | ok sel =>
      refine congrArg Except.ok ?_
      rw [Grid.select_map h, Kernel.arrayOrElement_map h]

end Value

/-! ### Joins -/

/-- Values that are real, with the grids that they stand for. -/
def Value.AreReals (xs : List (Value F)) (gs : List (Grid F)) : Prop :=
  List.Forall₂ (fun x g => x.reals? = some g) xs gs

omit [Arith F] [Arith G] in
theorem Value.AreReals.map (φ : F → G) {xs : List (Value F)} {gs : List (Grid F)}
    (h : AreReals xs gs) : AreReals (xs.map (Value.map φ)) (gs.map (Grid.map φ)) := by
  induction h with
  | nil => exact .nil
  | cons hx _ ih => exact .cons (by rw [reals?_map, hx]; rfl) ih

namespace Contents

/-- Grids of real numbers as contents. -/
def ofReals (g : Grid F) : Contents F := .numbers ⟨.float64, g⟩

theorem join_reals (k : Nat) (gs : List (Grid F)) : Contents.join k (gs.map ofReals) = do
    let w ← Fallible.ofOption .badValue (Grid.join? k gs)
    return ofReals w := by
  have hjoin : ∀ {ts : List (Tensor F)} {d : Dtype}, Tensor.commonDtype ts = d →
      Tensor.join k ts = do
        let w ← Fallible.ofOption .badValue (Grid.join? k (ts.map fun t => t.gridAs d))
        return ⟨d, w⟩ := by
    rintro ts d rfl
    unfold Tensor.join
    dsimp only
    cases Grid.join? k (ts.map fun t => t.gridAs (Tensor.commonDtype ts)) <;> rfl
  -- All contents are numbers of the one type, which is then the common one.
  have htensors : (gs.map ofReals).filterMap tensor?
      = gs.map fun g => (⟨.float64, g⟩ : Tensor F) := by
    rw [List.filterMap_map, ← List.filterMap_eq_map]
    rfl
  have hgrids : (gs.map fun g => (⟨.float64, g⟩ : Tensor F)).map (fun t => t.gridAs .float64)
      = gs := by
    rw [List.map_map]
    exact (List.map_congr_left fun g _ => Tensor.gridAs_self _ g).trans (List.map_id gs)
  unfold Contents.join
  dsimp only
  rw [htensors, if_pos (by rw [List.length_map, List.length_map])]
  cases gs with
  | nil => rfl
  | cons g gs =>
    have hcommon : Tensor.commonDtype ((g :: gs).map fun g => (⟨.float64, g⟩ : Tensor F))
        = .float64 := by
      unfold Tensor.commonDtype
      rw [List.map_cons, List.foldl_cons]
      have hrest : ∀ gs : List (Grid F), (gs.map fun g => (⟨.float64, g⟩ : Tensor F)).foldl
          (fun (d : Dtype) t => d.common t.dtype) .float64 = .float64 := by
        intro gs
        induction gs with
        | nil => rfl
        | cons g gs ih => exact ih
      exact hrest gs
    rw [hjoin hcommon, hgrids, bind_assoc]
    rfl

end Contents

namespace Kernel

variable {xs : List (Value F)} {gs : List (Grid F)}

theorem allContents_reals (h : Value.AreReals xs gs) :
    allContents xs = .ok (gs.map Contents.ofReals) := by
  unfold allContents
  induction h with
  | nil => rfl
  | cons hx _ ih =>
    rw [List.mapM_cons, Value.contents_of_reals? hx, ih]
    rfl

theorem cat_of_isNone (xs : List (Value F)) {axis : Value F} (haxis : axis.isNone = false) :
    cat axis xs = (do
      let cs := (← allContents xs).map Contents.atLeastVector
      let n ← axis.asInteger
      let k ← Value.axisOf ((cs.head?.map fun c => c.shape.length).getD 0) n
      return Value.ofContents (← Contents.join k cs)) := by
  cases axis <;> first | rfl | cases haxis

theorem cat_reals (h : Value.AreReals xs gs) {axis : Value F} (haxis : axis.isNone = false) :
    cat axis xs = do
      let n ← axis.asInteger
      let k ← Value.axisOf ((gs.head?.map fun g => g.vectorized.rank).getD 0) n
      let w ← Fallible.ofOption .badValue (Grid.join? k (gs.map Grid.vectorized))
      return .array ⟨.float64, w⟩ := by
  have hvectors : (gs.map Contents.ofReals).map Contents.atLeastVector
      = (gs.map Grid.vectorized).map Contents.ofReals := by
    rw [List.map_map, List.map_map]
    refine List.map_congr_left fun g _ => ?_
    unfold Function.comp Contents.atLeastVector Grid.vectorized
    change (if g.shape = [] then Contents.ofReals g.flatten else Contents.ofReals g) = _
    split_ifs <;> rfl
  have hrank : (((gs.map Grid.vectorized).map Contents.ofReals).head?.map fun c =>
      c.shape.length).getD 0 = (gs.head?.map fun g => g.vectorized.rank).getD 0 := by
    cases gs <;> rfl
  rw [cat_of_isNone xs haxis, allContents_reals h]
  change (do
    let n ← axis.asInteger
    let k ← Value.axisOf ((((gs.map Contents.ofReals).map Contents.atLeastVector).head?.map fun c =>
      c.shape.length).getD 0) n
    return Value.ofContents
      (← Contents.join k ((gs.map Contents.ofReals).map Contents.atLeastVector)) :
        Fallible (Value F)) = _
  simp only [hvectors, hrank, Contents.join_reals, bind_assoc, pure_bind]
  rfl

theorem cat_map (hφ : Arith.Hom φ) (h : Value.AreReals xs gs) {axis : Value F}
    (haxis : axis.isNone = false) :
    cat (axis.map φ) (xs.map (Value.map φ)) = (cat axis xs).map (Value.map φ) := by
  rw [cat_reals h haxis, cat_reals (h.map φ) (by rw [Value.isNone_map, haxis]),
    Value.asInteger_map hφ]
  have hvectors : (gs.map (Grid.map φ)).map Grid.vectorized
      = (gs.map Grid.vectorized).map (Grid.map φ) := by
    rw [List.map_map, List.map_map]
    exact List.map_congr_left fun g _ => Grid.vectorized_map g φ
  have hrank : ((gs.map (Grid.map φ)).head?.map fun g => g.vectorized.rank).getD 0
      = (gs.head?.map fun g => g.vectorized.rank).getD 0 := by
    cases gs with
    | nil => rfl
    | cons g gs => exact congrArg Grid.rank (Grid.vectorized_map g φ)
  rw [hvectors, hrank]
  cases axis.asInteger with
  | error e => rfl
  | ok n =>
    change (do
      let k ← Value.axisOf ((gs.head?.map fun g => g.vectorized.rank).getD 0) n
      let w ← Fallible.ofOption .badValue
        (Grid.join? k ((gs.map Grid.vectorized).map (Grid.map φ)))
      return .array ⟨.float64, w⟩ : Fallible (Value G)) = Except.map (Value.map φ) (do
        let k ← Value.axisOf ((gs.head?.map fun g => g.vectorized.rank).getD 0) n
        let w ← Fallible.ofOption .badValue (Grid.join? k (gs.map Grid.vectorized))
        return .array ⟨.float64, w⟩)
    cases Value.axisOf ((gs.head?.map fun g => g.vectorized.rank).getD 0) n with
    | error e => rfl
    | ok k =>
      change (do
        let w ← Fallible.ofOption .badValue
          (Grid.join? k ((gs.map Grid.vectorized).map (Grid.map φ)))
        return .array ⟨.float64, w⟩ : Fallible (Value G)) = Except.map (Value.map φ) (do
          let w ← Fallible.ofOption .badValue (Grid.join? k (gs.map Grid.vectorized))
          return .array ⟨.float64, w⟩)
      rw [Grid.join?_map hφ]
      cases Grid.join? k (gs.map Grid.vectorized) <;> rfl

theorem roots_reals (h : Value.AreReals xs gs) : roots xs = do
    let w ← Fallible.ofOption .badValue (Grid.join? 0 (gs.map Grid.flatten))
    return .array ⟨.float64, w⟩ := by
  have hflat : (gs.map Contents.ofReals).map Contents.flatten
      = (gs.map Grid.flatten).map Contents.ofReals := by
    rw [List.map_map, List.map_map]
    rfl
  unfold roots
  rw [allContents_reals h]
  change (do return Value.ofContents (← Contents.join 0 ((gs.map Contents.ofReals).map
    Contents.flatten)) : Fallible (Value F)) = _
  rw [hflat, Contents.join_reals, bind_assoc]
  rfl

theorem roots_map (hφ : Arith.Hom φ) (h : Value.AreReals xs gs) :
    roots (xs.map (Value.map φ)) = (roots xs).map (Value.map φ) := by
  have hflat : (gs.map (Grid.map φ)).map Grid.flatten
      = (gs.map Grid.flatten).map (Grid.map φ) := by
    rw [List.map_map, List.map_map]
    exact List.map_congr_left fun g _ => Grid.flatten_map g φ
  rw [roots_reals h, roots_reals (h.map φ), hflat, Grid.join?_map hφ]
  cases Grid.join? 0 (gs.map Grid.flatten) <;> rfl

/-! ### Squared distances -/

section

variable [Arith.FiniteInts F] [Arith.FiniteInts G]

/-- A squared distance is a scalar: half the sum of the squared differences. -/
theorem l2loss_eq_ok {x y w : Value F} {g h : Grid F} (hx : x.reals? = some g)
    (hy : y.reals? = some h) (hw : l2loss x y = .ok w) :
    ∃ d e s, Grid.zipWith? Arith.sub g h = some d ∧ Grid.zipWith? Arith.mul d d = some e ∧
      Grid.zipWith? Arith.mul (.single (Arith.ofRatio 1 2)) (e.sumAlong (List.range e.rank))
        = some s ∧ w.reals? = some s := by
  unfold l2loss at hw
  obtain ⟨diff, hdiff, hw⟩ := bind_eq_ok.mp hw
  obtain ⟨d, hd, hdr⟩ := Value.operate_eq_ok (Value.numbers?_of_reals? hx)
    (Value.numbers?_of_reals? hy) (.inl (by rw [hx]; rfl)) hdiff
  obtain ⟨sq, hsq, hw⟩ := bind_eq_ok.mp hw
  obtain ⟨e, he, her⟩ := Value.operate_eq_ok (Value.numbers?_of_reals? hdr)
    (Value.numbers?_of_reals? hdr) (.inl (by rw [hdr]; rfl)) hsq
  obtain ⟨sum, hsum, hw⟩ := bind_eq_ok.mp hw
  rw [Value.total_reals her] at hsum
  cases hsum
  have hsr := Value.reals?_reduced (e.sumAlong (List.range e.rank))
  obtain ⟨s, hs, hsw⟩ := Value.operate_eq_ok (g := .single (Arith.ofRatio 1 2)) rfl
    (Value.numbers?_of_reals? hsr) (.inl rfl) hw
  exact ⟨d, e, s, hd, he, hs, hsw⟩

theorem l2loss_map (hφ : Arith.Hom φ) {x y : Value F} {g h : Grid F} (hx : x.reals? = some g)
    (hy : y.reals? = some h) :
    l2loss (x.map φ) (y.map φ) = (l2loss x y).map (Value.map φ) := by
  have hdiff : (x.map φ).sub (y.map φ) = (x.sub y).map (Value.map φ) :=
    Value.operate_map hφ .sub (Value.numbers?_of_reals? hx) (Value.numbers?_of_reals? hy)
      (.inl (by rw [hx]; rfl))
  unfold l2loss
  rw [hdiff]
  cases hd : x.sub y with
  | error e => rfl
  | ok diff =>
    obtain ⟨d, -, hdr⟩ := Value.operate_eq_ok (Value.numbers?_of_reals? hx)
      (Value.numbers?_of_reals? hy) (.inl (by rw [hx]; rfl)) hd
    -- Each step is the step over the other numbers, as long as the values are real.
    have hsquare : (diff.map φ).mul (diff.map φ) = (diff.mul diff).map (Value.map φ) :=
      Value.operate_map hφ .mul (Value.numbers?_of_reals? hdr) (Value.numbers?_of_reals? hdr)
        (.inl (by rw [hdr]; rfl))
    change (do
      let sq ← (diff.map φ).mul (diff.map φ)
      let sum ← sq.total .none
      (Value.real (Arith.ofRatio 1 2)).mul sum : Fallible (Value G)) = Except.map (Value.map φ) (do
        let sq ← diff.mul diff
        let sum ← sq.total .none
        (Value.real (Arith.ofRatio 1 2)).mul sum)
    rw [hsquare]
    cases hs : diff.mul diff with
    | error e => rfl
    | ok sq =>
      obtain ⟨e, -, her⟩ := Value.operate_eq_ok (Value.numbers?_of_reals? hdr)
        (Value.numbers?_of_reals? hdr) (.inl (by rw [hdr]; rfl)) hs
      have htotal : (sq.map φ).total .none = (sq.total .none).map (Value.map φ) :=
        Value.total_map hφ her .none
      change (do
        let sum ← (sq.map φ).total .none
        (Value.real (Arith.ofRatio 1 2)).mul sum : Fallible (Value G))
          = Except.map (Value.map φ) (do
            let sum ← sq.total .none
            (Value.real (Arith.ofRatio 1 2)).mul sum)
      rw [htotal, Value.total_reals her]
      have hhalf : (Value.real (Arith.ofRatio 1 2) : Value G)
          = (Value.real (Arith.ofRatio 1 2) : Value F).map φ := by
        unfold Value.map
        rw [hφ.ofRatio]
      rw [hhalf]
      exact Value.operate_map hφ .mul (g := .single (Arith.ofRatio 1 2)) rfl
        (Value.numbers?_of_reals? (Value.reals?_reduced _)) (.inl rfl)

end

end Kernel

end SlotGrad
