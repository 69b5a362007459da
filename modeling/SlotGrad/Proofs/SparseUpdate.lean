import SlotGrad.Proofs.Broadcasting
import SlotGrad.Proofs.Equations
import SlotGrad.Proofs.RealValues

/-!
# Sparse updates and dense adjoints

The adjoint of indexing makes zeros of the source's shape and adds the derivative of the part into
them; what it answers is then added to the derivative that the source has.  A sparse update adds
into that derivative straight away, which is first brought to the source's shape.  In exact
arithmetic the two leave the same, whatever was in the slot and whoever made it.

## Main definitions

* `Tensor.ofReals` — tensors of real numbers of either precision.
* `Value.addend?`, `Value.IsPart` — what a number or an array counts for in a sum of arrays, and
  the values that can be parts of the derivative of an array.
* `Grid.addAt` — additions at the positions that a selection names.

## Main results

* `plus_isPart` — sums of parts are parts.
* `scatterTarget_spread`, `addInto_eq_ok` — the two steps of a sparse update.
* `scatter_iff_adjoint` — a sparse update leaves what the dense adjoint would.
-/

namespace SlotGrad

/-! ### Tensors of real numbers -/

section

variable {F : Type}

/-- The tensor of real numbers of a precision. -/
def Tensor.ofReals (d : Dtype) (g : Grid F) : Tensor F :=
  match d with
  | .float32 => ⟨.float32, g⟩
  | _ => ⟨.float64, g⟩

theorem Dtype.isReal_iff {d : Dtype} : d.isReal = true ↔ d = .float32 ∨ d = .float64 := by
  cases d <;> simp [isReal]

theorem Grid.map_eq_self {α : Type} {f : α → α} (hf : ∀ x, f x = x) (g : Grid α) : g.map f = g := by
  obtain rfl : f = id := funext hf
  unfold Grid.map
  simp

namespace Tensor

@[simp] theorem shape_ofReals (d : Dtype) (g : Grid F) : (ofReals d g).shape = g.shape := by
  cases d <;> rfl

theorem dtype_ofReals {d : Dtype} (hd : d.isReal = true) (g : Grid F) :
    (ofReals d g).dtype = d := by
  rcases Dtype.isReal_iff.mp hd with rfl | rfl <;> rfl

variable [Arith F]

@[simp] theorem toReals_ofReals (d : Dtype) (g : Grid F) : (ofReals d g).toReals = g := by
  cases d <;> exact Grid.map_eq_self (fun _ => rfl) g

/-- A tensor of real numbers is given by its precision and its numbers. -/
theorem eq_ofReals {d : Dtype} (hd : d.isReal = true) {xs : Grid (Elem F d)} {g : Grid F}
    (hg : xs.map (Elem.toReal d) = g) : (⟨d, xs⟩ : Tensor F) = ofReals d g := by
  cases hg
  rcases Dtype.isReal_iff.mp hd with rfl | rfl <;>
    exact congrArg (Tensor.mk _) (Grid.map_eq_self (fun _ => rfl) xs).symm

theorem zeros_eq_ofReals {d : Dtype} (hd : d.isReal = true) (s : Shape) :
    (zeros s d : Tensor F) = ofReals d (.full s (Arith.ofInt 0)) := by
  rcases Dtype.isReal_iff.mp hd with rfl | rfl <;> rfl

end Tensor

end

variable {K : Type} [Field K] [Arith K] [ExactArith K]

namespace Tensor

/-- In exact arithmetic a conversion to real numbers keeps the numbers. -/
theorem convert_toReals {d : Dtype} (hd : d.isReal = true) (t : Tensor K) :
    t.convert d = ofReals d t.toReals := by
  obtain ⟨e, g⟩ := t
  unfold convert toReals
  rcases Dtype.isReal_iff.mp hd with rfl | rfl
  · split_ifs with he
    · cases he
      exact congrArg (Tensor.mk _) (Grid.map_eq_self (fun _ => rfl) g).symm
    · refine congrArg (Tensor.mk _) (congrArg (Grid.map · g) (funext fun x => ?_))
      unfold Elem.convert
      rw [dif_neg he]
      exact ExactArith.toSingle_eq _
  · split_ifs with he
    · cases he
      exact congrArg (Tensor.mk _) (Grid.map_eq_self (fun _ => rfl) g).symm
    · refine congrArg (Tensor.mk _) (congrArg (Grid.map · g) (funext fun x => ?_))
      unfold Elem.convert
      rw [dif_neg he]

/-- The elements converted to a precision are the numbers. -/
theorem gridAs_toReals {d : Dtype} (hd : d.isReal = true) (t : Tensor K) :
    (⟨d, t.gridAs d⟩ : Tensor K) = ofReals d t.toReals := by
  rw [← convert_toReals hd]
  obtain ⟨e, g⟩ := t
  unfold gridAs convert
  split_ifs with he
  · cases he
    rfl
  · rfl

/-- Tensors are added number by number. -/
theorem binary_add_eq_ok {d : Dtype} (hd : d.isReal = true) {a b t : Tensor K} :
    binary Elem.add d a b = .ok t ↔
      ∃ w, Grid.zipWith? (· + ·) a.toReals b.toReals = some w ∧ ofReals d w = t := by
  have ha := gridAs_toReals hd a
  have hb := gridAs_toReals hd b
  have hbinary : binary Elem.add d a b = .ok t ↔
      ∃ w, Grid.zipWith? (Elem.add d) (a.gridAs d) (b.gridAs d) = some w ∧ ⟨d, w⟩ = t := by
    unfold binary
    cases Grid.zipWith? (Elem.add d) (a.gridAs d) (b.gridAs d) <;> simp
  rw [hbinary]
  rcases Dtype.isReal_iff.mp hd with rfl | rfl
  · have hop : (Elem.add .float32 : K → K → K) = (· + ·) := by
      funext x y
      exact (ExactArith.toSingle_eq _).trans (ExactArith.add_eq x y)
    rw [show a.gridAs .float32 = a.toReals from eq_of_heq (Tensor.mk.inj ha).2,
      show b.gridAs .float32 = b.toReals from eq_of_heq (Tensor.mk.inj hb).2, hop]
    exact Iff.rfl
  · have hop : (Elem.add .float64 : K → K → K) = (· + ·) := by
      funext x y
      exact ExactArith.add_eq x y
    rw [show a.gridAs .float64 = a.toReals from eq_of_heq (Tensor.mk.inj ha).2,
      show b.gridAs .float64 = b.toReals from eq_of_heq (Tensor.mk.inj hb).2, hop]
    exact Iff.rfl

end Tensor

/-! ### Adding at the positions of a selection -/

namespace Grid

omit [Arith K] [ExactArith K] in
/-- An addition at a position is seen there and nowhere else. -/
theorem at_update [Inhabited K] {g : Grid K} {i : List Nat} (hi : i ∈ g.shape.indices)
    (j : List Nat) (x : K) : (g.update j fun old => old + x).at i
      = g.at i + if g.shape.ravel j = g.shape.ravel i then x else 0 := by
  have hlt : g.shape.ravel i < g.data.size := by
    rw [g.size_eq]
    exact Shape.ravel_lt hi
  unfold update «at»
  simp only [Array.getD_eq_getD_getElem?, Array.getElem?_modify]
  rw [Array.getElem?_eq_getElem hlt]
  split_ifs <;> simp

/-- Additions at the positions that a selection names, one after another: a position that is named
twice is added to twice. -/
def addAt (g : Grid K) (sel : Selection) (w : Grid K) : Grid K :=
  (Shape.indices sel.shape).foldl
    (fun acc i => acc.update (sel.source i) fun old => old + w.at i) g

omit [ExactArith K] in
/-- Two grids of one shape that differ by a grid still do so after the same additions. -/
theorem foldl_update_offset {s : Shape} (offset : List Nat → K) (source : List Nat → List Nat)
    (x : List Nat → K) : ∀ (is : List (List Nat)) {g h : Grid K}, g.shape = s → h.shape = s →
      (∀ i ∈ s.indices, g.at i = offset i + h.at i) →
      (is.foldl (fun acc i => acc.update (source i) fun old => old + x i) g).shape = s ∧
        (is.foldl (fun acc i => acc.update (source i) fun old => old + x i) h).shape = s ∧
        ∀ i ∈ s.indices, (is.foldl (fun acc i => acc.update (source i) fun old => old + x i) g).at i
          = offset i + (is.foldl (fun acc i => acc.update (source i) fun old => old + x i) h).at i
  | [], _, _, hg, hh, hoffset => ⟨hg, hh, hoffset⟩
  | j :: is, g, h, hg, hh, hoffset => by
    refine foldl_update_offset offset source x is (by rwa [shape_update]) (by rwa [shape_update]) ?_
    intro i hi
    rw [at_update (hg ▸ hi), at_update (hh ▸ hi), hoffset i hi, hg, hh, add_assoc]

omit [ExactArith K] in
@[simp] theorem shape_addAt (g : Grid K) (sel : Selection) (w : Grid K) :
    (g.addAt sel w).shape = g.shape :=
  (foldl_update_offset (fun _ => 0) sel.source w.at _ rfl rfl
    fun i _ => (zero_add (g.at i)).symm).1

/-- Additions into a grid are the grid added to the same additions into zeros. -/
theorem addAt_eq (g : Grid K) (sel : Selection) (w : Grid K) :
    g.addAt sel w = ofFn g.shape fun i =>
      g.at i + ((full g.shape (Arith.ofInt 0)).addAt sel w).at i := by
  have hzeros : ∀ i ∈ g.shape.indices,
      g.at i = g.at i + (full g.shape (Arith.ofInt 0 : K)).at i := by
    intro i hi
    unfold full
    rw [at_ofFn hi, ExactArith.ofInt_eq, Int.cast_zero, add_zero]
  obtain ⟨hshape, -, hoffset⟩ := foldl_update_offset g.at sel.source w.at
    (Shape.indices sel.shape) rfl (shape_ofFn _ _) hzeros
  refine ext_at hshape fun i hi => ?_
  rw [shape_addAt] at hi
  rw [at_ofFn hi]
  exact hoffset i hi

end Grid

/-- Changes of single elements commute with a function of the elements. -/
theorem Grid.map_foldl_update {α β : Type} {φ : α → β} {f : List Nat → α → α}
    {e : List Nat → β → β} (h : ∀ i x, φ (f i x) = e i (φ x)) (source : List Nat → List Nat) :
    ∀ (is : List (List Nat)) (g : Grid α),
      (is.foldl (fun acc i => acc.update (source i) (f i)) g).map φ
        = is.foldl (fun acc i => acc.update (source i) (e i)) (g.map φ)
  | [], _ => rfl
  | i :: is, g => by
    have hfirst : (g.update (source i) (f i)).map φ = (g.map φ).update (source i) (e i) := by
      unfold update map
      simp only [Grid.mk.injEq, true_and]
      refine Array.ext (by simp) fun n _ _ => ?_
      simp only [Array.getElem_map, Array.getElem_modify]
      split_ifs
      · exact h i _
      · rfl
    rw [List.foldl_cons, List.foldl_cons, ← hfirst]
    exact map_foldl_update h source is _

/-- In exact arithmetic an element is changed by the number that is added to it. -/
theorem Elem.toReal_convert_add {d e : Dtype} (hd : d.isReal = true) (he : e.isReal = true)
    (x : Elem K d) (y : Elem K e) :
    toReal d (convert e d (add e (convert d e x) y)) = toReal d x + toReal e y := by
  rcases Dtype.isReal_iff.mp hd with rfl | rfl <;> rcases Dtype.isReal_iff.mp he with rfl | rfl <;>
    simp [convert, add, toReal]

theorem Dtype.isReal_common {d : Dtype} (hd : d.isReal = true) (e : Dtype) :
    (d.common e).isReal = true := by
  rcases isReal_iff.mp hd with rfl | rfl <;> cases e <;> rfl

theorem Dtype.storesInto_of_isReal {d e : Dtype} (hd : d.isReal = true) (he : e.isReal = true) :
    d.storesInto e = true := by
  rcases isReal_iff.mp hd with rfl | rfl <;> exact he

/-- What an addition at a selection leaves in exact arithmetic. -/
theorem Tensor.addAtSelection_eq_ok {t : Tensor K} (ht : t.dtype.isReal = true) {sel : Selection}
    {values u : Tensor K} :
    t.addAtSelection sel values = .ok u ↔
      ∃ w, values.toReals.broadcastTo? sel.shape = some w ∧
        u = ofReals t.dtype (t.toReals.addAt sel w) := by
  have hreal : ∀ e : Dtype, Elem.toReal e (default : Elem K e) = default := by
    intro e
    cases e <;> rfl
  have hcommon := Dtype.isReal_common ht values.dtype
  have hwide : values.toReals.broadcastTo? sel.shape
      = (values.grid.broadcastTo? sel.shape).map (Grid.map (Elem.toReal values.dtype)) :=
    Grid.broadcastTo?_map (hreal _) _ _
  unfold addAtSelection
  dsimp only
  rw [if_neg (by simp [Dtype.storesInto_of_isReal hcommon ht]), hwide]
  unfold broadcastTo
  cases values.grid.broadcastTo? sel.shape with
  | none =>
    constructor
    · intro h
      cases h
    · rintro ⟨w, hw, -⟩
      cases hw
  | some v =>
    -- Converting what is added to the common type keeps its numbers.
    have hvalues : ∀ i, Elem.toReal (t.dtype.common values.dtype)
        ((gridAs ⟨values.dtype, v⟩ (t.dtype.common values.dtype)).at i)
          = (v.map (Elem.toReal values.dtype)).at i := by
      intro i
      rw [← Grid.at_map (hreal _)]
      have hgrid := congrArg toReals (gridAs_toReals hcommon (⟨values.dtype, v⟩ : Tensor K))
      rw [toReals_ofReals] at hgrid
      exact congrArg (Grid.at · i) hgrid
    rw [Option.map_some]
    simp only [Option.some.injEq, exists_eq_left', bind, Except.bind, pure, Except.pure,
      Except.ok.injEq]
    have hfold := Grid.map_foldl_update (φ := Elem.toReal t.dtype)
      (e := fun i old => old + (v.map (Elem.toReal values.dtype)).at i)
      (fun i x => by rw [← hvalues]; exact Elem.toReal_convert_add ht hcommon x _) sel.source
      (Shape.indices sel.shape) t.grid
    rw [eq_ofReals ht hfold]
    exact eq_comm

/-! ### Parts of a derivative -/

namespace Value

/-- What a plain number, or a scalar or an array of a precision, counts for in a sum with arrays of
that precision. -/
def addend? {F : Type} [Arith F] (d : Dtype) : Value F → Option (Grid F)
  | flag b => some (.single (Arith.ofInt (if b then 1 else 0)))
  | integer n => some (.single (Arith.ofInt n))
  | real x => some (.single x)
  | scalar e x => if e = d then some (.single (Elem.toReal e x)) else Option.none
  | array t => if t.dtype = d then some t.toReals else Option.none
  | _ => Option.none

/-- A value that can be a part of the derivative of an array: a number, or an array of the same
shape. -/
def IsPart {F : Type} [Arith F] (d : Dtype) (s : Shape) (v : Value F) : Prop :=
  ∃ g, v.addend? d = some g ∧ (g.shape = [] ∨ g.shape = s)

variable {d : Dtype} {a b v : Value K} {g h : Grid K}

omit [Field K] [ExactArith K] in
theorem addend?_array (hd : d.isReal = true) (g : Grid K) :
    (array (.ofReals d g) : Value K).addend? d = some g := by
  unfold addend?
  dsimp only
  rw [if_pos (Tensor.dtype_ofReals hd g), Tensor.toReals_ofReals]

omit [Field K] [ExactArith K] in
theorem addend?_reduced (hd : d.isReal = true) (g : Grid K) :
    (reduced (.ofReals d g) : Value K).addend? d = some g := by
  rcases Dtype.isReal_iff.mp hd with rfl | rfl
  · unfold reduced Tensor.ofReals
    dsimp only
    split_ifs with hs
    · exact congrArg some (Grid.single_first hs)
    · exact addend?_array rfl g
  · unfold reduced Tensor.ofReals
    dsimp only
    split_ifs with hs
    · exact congrArg some (Grid.single_first hs)
    · exact addend?_array rfl g

omit [Field K] [ExactArith K] in
theorem reduced_ofReals (hs : g.shape ≠ []) : reduced (.ofReals d g) = array (.ofReals d g) := by
  have hgrid : (Tensor.ofReals d g).grid.shape ≠ [] := by
    rw [← Tensor.shape, Tensor.shape_ofReals]
    exact hs
  exact if_neg hgrid

/-- A part is a plain number, or it holds its numbers in the precision. -/
theorem addend?_eq_some (hd : d.isReal = true) (h : v.addend? d = some g) :
    (∃ w x, v.weak? = some w ∧ w.toReal = .ok x ∧ g = .single x) ∨
      v.weak? = Option.none ∧ v.isArrayLike = true ∧ v.isSequence = false ∧
        v.solid? = some (.ofReals d g) ∧ v.contents = .ok (.numbers (.ofReals d g)) ∧
        (g.shape ≠ [] → v = array (.ofReals d g)) := by
  cases v with
  | flag b => cases h; exact .inl ⟨.flag b, _, rfl, rfl, rfl⟩
  | integer n =>
    cases h
    refine .inl ⟨.integer n, _, rfl, ?_, rfl⟩
    unfold Weak.toReal Weak.realOfInt
    dsimp only
    rw [if_pos (ExactArith.isFinite_eq _)]
  | real x => cases h; exact .inl ⟨.real x, _, rfl, rfl, rfl⟩
  | scalar e x =>
    unfold addend? at h
    dsimp only at h
    split_ifs at h with he
    cases he
    cases h
    -- An element of a tensor counts as one without axes.
    have ht : Tensor.single d x = .ofReals d (.single (Elem.toReal d x)) :=
      Tensor.eq_ofReals hd (Grid.map_single x _)
    refine .inr ⟨rfl, rfl, rfl, congrArg some ht, congrArg (Except.ok ∘ Contents.numbers) ht, ?_⟩
    exact fun hs => absurd rfl hs
  | array t =>
    unfold addend? at h
    dsimp only at h
    split_ifs at h with he
    obtain ⟨e, xs⟩ := t
    cases he
    cases h
    have ht : (⟨e, xs⟩ : Tensor K) = .ofReals e (Tensor.toReals ⟨e, xs⟩) := Tensor.eq_ofReals hd rfl
    exact .inr ⟨rfl, rfl, rfl, congrArg some ht, congrArg (Except.ok ∘ Contents.numbers) ht,
      fun _ => congrArg array ht⟩
  | _ => cases h

/-- A plain number as an element of a precision. -/
theorem toElem_of_toReal (hd : d.isReal = true) {w : Weak K} {x : K} (hw : w.toReal = .ok x) :
    ∃ y, w.toElem d = .ok y ∧ Elem.toReal d y = x := by
  rcases Dtype.isReal_iff.mp hd with rfl | rfl
  · refine ⟨x, ?_, rfl⟩
    unfold Weak.toElem
    rw [hw]
    exact congrArg Except.ok (ExactArith.toSingle_eq x)
  · exact ⟨x, hw, rfl⟩

/-- Two plain numbers are added to a plain number. -/
theorem add_plain {x y : Weak K} {p q : K} (ha : a.weak? = some x) (hb : b.weak? = some y)
    (hx : x.toReal = .ok p) (hy : y.toReal = .ok q) :
    ∃ v, a.add b = .ok v ∧ v.addend? d = some (.single (p + q)) := by
  have hint : ∀ {w : Weak K} {n : Int} {z : K}, w.toInt? = some n → w.toReal = .ok z → z = n := by
    intro w n z hn hz
    cases w with
    | flag b =>
      cases hn
      cases hz
      exact ExactArith.ofInt_eq _
    | integer m =>
      cases hn
      unfold Weak.toReal Weak.realOfInt at hz
      dsimp only at hz
      rw [if_pos (ExactArith.isFinite_eq _)] at hz
      cases hz
      exact ExactArith.ofInt_eq _
    | real _ => cases hn
  unfold add operate
  rw [ha, hb]
  dsimp only
  unfold Weak.combine
  split
  · rename_i m n hm hn
    refine ⟨_, rfl, ?_⟩
    unfold addend?
    dsimp only
    rw [hint hm hx, hint hn hy, ExactArith.ofInt_eq, Int.cast_add]
  · rw [hx, hy]
    exact ⟨_, rfl, congrArg (some ∘ Grid.single) (ExactArith.add_eq p q)⟩

/-- As soon as one of two parts is no plain number, they are added as arrays. -/
theorem add_solid (hd : d.isReal = true) (ha : a.addend? d = some g) (hb : b.addend? d = some h)
    (hsolid : a.weak? = Option.none ∨ b.weak? = Option.none) :
    a.add b = .ok v ↔ ∃ w, Grid.zipWith? (· + ·) g h = some w ∧ reduced (.ofReals d w) = v := by
  -- A plain number stays weak, and whatever else is added is an array of the type.
  have hoperand : ∀ {c : Value K} {e : Grid K}, c.addend? d = some e → ∃ o : Operand K,
      c.operandOf = .ok (some o) ∧ o.toTensor d = .ok (.ofReals d e) ∧ c.isSequence = false ∧
        (c.weak? = Option.none → o = .solid (.ofReals d e) ∧ c.isArrayLike = true) ∧
        (c.weak?.isSome → ∃ w, o = .weak w) := by
    intro c e hc
    rcases addend?_eq_some hd hc with ⟨w, x, hw, hx, rfl⟩ | ⟨hw, harray, hsequence, -, hcontents, -⟩
    · refine ⟨.weak w, ?_, ?_, ?_, ?_, fun _ => ⟨w, rfl⟩⟩
      · unfold operandOf
        rw [hw]
      · obtain ⟨y, hy, rfl⟩ := toElem_of_toReal hd hx
        unfold Operand.toTensor
        dsimp only
        rw [hy]
        exact congrArg Except.ok (Tensor.eq_ofReals hd (Grid.map_single y _))
      · cases c <;> first | rfl | cases hw
      · intro hnone
        rw [hnone] at hw
        cases hw
    · refine ⟨.solid (.ofReals d e), ?_, rfl, hsequence, fun _ => ⟨rfl, harray⟩, ?_⟩
      · unfold operandOf
        rw [hw, hcontents]
        rfl
      · intro hsome
        rw [hw] at hsome
        cases hsome
  obtain ⟨x, hx, hxt, hxs, hxn, hxw⟩ := hoperand ha
  obtain ⟨y, hy, hyt, hys, hyn, hyw⟩ := hoperand hb
  have hweak : ∀ w : Weak K, d.withWeak w.sort = d := by
    intro w
    rcases Dtype.isReal_iff.mp hd with rfl | rfl <;> cases w <;> rfl
  have hdtype : ∀ e : Grid K, (Tensor.ofReals d e).dtype = d := Tensor.dtype_ofReals hd
  -- A weak operand does not widen a real type, so the types meet in this one.
  have hmeet : x.meetDtype y = d := by
    cases hwa : a.weak? with
    | none =>
      rw [(hxn hwa).1]
      cases hwb : b.weak? with
      | none => rw [(hyn hwb).1, Operand.meetDtype, hdtype, hdtype, Dtype.common_self]
      | some _ =>
        obtain ⟨w, rfl⟩ := hyw (by rw [hwb]; rfl)
        rw [Operand.meetDtype, hdtype, hweak]
    | some _ =>
      obtain ⟨w, rfl⟩ := hxw (by rw [hwa]; rfl)
      rw [(hyn (hsolid.resolve_left (by simp [hwa]))).1, Operand.meetDtype, hdtype, hweak]
  -- The arithmetic of plain numbers is left out, as is the joining of sequences.
  have harrays : a.add b = operateArrays .add a b := by
    unfold add operate
    split
    · rename_i hp hq
      rw [hp, hq] at hsolid
      rcases hsolid with h | h <;> cases h
    · rw [if_neg (by simp), if_neg (by simp),
        if_pos (hsolid.imp (fun h => (hxn h).2) fun h => (hyn h).2)]
  have happly : operateArrays .add a b = (do
      return reduced (← Tensor.binary Elem.add d (.ofReals d g) (.ofReals d h))) := by
    unfold operateArrays
    rw [hx, hy]
    change (do
      let e ← Operator.dtype .add (x.meetDtype y)
      return reduced (← Operand.apply Elem.add e x y) : Fallible (Value K)) = _
    rw [hmeet]
    change (do return reduced (← Operand.apply Elem.add d x y) : Fallible (Value K)) = _
    unfold Operand.apply
    rw [hxt, hyt]
    rfl
  rw [harrays, happly, bind_eq_ok]
  constructor
  · rintro ⟨t, ht, hv⟩
    obtain ⟨w, hw, rfl⟩ := (Tensor.binary_add_eq_ok hd).mp ht
    rw [Tensor.toReals_ofReals, Tensor.toReals_ofReals] at hw
    exact ⟨w, hw, pure_eq_ok.mp hv⟩
  · rintro ⟨w, hw, rfl⟩
    refine ⟨.ofReals d w, (Tensor.binary_add_eq_ok hd).mpr ⟨w, ?_, rfl⟩, rfl⟩
    rw [Tensor.toReals_ofReals, Tensor.toReals_ofReals]
    exact hw

omit [ExactArith K] in
/-- Two grids, each of one element or of one shape, are added to such a grid. -/
theorem shape_of_zipWith? {s : Shape} {w : Grid K} (hg : g.shape = [] ∨ g.shape = s)
    (hh : h.shape = [] ∨ h.shape = s) (hw : Grid.zipWith? (· + ·) g h = some w) :
    w.shape = [] ∨ w.shape = s := by
  obtain ⟨-, -, hs, -⟩ := Grid.zipWith?_eq_some hw
  rcases hg with hg | hg <;> rcases hh with hh | hh <;> rw [hg, hh] at hs
  · rw [(Shape.Fits.refl _).broadcast?.1] at hs
    exact .inl (Option.some.inj hs).symm
  · rw [(Shape.fits_nil s).broadcast?.1] at hs
    exact .inr (Option.some.inj hs).symm
  · rw [(Shape.fits_nil s).broadcast?.2] at hs
    exact .inr (Option.some.inj hs).symm
  · rw [(Shape.Fits.refl _).broadcast?.1] at hs
    exact .inr (Option.some.inj hs).symm

/-- A sum of parts is a part. -/
theorem add_isPart (hd : d.isReal = true) {s : Shape} (ha : a.IsPart d s) (hb : b.IsPart d s)
    (hv : a.add b = .ok v) : v.IsPart d s := by
  obtain ⟨g, hg, hgs⟩ := ha
  obtain ⟨h, hh, hhs⟩ := hb
  by_cases hsolid : a.weak? = Option.none ∨ b.weak? = Option.none
  · obtain ⟨w, hw, rfl⟩ := (add_solid hd hg hh hsolid).mp hv
    exact ⟨w, addend?_reduced hd w, shape_of_zipWith? hgs hhs hw⟩
  · obtain ⟨x, p, hx, hxp, -⟩ :=
      (addend?_eq_some hd hg).resolve_right fun h => hsolid (.inl h.1)
    obtain ⟨y, q, hy, hyq, -⟩ :=
      (addend?_eq_some hd hh).resolve_right fun h => hsolid (.inr h.1)
    obtain ⟨u, hu, hadd⟩ := add_plain (d := d) hx hy hxp hyq
    rw [hu] at hv
    cases hv
    exact ⟨_, hadd, .inl rfl⟩

omit [Field K] [ExactArith K] in
theorem zero_isPart (d : Dtype) (s : Shape) : (Store.zero : Value K).IsPart d s :=
  ⟨_, rfl, .inl rfl⟩

/-- What a derivative counts for when a part is added to it. -/
theorem plus_isPart (hd : d.isReal = true) {s : Shape} {c : Value K}
    (hc : c.isNone = false → c.IsPart d s) (hb : b.IsPart d s) (hv : c.plus b = .ok v) :
    v.IsPart d s := by
  unfold plus at hv
  split_ifs at hv with hnone
  · exact add_isPart hd (zero_isPart d s) hb hv
  · exact add_isPart hd (hc (by simpa using hnone)) hb hv

end Value

/-! ### The two ways -/

section

variable {d : Dtype} {s : Shape} {c : Value K} {g : Grid K}

/-- The derivative that a source has, where the absent value counts as zero. -/
def Value.Counts {F : Type} [Arith F] (d : Dtype) (c : Value F) (g : Grid F) : Prop :=
  (if c.isNone then Store.zero else c).addend? d = some g

omit [Field K] [ExactArith K] in
theorem Value.exists_counts (hc : c.isNone = false → c.IsPart d s) :
    ∃ g, c.Counts d g ∧ (g.shape = [] ∨ g.shape = s) := by
  unfold Value.Counts
  cases hnone : c.isNone with
  | true => exact ⟨_, rfl, .inl rfl⟩
  | false => exact hc hnone

/-- An array added to a derivative. -/
theorem plus_array (hd : d.isReal = true) (hs : s ≠ []) (hc : c.Counts d g)
    (hg : g.shape = [] ∨ g.shape = s) {h : Grid K} (hh : h.shape = s) :
    c.plus (.array (.ofReals d h))
      = .ok (.array (.ofReals d (.ofFn s fun i => g.spread i + h.at i))) := by
  have hfits : g.shape.Fits s := by
    rcases hg with hg | hg <;> rw [hg]
    exacts [Shape.fits_nil s, Shape.Fits.refl s]
  have hzip : Grid.zipWith? (· + ·) g h = some (.ofFn s fun i => g.spread i + h.at i) := by
    unfold Grid.zipWith?
    rw [hh, hfits.broadcast?.1, Option.map_some]
    refine congrArg some (Grid.ofFn_congr fun i hi => ?_)
    rw [Shape.project_self hi]
    rfl
  unfold Value.plus
  refine (Value.add_solid hd hc (Value.addend?_array hd h) (.inr rfl)).mpr ⟨_, hzip, ?_⟩
  exact Value.reduced_ofReals (g := .ofFn s _) hs

/-- A derivative that equals zero counts for zero. -/
theorem counts_zero (hc : c.Counts d g) (hzero : (c.isNone || Store.isZeroValue c) = true) :
    g = .single 0 := by
  have hsame : ∀ x : K, Arith.same x (Arith.ofInt 0) = true → x = 0 := by
    intro x hx
    rw [(ExactArith.same_iff _ _).mp hx, ExactArith.ofInt_eq, Int.cast_zero]
  unfold Value.Counts at hc
  cases c with
  | none =>
    cases hc
    exact congrArg Grid.single ((ExactArith.ofInt_eq 0).trans Int.cast_zero)
  | flag b =>
    cases b with
    | false =>
      cases hc
      exact congrArg Grid.single ((ExactArith.ofInt_eq 0).trans Int.cast_zero)
    | true => cases hzero
  | integer n =>
    obtain rfl : n = 0 := by simpa [Store.isZeroValue, Value.isNone] using hzero
    cases hc
    exact congrArg Grid.single ((ExactArith.ofInt_eq 0).trans Int.cast_zero)
  | real x =>
    cases hc
    exact congrArg Grid.single (hsame x hzero)
  | scalar e x =>
    cases e with
    | float64 =>
      simp only [Value.isNone, Bool.false_eq_true, if_false, Value.addend?] at hc
      split_ifs at hc
      cases hc
      exact congrArg Grid.single (hsame x hzero)
    | _ => cases hzero
  | _ => cases hzero

/-- A plain number read as an array is its number, unless it is an integer that no element type
holds. -/
theorem contents_of_weak? {w : Weak K} {x : K} (hw : c.weak? = some w) (hx : w.toReal = .ok x) :
    c.contents = .ok (.objects (.single c)) ∨
      ∃ t : Tensor K, c.contents = .ok (.numbers t) ∧ t.shape = [] ∧ t.toReals = .single x := by
  cases c with
  | flag b =>
    cases hw
    cases hx
    exact .inr ⟨_, rfl, rfl, Grid.map_single _ _⟩
  | integer n =>
    cases hw
    unfold Weak.toReal Weak.realOfInt at hx
    dsimp only at hx
    rw [if_pos (ExactArith.isFinite_eq _)] at hx
    cases hx
    unfold Value.contents
    split_ifs with hfits
    · refine .inr ⟨_, rfl, rfl, ?_⟩
      unfold fitsInt64 at hfits
      simp only [Bool.and_eq_true, decide_eq_true_eq] at hfits
      refine (Grid.map_single _ _).trans ?_
      refine congrArg (fun m : Int => Grid.single (Arith.ofInt m : K)) ?_
      exact Int64.toInt_ofInt_of_le hfits.1 hfits.2
    · exact .inl rfl
  | real y =>
    cases hw
    cases hx
    exact .inr ⟨_, rfl, rfl, Grid.map_single _ _⟩
  | _ => cases hw

/-- Numbers stretched to a shape and converted to a precision. -/
theorem broadcastTo_numbers (hd : d.isReal = true) {t : Tensor K} (hfits : t.shape.Fits s) :
    ∃ u : Tensor K, (Contents.numbers t).broadcastTo s = .ok (.numbers u) ∧
      u.convert d = .ofReals d (.ofFn s t.toReals.spread) := by
  have hwide := Grid.broadcastTo?_of_fits hfits
  refine ⟨⟨t.dtype, .ofFn s t.grid.spread⟩, ?_, ?_⟩
  · unfold Contents.broadcastTo Contents.restructure
    dsimp only
    rw [hwide]
    rfl
  · rw [Tensor.convert_toReals hd]
    unfold Tensor.toReals
    rw [Grid.map_ofFn]
    refine congrArg (Tensor.ofReals d) (Grid.ofFn_congr fun i _ => ?_)
    exact (Grid.spread_map (by cases t.dtype <;> rfl) t.grid i).symm

omit [Field K] [ExactArith K] in
/-- The element type in which a derivative of a precision meets another value, if the source meets
it in that precision. -/
theorem commonDtype_solid (hd : d.isReal = true) {t u : Tensor K} {dy : Value K}
    (hsource : (Value.array t).commonDtype dy = .ok d) (hweak : c.weak? = none)
    (hsolid : c.solid? = some u) (hu : u.dtype = d) : c.commonDtype dy = .ok d := by
  unfold Value.commonDtype at hsource ⊢
  dsimp only at hsource ⊢
  rw [hweak, hsolid]
  obtain ⟨x, hx, hsource⟩ := bind_eq_ok.mp hsource
  cases hx
  obtain ⟨y, hy, hsource⟩ := bind_eq_ok.mp hsource
  have hmeet := pure_eq_ok.mp hsource
  refine bind_eq_ok.mpr ⟨.solid u, rfl, bind_eq_ok.mpr ⟨y, hy, pure_eq_ok.mpr ?_⟩⟩
  cases y with
  | weak w =>
    unfold Operand.meetDtype
    dsimp only
    rw [hu]
    rcases Dtype.isReal_iff.mp hd with rfl | rfl <;> cases w <;> rfl
  | solid v =>
    unfold Operand.meetDtype at hmeet ⊢
    dsimp only at hmeet ⊢
    rw [hu, ← hmeet, Dtype.common_assoc, Dtype.common_self]

omit [Field K] [ExactArith K] in
/-- A sparse update copies a derivative that is not zero, unless the pass made it at the source's
shape. -/
theorem scatterTarget_copy {owned : Bool} {source dy : Value K} {full : Shape}
    {cs wide : Contents K} (hzero : (c.isNone || Store.isZeroValue c) = false)
    (hsource : source.shape = .ok full) (hcontents : c.contents = .ok cs)
    (hcopy : ¬ (owned = true ∧ cs.shape = full)) (hwide : cs.broadcastTo full = .ok wide)
    (hd : c.commonDtype dy = .ok d) :
    (∀ t, wide = .numbers t → scatterTarget owned c source dy = .ok (.array (t.convert d))) ∧
      ∀ g w, wide = .objects g → c.weak? = some w →
        scatterTarget owned c source dy = do return .array ⟨d, .full full (← w.toElem d)⟩ := by
  have hcshape : c.shape = .ok cs.shape := by
    unfold Value.shape
    rw [hcontents]
    rfl
  have hne : (owned && cs.shape == full) = false := by
    simpa using hcopy
  unfold scatterTarget
  simp only [hzero, hsource, hcshape, hne, hcontents, hwide, hd, Bool.false_eq_true, if_false, bind,
    Except.bind]
  constructor
  · rintro t rfl
    rfl
  · rintro g w rfl hw
    rw [hw]

/-- The derivative that a sparse update adds into is the one that was there, at the source's
shape. -/
theorem scatterTarget_spread (hd : d.isReal = true) (owned : Bool) {t : Tensor K}
    (ht : t.shape ≠ []) {dy : Value K} (hsource : (Value.array t).commonDtype dy = .ok d)
    (hc : c.Counts d g) (hg : g.shape = [] ∨ g.shape = t.shape)
    (hplain : c.isPlain = true → Store.isZeroValue c = false → c.commonDtype dy = .ok d) :
    scatterTarget owned c (.array t) dy = .ok (.array (.ofReals d (.ofFn t.shape g.spread))) := by
  have hshape : (Value.array t : Value K).shape = .ok t.shape := rfl
  cases hzero : (c.isNone || Store.isZeroValue c) with
  | true =>
    unfold scatterTarget
    rw [hzero, if_pos rfl, hshape, hsource, counts_zero hc hzero]
    -- The zero of a reset is replaced by zeros, and these are its copies.
    refine congrArg (fun u => Except.ok (Value.array u)) ((Tensor.zeros_eq_ofReals hd _).trans ?_)
    refine congrArg (Tensor.ofReals d) (Grid.ofFn_congr fun i _ => ?_)
    rw [Grid.spread_single, ExactArith.ofInt_eq, Int.cast_zero]
  | false =>
    obtain ⟨hpresent, hnonzero⟩ := Bool.or_eq_false_iff.mp hzero
    unfold Value.Counts at hc
    rw [hpresent, if_neg Bool.false_ne_true] at hc
    rcases Value.addend?_eq_some hd hc with ⟨w, x, hw, hx, rfl⟩ |
      ⟨hweak, -, -, hsolid, hcontents, harray⟩
    · -- A plain number has no axes, so it is copied.
      have hcommon := hplain (by unfold Value.isPlain; rw [hw]; rfl) hnonzero
      rcases contents_of_weak? hw hx with hcontents | ⟨u, hcontents, hu, hux⟩
      · have hwide : (Contents.objects (.single c)).broadcastTo t.shape
            = .ok (.objects (.ofFn t.shape (Grid.single c).spread)) := by
          unfold Contents.broadcastTo Contents.restructure
          dsimp only
          rw [Grid.broadcastTo?_of_fits (Shape.fits_nil _)]
          rfl
        obtain ⟨y, hy, rfl⟩ := Value.toElem_of_toReal hd hx
        rw [(scatterTarget_copy hzero hshape hcontents (fun h => ht h.2.symm) hwide hcommon).2
          _ w rfl hw, hy]
        refine congrArg (fun u => Except.ok (Value.array u)) (Tensor.eq_ofReals hd ?_)
        unfold Grid.full
        rw [Grid.map_ofFn]
        exact Grid.ofFn_congr fun i _ => (Grid.spread_single _ i).symm
      · obtain ⟨u', hwide, hconvert⟩ := broadcastTo_numbers hd (t := u) (s := t.shape)
          (hu ▸ Shape.fits_nil _)
        have hcopy : ¬ (owned = true ∧ (Contents.numbers u).shape = t.shape) := fun h =>
          ht (h.2.symm.trans hu)
        rw [(scatterTarget_copy hzero hshape hcontents hcopy hwide hcommon).1 u' rfl, hconvert, hux]
    · have hcommon := commonDtype_solid hd hsource hweak hsolid (Tensor.dtype_ofReals hd g)
      have hcs : (Contents.numbers (.ofReals d g)).shape = g.shape := Tensor.shape_ofReals d g
      by_cases hkeep : owned = true ∧ g.shape = t.shape
      · -- The pass made the derivative at this shape, and goes on with it.
        have hcshape : c.shape = .ok t.shape := by
          unfold Value.shape
          rw [hcontents, ← hkeep.2, ← hcs]
          rfl
        unfold scatterTarget
        rw [hzero, if_neg Bool.false_ne_true, hshape, hcshape, hkeep.1]
        change (if (true && t.shape == t.shape) = true then _ else _) = _
        rw [if_pos (by simp), harray (hkeep.2 ▸ ht)]
        refine congrArg (fun e => Except.ok (Value.array (.ofReals d e))) ?_
        refine Grid.ext_at hkeep.2 fun i hi => ?_
        rw [← hkeep.2, Grid.at_ofFn hi, Grid.spread_of_mem hi]
      -- What the pass has not made itself is copied, at the shape and in the type of both.
      · have hfits : (Tensor.ofReals d g).shape.Fits t.shape := by
          rw [Tensor.shape_ofReals]
          rcases hg with hg | hg <;> rw [hg]
          exacts [Shape.fits_nil _, Shape.Fits.refl _]
        obtain ⟨u, hwide, hconvert⟩ := broadcastTo_numbers hd hfits
        rw [(scatterTarget_copy hzero hshape hcontents (by rwa [hcs]) hwide hcommon).1 u rfl,
          hconvert, Tensor.toReals_ofReals]

/-- What an addition at an index leaves: the index selects positions, and the derivative of the part
is stretched to them. -/
theorem addInto_eq_ok (hd : d.isReal = true) {e : Grid K} {index dy v : Value K} :
    addInto (.array (.ofReals d e)) index dy = .ok v ↔
      ∃ ps sel u w, index.picks = .ok ps ∧ Selection.resolve ps e.shape = .ok sel ∧
        dy.contents = .ok (.numbers u) ∧ u.toReals.broadcastTo? sel.shape = some w ∧
        .array (.ofReals d (e.addAt sel w)) = v := by
  have hshape := Tensor.shape_ofReals d e
  have hreals := Tensor.toReals_ofReals d e
  have hdtype := Tensor.dtype_ofReals hd e
  unfold addInto Tensor.addAtIndex
  dsimp only
  rw [hshape]
  constructor
  · intro h
    obtain ⟨t, ht, hv⟩ := bind_eq_ok.mp h
    obtain ⟨ps, hps, ht⟩ := bind_eq_ok.mp ht
    obtain ⟨sel, hsel, ht⟩ := bind_eq_ok.mp ht
    obtain ⟨cs, hcs, ht⟩ := bind_eq_ok.mp ht
    cases cs with
    | numbers u =>
      obtain ⟨w, hw, rfl⟩ := (Tensor.addAtSelection_eq_ok (hdtype.symm ▸ hd)).mp ht
      rw [hdtype, hreals] at hv
      exact ⟨ps, sel, u, w, hps, hsel, hcs, hw, pure_eq_ok.mp hv⟩
    | texts _ => cases ht
    | objects _ => cases ht
  · rintro ⟨ps, sel, u, w, hps, hsel, hcs, hw, rfl⟩
    have hadd := (Tensor.addAtSelection_eq_ok (t := .ofReals d e) (hdtype.symm ▸ hd)).mpr
      ⟨w, hw, rfl⟩
    rw [hdtype, hreals] at hadd
    refine bind_eq_ok.mpr ⟨_, bind_eq_ok.mpr ⟨ps, hps, bind_eq_ok.mpr ⟨sel, hsel,
      bind_eq_ok.mpr ⟨_, hcs, hadd⟩⟩⟩, rfl⟩

/-- What makes both ways agree: the source is an array with axes, the derivative that it has is
unset, a number or an array of the source's shape, and the derivative of the part meets both in the
precision. -/
structure Meets {F : Type} [Arith F] (d : Dtype) (t : Tensor F) (c dy : Value F) : Prop where
  /-- The source has axes. -/
  axes : t.shape ≠ []
  /-- Beside the source the derivative of the part has the precision. -/
  source : (Value.array t).commonDtype dy = .ok d
  /-- The derivative that the source has is a part of a derivative of its shape. -/
  part : c.isNone = false → c.IsPart d t.shape
  /-- A plain number beside the derivative of the part makes an array of the precision. -/
  plain : c.isPlain = true → Store.isZeroValue c = false → c.commonDtype dy = .ok d

/-- **A sparse update agrees with the dense adjoint.**  In exact arithmetic it completes exactly if
the adjoint does and its answer can be added, and it leaves the same. -/
theorem scatter_iff_adjoint (hd : d.isReal = true) (owned : Bool) {t : Tensor K}
    {index dy v : Value K} (h : Meets d t c dy) :
    (∃ target, scatterTarget owned c (.array t) dy = .ok target ∧ addInto target index dy = .ok v) ↔
      ∃ dx, Kernel.sliceAdjoint (.array t) index dy = .ok dx ∧ c.plus dx = .ok v := by
  obtain ⟨ht, hsource, hc, hplain⟩ := h
  obtain ⟨g, hcounts, hg⟩ := Value.exists_counts hc
  have htarget := scatterTarget_spread hd owned ht hsource hcounts hg hplain
  have hadjoint : ∀ dx, Kernel.sliceAdjoint (.array t) index dy = .ok dx ↔
      addInto (.array (.ofReals d (.full t.shape (Arith.ofInt 0)))) index dy = .ok dx := by
    intro dx
    rw [← Tensor.zeros_eq_ofReals hd]
    unfold Kernel.sliceAdjoint addInto
    rw [hsource]
    exact Iff.rfl
  have hsum : ∀ (sel : Selection) (w : Grid K),
      c.plus (.array (.ofReals d ((Grid.full t.shape (Arith.ofInt 0)).addAt sel w)))
        = .ok (.array (.ofReals d ((Grid.ofFn t.shape g.spread).addAt sel w))) := by
    intro sel w
    rw [plus_array hd ht hcounts hg (Grid.shape_addAt _ sel w), Grid.addAt_eq (.ofFn _ _)]
    refine congrArg (fun e => Except.ok (Value.array (.ofReals d e))) ?_
    exact Grid.ofFn_congr fun i hi => by rw [Grid.at_ofFn hi]; rfl
  constructor
  · rintro ⟨target, htarget', hv⟩
    rw [htarget] at htarget'
    cases htarget'
    obtain ⟨ps, sel, u, w, hps, hsel, hu, hw, rfl⟩ := (addInto_eq_ok hd).mp hv
    exact ⟨_, (hadjoint _).mpr ((addInto_eq_ok hd).mpr ⟨ps, sel, u, w, hps, hsel, hu, hw, rfl⟩),
      hsum sel w⟩
  · rintro ⟨dx, hdx, hv⟩
    obtain ⟨ps, sel, u, w, hps, hsel, hu, hw, rfl⟩ := (addInto_eq_ok hd).mp ((hadjoint _).mp hdx)
    rw [hsum sel w] at hv
    cases hv
    exact ⟨_, htarget, (addInto_eq_ok hd).mpr ⟨ps, sel, u, w, hps, hsel, hu, hw, rfl⟩⟩

/-- The answer of the dense adjoint is a part of the source's derivative. -/
theorem sliceAdjoint_isPart (hd : d.isReal = true) {t : Tensor K} {index dy dx : Value K}
    (hsource : (Value.array t).commonDtype dy = .ok d)
    (hdx : Kernel.sliceAdjoint (.array t) index dy = .ok dx) : dx.IsPart d t.shape := by
  unfold Kernel.sliceAdjoint at hdx
  rw [hsource] at hdx
  have hdx : addInto (.array (.zeros t.shape d)) index dy = .ok dx := hdx
  rw [Tensor.zeros_eq_ofReals hd] at hdx
  obtain ⟨-, sel, -, w, -, -, -, -, rfl⟩ := (addInto_eq_ok hd).mp hdx
  exact ⟨_, Value.addend?_array hd _, .inr (Grid.shape_addAt _ sel w)⟩

end

end SlotGrad
