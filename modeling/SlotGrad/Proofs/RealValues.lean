import SlotGrad.Kernel.Loss
import SlotGrad.Proofs.Structure
import SlotGrad.Proofs.ValueMap

/-!
# Kernels on real values

A value is real if it is a plain real number, a real element, or an array of real numbers; it stands
for a grid of real numbers.  On real values every kernel is an operation on these grids, and the
equations of this module say which.  They hold over every number system in which integers are
finite, so they are read over a field and over its dual numbers alike.

## Main definitions

* `Value.reals?`, `Value.numbers?` — the grid that a real value stands for, and a value that may be
  a plain integer as well.
* `Value.packed` — a grid as the result of an operator.
* `Arith.FiniteInts` — number systems in which integers are finite.

## Main results

* `Value.operate_numbers` — operators.
* `Value.total_reals`, `Value.average_reals` — reductions.
* `Kernel.mtimes_reals`, `Kernel.reshapeTo_reals`, `Value.getAt_reals`, `Kernel.cat_reals`,
  `Kernel.roots_reals` — kernels that move members about.
-/

namespace SlotGrad

/-- A number system in which integers are finite. -/
class Arith.FiniteInts (F : Type) [Arith F] : Prop where
  /-- Integers are finite. -/
  isFinite_ofInt : ∀ n : Int, Arith.isFinite (Arith.ofInt n : F) = true

instance {K : Type} [Field K] [Arith K] [ExactArith K] : Arith.FiniteInts K :=
  ⟨fun _ => ExactArith.isFinite_eq _⟩

instance {K : Type} [Field K] [Arith K] [Arith.FiniteInts K] : Arith.FiniteInts (Dual K) :=
  ⟨fun n => Arith.FiniteInts.isFinite_ofInt (F := K) n⟩

variable {F G : Type}

namespace Value

/-- The grid of real numbers that a real value stands for. -/
def reals? : Value F → Option (Grid F)
  | real x => some (.single x)
  | scalar .float64 x => some (.single x)
  | array ⟨.float64, g⟩ => some g
  | _ => Option.none

@[simp] theorem reals?_real (x : F) : (real x).reals? = some (.single x) := rfl

@[simp] theorem reals?_array (g : Grid F) : (array ⟨.float64, g⟩ : Value F).reals? = some g := rfl

@[simp] theorem reals?_scalar (x : F) : (scalar .float64 x : Value F).reals? = some (.single x) :=
  rfl

theorem reals?_eq_some {v : Value F} {g : Grid F} (h : v.reals? = some g) :
    (∃ x, v = real x ∧ g = .single x) ∨ (∃ x : F, v = scalar .float64 x ∧ g = .single x) ∨
      v = array ⟨.float64, g⟩ := by
  cases v with
  | real x =>
    cases h
    exact .inl ⟨x, rfl, rfl⟩
  | scalar d x =>
    cases d with
    | float64 =>
      cases h
      exact .inr (.inl ⟨x, rfl, rfl⟩)
    | _ => cases h
  | array t =>
    obtain ⟨d, g'⟩ := t
    cases d with
    | float64 =>
      cases h
      exact .inr (.inr rfl)
    | _ => cases h
  | _ => cases h

/-- Whether the value is a plain number. -/
def isPlain (v : Value F) : Bool := v.weak?.isSome

variable [Arith F] [Arith G] {φ : F → G}

/-- The grid that a real value or a plain integer stands for. -/
def numbers? : Value F → Option (Grid F)
  | integer n => some (.single (Arith.ofInt n))
  | v => v.reals?

theorem numbers?_of_reals? {v : Value F} {g : Grid F} (h : v.reals? = some g) :
    v.numbers? = some g := by
  cases v with
  | integer n => cases h
  | _ => exact h

/-- A value that stands for a grid is a plain number, which stands for a single element, or holds
the grid. -/
theorem numbers?_eq_some {v : Value F} {g : Grid F} (h : v.numbers? = some g) :
    (∃ n, v = integer n ∧ g = .single (Arith.ofInt n)) ∨ (∃ x, v = real x ∧ g = .single x) ∨
      (∃ x : F, v = scalar .float64 x ∧ g = .single x) ∨ v = array ⟨.float64, g⟩ := by
  cases v with
  | integer n =>
    cases h
    exact .inl ⟨n, rfl, rfl⟩
  | _ => exact .inr (reals?_eq_some h)

/-- A grid as the result of an operator: plain if both operands were plain. -/
def packed (plain : Bool) (g : Grid F) : Value F :=
  if plain then real g.first else reduced ⟨.float64, g⟩

end Value

/-- The operator on two real numbers. -/
def Operator.onReals [Arith F] : Operator → F → F → F
  | .add => Arith.add
  | .sub => Arith.sub
  | .mul => Arith.mul
  | .div => Arith.div

namespace Grid

variable {α β : Type}

theorem single_first [Inhabited α] {g : Grid α} (h : g.shape = []) : single g.first = g :=
  ext_at h.symm fun i _ => by rw [at_single, first_eq_at h i]

/-- A function that keeps an operation is applied before or after it. -/
theorem zipWith?_map [Inhabited α] [Inhabited β] {f : α → α → α} {f' : β → β → β} {φ : α → β}
    (hφ : φ default = default) (hf : ∀ x y, φ (f x y) = f' (φ x) (φ y)) (a b : Grid α) :
    zipWith? f' (a.map φ) (b.map φ) = (zipWith? f a b).map (Grid.map φ) := by
  unfold zipWith?
  rw [shape_map, shape_map, Option.map_map]
  congr 1
  funext s
  rw [Function.comp_apply, map_ofFn]
  congr 1
  funext i
  rw [at_map hφ, at_map hφ, hf]

theorem first_map (g : Grid α) (φ : α → β) [Inhabited α] [Inhabited β] (hφ : φ default = default) :
    (g.map φ).first = φ g.first := by
  unfold first map
  simp only [Array.getD_eq_getD_getElem?, Array.getElem?_map]
  cases g.data[0]? with
  | none => exact hφ.symm
  | some x => rfl

end Grid

namespace Value

variable [Arith F] [Arith G] {φ : F → G}

theorem reals?_reduced (g : Grid F) : (reduced ⟨.float64, g⟩ : Value F).reals? = some g := by
  unfold reduced
  dsimp only
  split
  · rename_i h
    exact congrArg some (Grid.single_first h)
  · rfl

theorem reals?_packed {plain : Bool} {g : Grid F} (h : plain = true → g.shape = []) :
    (packed plain g).reals? = some g := by
  unfold packed
  split
  · rename_i hp
    exact congrArg some (Grid.single_first (h hp))
  · exact reals?_reduced g

theorem contents_of_reals? {v : Value F} {g : Grid F} (h : v.reals? = some g) :
    v.contents = .ok (.numbers ⟨.float64, g⟩) := by
  rcases reals?_eq_some h with ⟨x, rfl, rfl⟩ | ⟨x, rfl, rfl⟩ | rfl <;> rfl

theorem shape_of_reals? {v : Value F} {g : Grid F} (h : v.reals? = some g) :
    v.shape = .ok g.shape := by
  unfold shape
  rw [contents_of_reals? h]
  rfl

/-- A plain integer has no axes, whether it fits a machine integer or not. -/
theorem shape_of_numbers? {v : Value F} {g : Grid F} (h : v.numbers? = some g) :
    v.shape = .ok g.shape := by
  rcases numbers?_eq_some h with ⟨n, rfl, rfl⟩ | hv
  · unfold shape contents
    split_ifs <;> rfl
  · refine shape_of_reals? ?_
    rcases hv with ⟨x, rfl, rfl⟩ | ⟨x, rfl, rfl⟩ | rfl <;> rfl

/-! ### Functions applied to real values -/

omit [Arith F] [Arith G] in
theorem reals?_map (φ : F → G) (v : Value F) : (v.map φ).reals? = v.reals?.map (Grid.map φ) := by
  cases v with
  | real x => exact congrArg some (Grid.map_single x φ).symm
  | scalar d x =>
    cases d with
    | float64 => exact congrArg some (Grid.map_single x φ).symm
    | _ => rfl
  | array t =>
    obtain ⟨d, g⟩ := t
    cases d <;> rfl
  | _ => rfl

theorem numbers?_map (h : Arith.Hom φ) (v : Value F) :
    (v.map φ).numbers? = v.numbers?.map (Grid.map φ) := by
  cases v with
  | integer n => exact congrArg some ((Grid.map_single _ φ).trans (by rw [h.ofInt])).symm
  | real x => exact reals?_map φ (real x)
  | scalar d x => exact reals?_map φ (scalar d x)
  | array t => exact reals?_map φ (array t)
  | _ => rfl

omit [Arith F] [Arith G] in
theorem isPlain_map (φ : F → G) (v : Value F) : (v.map φ).isPlain = v.isPlain := by
  unfold isPlain
  rw [weak?_map, Option.isSome_map]

theorem reduced_map (h : Arith.Hom φ) (g : Grid F) :
    (reduced ⟨.float64, g⟩ : Value F).map φ = reduced ⟨.float64, g.map φ⟩ := by
  unfold reduced
  dsimp only
  rw [Grid.shape_map]
  split
  · exact congrArg (scalar .float64) (Grid.first_map g φ (h.ofInt 0)).symm
  · rfl

theorem packed_map (h : Arith.Hom φ) (plain : Bool) (g : Grid F) :
    (packed plain g).map φ = packed plain (g.map φ) := by
  unfold packed
  split
  · exact congrArg real (Grid.first_map g φ (h.ofInt 0)).symm
  · exact reduced_map h g

/-! ### Operators -/

variable [Arith.FiniteInts F]

/-- A value that stands for a grid is an operand that stands for it. -/
theorem operandOf_numbers {v : Value F} {g : Grid F} (h : v.numbers? = some g) :
    ∃ o : Operand F, v.operandOf = .ok (some o) ∧ o.toTensor .float64 = .ok ⟨.float64, g⟩ ∧
      (v.isPlain = false → o = .solid ⟨.float64, g⟩) ∧
      ∀ w, v.weak? = some w → o = .weak w ∧ w.toReal = .ok g.first ∧ g.shape = [] := by
  have hfinite : ∀ n, Weak.realOfInt n = (.ok (Arith.ofInt n) : Fallible F) := by
    intro n
    unfold Weak.realOfInt
    dsimp only
    rw [if_pos (Arith.FiniteInts.isFinite_ofInt n)]
  rcases numbers?_eq_some h with ⟨n, rfl, rfl⟩ | ⟨x, rfl, rfl⟩ | ⟨x, rfl, rfl⟩ | rfl
  · refine ⟨.weak (.integer n), rfl, ?_, ?_, ?_⟩
    · unfold Operand.toTensor Weak.toElem Weak.toReal
      dsimp only
      rw [hfinite]
      rfl
    · intro hp
      cases hp
    · intro w hw
      cases hw
      exact ⟨rfl, hfinite n, rfl⟩
  · refine ⟨.weak (.real x), rfl, rfl, ?_, ?_⟩
    · intro hp
      cases hp
    · intro w hw
      cases hw
      exact ⟨rfl, rfl, rfl⟩
  · refine ⟨.solid (.single .float64 x), rfl, rfl, fun _ => rfl, ?_⟩
    intro w hw
    cases hw
  · refine ⟨.solid ⟨.float64, g⟩, rfl, rfl, fun _ => rfl, ?_⟩
    intro w hw
    cases hw

/-- Two plain numbers, of which one is real, are combined as real numbers. -/
theorem operate_plain (op : Operator) {a b : Value F} {g h : Grid F} (ha : a.numbers? = some g)
    (hb : b.numbers? = some h) (hreal : a.reals?.isSome ∨ b.reals?.isSome) (hpa : a.isPlain = true)
    (hpb : b.isPlain = true) : operate op a b = Weak.combineReals op g.first h.first := by
  obtain ⟨x, hx⟩ := Option.isSome_iff_exists.mp hpa
  obtain ⟨y, hy⟩ := Option.isSome_iff_exists.mp hpb
  obtain ⟨_, -, -, -, hwa⟩ := operandOf_numbers ha
  obtain ⟨_, -, -, -, hwb⟩ := operandOf_numbers hb
  have hxreal := (hwa x hx).2.1
  have hyreal := (hwb y hy).2.1
  have hint : ∀ {v : Value F} {w : Weak F}, v.weak? = some w → v.reals?.isSome = true →
      w.toInt? = Option.none := by
    intro v w hw hv
    cases v <;> cases hw <;> first | rfl | cases hv
  unfold operate
  rw [hx, hy]
  dsimp only
  unfold Weak.combine
  rw [hxreal, hyreal]
  rcases hreal with hr | hr
  · rw [hint hx hr]
    rfl
  · rw [hint hy hr]
    cases x.toInt? <;> rfl

/-- As soon as one operand is no plain number, the operator is computed on arrays. -/
theorem operate_solid (op : Operator) {a b : Value F} {g h : Grid F} (ha : a.numbers? = some g)
    (hb : b.numbers? = some h) (hsolid : a.isPlain = false ∨ b.isPlain = false) :
    operate op a b = match Grid.zipWith? op.onReals g h with
      | some w => .ok (reduced ⟨.float64, w⟩)
      | Option.none => .error .badValue := by
  obtain ⟨x, hox, htx, hsx, hwx⟩ := operandOf_numbers ha
  obtain ⟨y, hoy, hty, hsy, hwy⟩ := operandOf_numbers hb
  have hsequence : ∀ {v : Value F} {k : Grid F}, v.numbers? = some k → v.isSequence = false ∧
      (v.isPlain = false → v.isArrayLike = true) := by
    intro v k hv
    rcases numbers?_eq_some hv with ⟨n, rfl, rfl⟩ | ⟨z, rfl, rfl⟩ | ⟨z, rfl, rfl⟩ | rfl
    · exact ⟨rfl, fun h => by cases h⟩
    · exact ⟨rfl, fun h => by cases h⟩
    · exact ⟨rfl, fun _ => rfl⟩
    · exact ⟨rfl, fun _ => rfl⟩
  have hlike : a.isArrayLike = true ∨ b.isArrayLike = true :=
    hsolid.imp (hsequence ha).2 (hsequence hb).2
  -- The arithmetic of plain numbers takes two of them, and sequences are no numbers.
  have harrays : operate op a b = operateArrays op a b := by
    unfold operate
    split
    · rename_i p q hp hq
      rcases hsolid with h | h
      · unfold isPlain at h
        rw [hp] at h
        cases h
      · unfold isPlain at h
        rw [hq] at h
        cases h
    · rw [if_neg (by simp [(hsequence ha).1]), if_neg (by simp [(hsequence hb).1]), if_pos hlike]
  -- A weak operand takes the type of the other one, which is real.
  have hmeet : x.meetDtype y = .float64 := by
    cases hpa : a.isPlain with
    | false =>
      rw [hsx hpa]
      cases hpb : b.isPlain with
      | false => rw [hsy hpb]; rfl
      | true =>
        obtain ⟨w, hw⟩ := Option.isSome_iff_exists.mp hpb
        rw [(hwy w hw).1]
        cases w <;> rfl
    | true =>
      obtain ⟨w, hw⟩ := Option.isSome_iff_exists.mp hpa
      rw [(hwx w hw).1, hsy (hsolid.resolve_left (by simp [hpa]))]
      cases w <;> rfl
  have hdtype : op.dtype .float64 = .ok .float64 := by cases op <;> rfl
  have hop : op.onElements .float64 = (op.onReals : F → F → F) := by cases op <;> rfl
  rw [harrays]
  unfold operateArrays
  rw [hox, hoy]
  change (do
    let d ← op.dtype (x.meetDtype y)
    return reduced (← Operand.apply op.onElements d x y) : Fallible (Value F)) = _
  rw [hmeet, hdtype]
  change (do return reduced (← Operand.apply op.onElements .float64 x y) : Fallible (Value F)) = _
  unfold Operand.apply
  rw [htx, hty]
  change (do return reduced (← Tensor.binary op.onElements .float64 ⟨.float64, g⟩ ⟨.float64, h⟩) :
    Fallible (Value F)) = _
  unfold Tensor.binary
  rw [Tensor.gridAs_self, Tensor.gridAs_self, hop]
  cases Grid.zipWith? op.onReals g h <;> rfl

/-- An operator on real values is the operator on the elements of the grids they stand for.  Only
two plain numbers cannot be divided if the divisor is zero. -/
theorem operate_numbers (op : Operator) {a b : Value F} {g h : Grid F} (ha : a.numbers? = some g)
    (hb : b.numbers? = some h) (hreal : a.reals?.isSome ∨ b.reals?.isSome) :
    operate op a b =
      if op = .div ∧ a.isPlain ∧ b.isPlain ∧ Arith.same h.first (Arith.ofInt 0) then
        .error .divisionByZero
      else match Grid.zipWith? op.onReals g h with
        | some w => .ok (packed (a.isPlain && b.isPlain) w)
        | Option.none => .error .badValue := by
  by_cases hplain : a.isPlain = true ∧ b.isPlain = true
  · obtain ⟨hpa, hpb⟩ := hplain
    have hshape : ∀ {v : Value F} {k : Grid F}, v.numbers? = some k → v.isPlain = true →
        k.shape = [] := by
      intro v k hv hp
      obtain ⟨w, hw⟩ := Option.isSome_iff_exists.mp hp
      obtain ⟨_, -, -, -, hweak⟩ := operandOf_numbers hv
      exact (hweak w hw).2.2
    have hzip : Grid.zipWith? op.onReals g h
        = some (.single (op.onReals g.first h.first)) := by
      rw [← Grid.single_first (hshape ha hpa), ← Grid.single_first (hshape hb hpb)]
      rfl
    rw [operate_plain op ha hb hreal hpa hpb, hzip, hpa, hpb]
    cases op with
    | div =>
      unfold Weak.combineReals
      simp only [true_and]
      rfl
    | _ =>
      rw [if_neg (by simp)]
      rfl
  -- One of the two is an array or an element of one, and the operator goes element by element.
  · have hsolid : a.isPlain = false ∨ b.isPlain = false := by
      cases hpa : a.isPlain with
      | false => exact .inl rfl
      | true => exact .inr (by simpa [hpa] using hplain)
    have hpacked : (a.isPlain && b.isPlain) = false := by
      rcases hsolid with h | h <;> simp [h]
    rw [operate_solid op ha hb hsolid, if_neg (by tauto), hpacked]
    rfl

/-- What an operator on real values answers when it answers. -/
theorem operate_eq_ok {op : Operator} {a b w : Value F} {g h : Grid F}
    (ha : a.numbers? = some g) (hb : b.numbers? = some h)
    (hreal : a.reals?.isSome ∨ b.reals?.isSome) (hw : operate op a b = .ok w) :
    ∃ u, Grid.zipWith? op.onReals g h = some u ∧ w.reals? = some u := by
  rw [operate_numbers op ha hb hreal] at hw
  split_ifs at hw
  cases hu : Grid.zipWith? op.onReals g h with
  | none =>
    rw [hu] at hw
    cases hw
  | some u =>
    rw [hu] at hw
    cases hw
    refine ⟨u, rfl, reals?_packed fun hplain => ?_⟩
    obtain ⟨hpa, hpb⟩ := Bool.and_eq_true_iff.mp hplain
    obtain ⟨x, hx⟩ := Option.isSome_iff_exists.mp hpa
    obtain ⟨y, hy⟩ := Option.isSome_iff_exists.mp hpb
    obtain ⟨_, -, -, -, hwx⟩ := operandOf_numbers ha
    obtain ⟨_, -, -, -, hwy⟩ := operandOf_numbers hb
    obtain ⟨-, -, hs, -⟩ := Grid.zipWith?_eq_some hu
    rw [(hwx x hx).2.2, (hwy y hy).2.2] at hs
    exact (Option.some.inj hs).symm

variable [Arith.FiniteInts G]

omit [Arith.FiniteInts F] [Arith.FiniteInts G] in
theorem Operator.map_onReals (h : Arith.Hom φ) (op : Operator) (x y : F) :
    φ (op.onReals x y) = op.onReals (φ x) (φ y) := by
  cases op with
  | add => exact h.add x y
  | sub => exact h.sub x y
  | mul => exact h.mul x y
  | div => exact h.div x y

theorem operate_map (hφ : Arith.Hom φ) (op : Operator) {a b : Value F} {g h : Grid F}
    (ha : a.numbers? = some g) (hb : b.numbers? = some h)
    (hreal : a.reals?.isSome ∨ b.reals?.isSome) :
    operate op (a.map φ) (b.map φ) = (operate op a b).map (Value.map φ) := by
  have ha' : (a.map φ).numbers? = some (g.map φ) := by rw [numbers?_map hφ, ha]; rfl
  have hb' : (b.map φ).numbers? = some (h.map φ) := by rw [numbers?_map hφ, hb]; rfl
  have hreal' : (a.map φ).reals?.isSome ∨ (b.map φ).reals?.isSome := by
    rw [reals?_map, reals?_map, Option.isSome_map, Option.isSome_map]
    exact hreal
  rw [operate_numbers op ha hb hreal, operate_numbers op ha' hb' hreal', isPlain_map, isPlain_map,
    Grid.zipWith?_map (hφ.ofInt 0) (Operator.map_onReals hφ op), Grid.first_map h φ (hφ.ofInt 0),
    ← hφ.ofInt, hφ.same]
  split_ifs
  · rfl
  · cases Grid.zipWith? op.onReals g h with
    | none => rfl
    | some w => exact congrArg Except.ok (packed_map hφ _ w).symm

end Value

end SlotGrad
