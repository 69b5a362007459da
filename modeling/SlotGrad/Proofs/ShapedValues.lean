import SlotGrad.Proofs.DerivativeSums
import SlotGrad.Proofs.ReductionTransposes

/-!
# Shapes of computed values

What arithmetic does to shapes does not depend on the numbers.  Plain numbers and tensors have a
shape; where an operator answers, the answer has the common shape of its operands, and as soon
as one of the operands is real it answers, unless the shapes have none in common, a plain number
is divided by a plain zero, or a plain integer is beyond the real numbers.

The statements hold over every number system, so they are no facts about exact arithmetic.

## Main definitions

* `Value.Shaped`, `Value.RealShaped` — plain numbers and tensors of a shape, and the real ones.
* `Value.whole?`, `Value.Finite` — plain integers, and plain numbers that have a real number.
* `Value.IsPlainZero` — the divisors of plain numbers that there is no quotient by.
* `Arith.FiniteUpTo`, `Value.Within` — a bound up to which integers are finite, and the values
  that stay within it.

## Main results

* `Value.Shaped.operate` — an operator answers a value of the common shape.
* `Value.exists_operate` — a real operand makes an operator answer a real value.
* `Value.finite_operate` — what it answers has a real number if the integers that it makes are
  small.
-/

namespace SlotGrad

variable {F : Type}

/-! ### Plain numbers and tensors of a shape -/

/-- The extents of an operand; a plain number has none. -/
def Operand.shape : Operand F → Shape
  | weak _ => []
  | solid t => t.grid.shape

namespace Value

/-- A plain number or a tensor of given extents. -/
def Shaped (v : Value F) (s : Shape) : Prop := ∃ o, v.operand? = some o ∧ o.shape = s

/-- A plain real number or a tensor of real numbers of given extents. -/
def RealShaped (v : Value F) (s : Shape) : Prop :=
  ∃ o, v.operand? = some o ∧ o.shape = s ∧ o.isFractional = true

/-- The integer that a plain number is; a flag counts as one. -/
def whole? (v : Value F) : Option Int := v.weak?.bind Weak.toInt?

theorem RealShaped.shaped {v : Value F} {s : Shape} (h : v.RealShaped s) : v.Shaped s :=
  let ⟨o, ho, hs, _⟩ := h
  ⟨o, ho, hs⟩

theorem RealShaped.isFractional {v : Value F} {s : Shape} (h : v.RealShaped s) :
    v.isFractional = true := by
  obtain ⟨o, ho, -, hreal⟩ := h
  unfold Value.isFractional
  rwa [ho, Option.any_some]

theorem Shaped.realShaped {v : Value F} {s : Shape} (h : v.Shaped s)
    (hreal : v.isFractional = true) :
    v.RealShaped s := by
  obtain ⟨o, ho, hs⟩ := h
  refine ⟨o, ho, hs, ?_⟩
  unfold Value.isFractional at hreal
  rwa [ho, Option.any_some] at hreal

theorem Shaped.nil_of_isPlain {v : Value F} {s : Shape} (h : v.Shaped s) (hv : v.isPlain = true) :
    s = [] := by
  obtain ⟨o, ho, rfl⟩ := h
  obtain ⟨w, hw⟩ := Option.isSome_iff_exists.mp hv
  cases (operand?_of_weak? hw).symm.trans ho
  rfl

theorem shaped_of_weak? {v : Value F} {w : Weak F} (h : v.weak? = some w) : v.Shaped [] :=
  ⟨_, operand?_of_weak? h, rfl⟩

theorem shaped_array (t : Tensor F) : (array t).Shaped t.grid.shape := ⟨.solid t, rfl, rfl⟩

theorem realShaped_array {t : Tensor F} (ht : t.dtype.isReal = true) :
    (array t).RealShaped t.grid.shape := ⟨.solid t, rfl, rfl, ht⟩

theorem realShaped_real (x : F) : (real x).RealShaped [] := ⟨.weak (.real x), rfl, rfl, rfl⟩

/-- An operand that is no plain number is a tensor. -/
theorem eq_solid_of_operand? {v : Value F} {o : Operand F} (ho : v.operand? = some o)
    (hv : v.weak? = Option.none) : ∃ t, o = .solid t := by
  unfold operand? at ho
  rw [hv] at ho
  obtain ⟨t, -, rfl⟩ := Option.map_eq_some_iff.mp ho
  exact ⟨t, rfl⟩

/-- A value with a shape is a plain number or a tensor of that shape. -/
theorem Shaped.cases {v : Value F} {s : Shape} (h : v.Shaped s) :
    (∃ w, v.weak? = some w ∧ v.operand? = some (.weak w) ∧ s = []) ∨
      ∃ t, v.weak? = Option.none ∧ v.solid? = some t ∧ v.operand? = some (.solid t) ∧
        t.grid.shape = s := by
  obtain ⟨o, ho, rfl⟩ := h
  cases v <;> cases ho <;>
    first
    | exact .inl ⟨_, rfl, rfl, rfl⟩
    | exact .inr ⟨_, rfl, rfl, rfl, rfl⟩

variable [Arith F]

theorem reduced_shaped {d : Dtype} (g : Grid (Elem F d)) :
    ∃ t : Tensor F, t.dtype = d ∧ t.grid.shape = g.shape ∧
      (reduced (⟨d, g⟩ : Tensor F)).operand? = some (.solid t) := by
  unfold reduced
  dsimp only
  split_ifs with hs
  · exact ⟨.single d g.first, rfl, hs.symm, rfl⟩
  · exact ⟨⟨d, g⟩, rfl, rfl, rfl⟩

theorem shaped_reduced {d : Dtype} (g : Grid (Elem F d)) :
    (reduced (⟨d, g⟩ : Tensor F)).Shaped g.shape :=
  let ⟨t, _, hs, ht⟩ := reduced_shaped g
  ⟨.solid t, ht, hs⟩

theorem realShaped_reduced {d : Dtype} (hd : d.isReal = true) (g : Grid (Elem F d)) :
    (reduced (⟨d, g⟩ : Tensor F)).RealShaped g.shape :=
  let ⟨t, ht, hs, ho⟩ := reduced_shaped g
  ⟨.solid t, ho, hs, (congrArg Dtype.isReal ht).trans hd⟩

/-- A tensor is read as an array of its elements. -/
theorem contents_of_solid? {v : Value F} {t : Tensor F} (h : v.solid? = some t) :
    v.contents = .ok (.numbers t) := by
  cases v <;> cases h <;> rfl

/-- A plain number is read as an array of one number, unless it is an integer of more than 64
bits. -/
theorem contents_of_plain {v : Value F} {w : Weak F} (h : v.weak? = some w) :
    (∃ t : Tensor F, v.contents = .ok (.numbers t) ∧ t.grid.shape = [] ∧
      (v.isFractional = true → t.dtype.isReal = true)) ∨
      v.contents = .ok (.objects (.single v)) ∧ ∃ n, v = integer n := by
  cases v with
  | integer n =>
    unfold contents
    split_ifs
    · exact .inl ⟨_, rfl, rfl, fun h => by cases h⟩
    · exact .inr ⟨rfl, n, rfl⟩
  | flag b => exact .inl ⟨.single .bool b, rfl, rfl, fun h => by cases h⟩
  | real x => exact .inl ⟨.single .float64 x, rfl, rfl, fun _ => rfl⟩
  | _ => cases h

/-- A value with a shape is read as an array of numbers of that shape, unless it is an integer
of more than 64 bits. -/
theorem Shaped.contents {v : Value F} {s : Shape} (h : v.Shaped s) :
    (∃ t : Tensor F, v.contents = .ok (.numbers t) ∧ t.grid.shape = s) ∨
      v.contents = .ok (.objects (.single v)) ∧ s = [] ∧ ∃ n, v = integer n := by
  rcases h.cases with ⟨w, hw, -, rfl⟩ | ⟨t, -, ht, -, hs⟩
  · exact (contents_of_plain hw).imp (fun ⟨t, ht, hs, _⟩ => ⟨t, ht, hs⟩) fun ⟨hv, hn⟩ =>
      ⟨hv, rfl, hn⟩
  · exact .inl ⟨t, contents_of_solid? ht, hs⟩

theorem RealShaped.contents {v : Value F} {s : Shape} (h : v.RealShaped s) :
    ∃ t : Tensor F, v.contents = .ok (.numbers t) ∧ t.grid.shape = s ∧ t.dtype.isReal = true := by
  have hreal := h.isFractional
  rcases h.shaped.cases with ⟨w, hw, -, rfl⟩ | ⟨t, -, ht, ho, hs⟩
  · rcases contents_of_plain hw with ⟨t, ht, hs, hd⟩ | ⟨-, n, rfl⟩
    · exact ⟨t, ht, hs, hd hreal⟩
    · cases hreal
  · unfold Value.isFractional at hreal
    rw [ho] at hreal
    exact ⟨t, contents_of_solid? ht, hs, hreal⟩

theorem Shaped.shape {v : Value F} {s : Shape} (h : v.Shaped s) : v.shape = .ok s := by
  unfold Value.shape
  rcases h.contents with ⟨t, ht, rfl⟩ | ⟨hv, rfl, -⟩
  · rw [ht]
    rfl
  · rw [hv]
    rfl

theorem Shaped.eq_of_shape {v : Value F} {s t : Shape} (h : v.Shaped s) (ht : v.shape = .ok t) :
    s = t :=
  Except.ok.inj (h.shape.symm.trans ht)

/-! ### Plain numbers that have a real number -/

/-- A plain integer has a real number; other values always do. -/
def Finite (v : Value F) : Prop := ∀ n, v = integer n → Arith.isFinite (Arith.ofInt n : F) = true

/-- A plain number whose real number is zero. -/
def IsPlainZero (v : Value F) : Prop :=
  ∃ w x, v.weak? = some w ∧ w.toReal = .ok x ∧ Arith.same x (Arith.ofInt 0) = true

theorem RealShaped.finite {v : Value F} {s : Shape} (h : v.RealShaped s) : v.Finite := by
  rintro n rfl
  cases h.isFractional

theorem Finite.toReal {v : Value F} (h : v.Finite) {w : Weak F} (hw : v.weak? = some w) :
    ∃ x, w.toReal = .ok x := by
  cases v with
  | integer n =>
    cases hw
    refine ⟨Arith.ofInt n, ?_⟩
    unfold Weak.toReal Weak.realOfInt
    dsimp only
    rw [if_pos (h n rfl)]
  | flag b =>
    cases hw
    exact ⟨_, rfl⟩
  | real x =>
    cases hw
    exact ⟨x, rfl⟩
  | _ => cases hw

/-- A plain number that has a real number can be brought to a precision. -/
theorem exists_toElem {d : Dtype} (hd : d.isReal = true) {w : Weak F} {x : F}
    (hx : w.toReal = .ok x) :
    ∃ y, w.toElem d = .ok y := by
  rcases Dtype.isReal_iff.mp hd with rfl | rfl
  · refine ⟨Arith.toSingle x, ?_⟩
    unfold Weak.toElem
    rw [hx]
    rfl
  · exact ⟨x, hx⟩

end Value

/-! ### Tensors -/

section

variable [Arith F]

namespace Tensor

/-- Elementwise operations answer on tensors that have a common shape. -/
theorem exists_binary (op : ElementOp F) (d : Dtype) {s t : Tensor F} {u : Shape}
    (h : Shape.broadcast? s.grid.shape t.grid.shape = some u) :
    ∃ g, binary op d s t = .ok ⟨d, g⟩ ∧ g.shape = u := by
  unfold binary Grid.zipWith?
  rw [shape_gridAs, shape_gridAs, h]
  exact ⟨_, rfl, rfl⟩

theorem binary_eq_ok {op : ElementOp F} {d : Dtype} {s t w : Tensor F}
    (h : binary op d s t = .ok w) :
    ∃ g, w = ⟨d, g⟩ ∧ Shape.broadcast? s.grid.shape t.grid.shape = some g.shape := by
  unfold binary at h
  cases hg : Grid.zipWith? (op d) (s.gridAs d) (t.gridAs d) with
  | none =>
    rw [hg] at h
    cases h
  | some g =>
    rw [hg] at h
    cases h
    have hshape := (Grid.zipWith?_eq_some hg).2.2.1
    rw [shape_gridAs, shape_gridAs] at hshape
    exact ⟨g, rfl, hshape⟩

end Tensor

namespace Operand

/-- An operand has its shape as a tensor. -/
theorem toTensor_shape {o : Operand F} {d : Dtype} {t : Tensor F} (h : o.toTensor d = .ok t) :
    t.grid.shape = o.shape := by
  cases o with
  | weak w =>
    obtain ⟨x, -, h⟩ := bind_eq_ok.mp h
    rw [← pure_eq_ok.mp h]
    rfl
  | solid u =>
    cases h
    rfl

theorem exists_toTensor {v : Value F} {o : Operand F} (ho : v.operand? = some o) (hv : v.Finite)
    {d : Dtype} (hd : d.isReal = true) : ∃ t, o.toTensor d = .ok t := by
  cases o with
  | weak w =>
    have hw : v.weak? = some w := by
      cases v <;> cases ho <;> rfl
    obtain ⟨x, hx⟩ := hv.toReal hw
    obtain ⟨y, hy⟩ := Value.exists_toElem hd hx
    refine ⟨.single d y, ?_⟩
    unfold toTensor
    dsimp only
    rw [hy]
    rfl
  | solid t => exact ⟨t, rfl⟩

omit [Arith F] in
theorem meetDtype_comm (x y : Operand F) : x.meetDtype y = y.meetDtype x := by
  cases x <;> cases y <;> first | rfl | exact Dtype.common_comm _ _

end Operand

/-! ### Operators -/

namespace Value

variable {a b v : Value F} {s t u : Shape}

omit [Arith F] in
/-- Arithmetic with a tensor is elementwise, and neither a plain number nor a tensor is a
sequence. -/
theorem isArrayLike_of_operand? {o : Operand F} (ho : v.operand? = some o) :
    v.isSequence = false ∧ (v.weak? = Option.none → v.isArrayLike = true) := by
  cases v <;> cases ho <;> exact ⟨rfl, fun h => by first | rfl | cases h⟩

/-- As soon as one operand is no plain number, operators are elementwise. -/
theorem operate_elementwise (op : Operator) {x y : Operand F} (ha : a.operand? = some x)
    (hb : b.operand? = some y) (hsolid : a.weak? = Option.none ∨ b.weak? = Option.none) :
    operate op a b = do
      let d ← op.dtype (x.meetDtype y)
      return reduced (← Operand.apply op.onElements d x y) := by
  obtain ⟨hsa, hla⟩ := isArrayLike_of_operand? ha
  obtain ⟨hsb, hlb⟩ := isArrayLike_of_operand? hb
  have harrays : operate op a b = operateArrays op a b := by
    unfold operate
    split
    · rename_i hp hq
      rw [hp, hq] at hsolid
      rcases hsolid with h | h <;> cases h
    · rw [if_neg (by simp [hsa]), if_neg (by simp [hsb]), if_pos (hsolid.imp hla hlb)]
  rw [harrays]
  unfold operateArrays
  rw [operandOf_of_operand? ha, operandOf_of_operand? hb]
  rfl

/-- Operators on plain numbers answer plain numbers. -/
theorem weak?_combine {op : Operator} {x y : Weak F} (h : x.combine op y = .ok v) :
    v.isPlain = true := by
  have hreals : ∀ {p q : F}, Weak.combineReals op p q = .ok v → v.isPlain = true := by
    intro p q h
    unfold Weak.combineReals at h
    cases op <;> first | (cases h; rfl) | (split_ifs at h; cases h; rfl)
  unfold Weak.combine at h
  split at h
  · unfold Weak.combineInts Weak.quotient at h
    cases op with
    | div =>
      dsimp only at h
      split_ifs at h <;> (cases h; rfl)
    | _ =>
      cases h
      rfl
  · obtain ⟨p, -, h⟩ := bind_eq_ok.mp h
    obtain ⟨q, -, h⟩ := bind_eq_ok.mp h
    exact hreals h

/-- **An operator answers a value of the common shape.** -/
theorem Shaped.operate {op : Operator} (ha : a.Shaped s) (hb : b.Shaped t)
    (h : operate op a b = .ok v) : ∃ u, Shape.broadcast? s t = some u ∧ v.Shaped u := by
  have hsolid : a.weak? = Option.none ∨ b.weak? = Option.none →
      ∃ u, Shape.broadcast? s t = some u ∧ v.Shaped u := by
    intro hsolid
    obtain ⟨x, hx, rfl⟩ := ha
    obtain ⟨y, hy, rfl⟩ := hb
    rw [operate_elementwise op hx hy hsolid] at h
    obtain ⟨d, -, h⟩ := bind_eq_ok.mp h
    obtain ⟨w, hw, h⟩ := bind_eq_ok.mp h
    obtain ⟨p, hp, hw⟩ := bind_eq_ok.mp hw
    obtain ⟨q, hq, hw⟩ := bind_eq_ok.mp hw
    obtain ⟨g, rfl, hg⟩ := Tensor.binary_eq_ok hw
    rw [Operand.toTensor_shape hp, Operand.toTensor_shape hq] at hg
    exact ⟨g.shape, hg, pure_eq_ok.mp h ▸ shaped_reduced g⟩
  cases hx : a.weak? with
  | none => exact hsolid (.inl hx)
  | some x =>
    cases hy : b.weak? with
    | none => exact hsolid (.inr hy)
    | some y =>
      obtain rfl := ha.nil_of_isPlain (by rw [isPlain, hx]; rfl)
      obtain rfl := hb.nil_of_isPlain (by rw [isPlain, hy]; rfl)
      unfold Value.operate at h
      rw [hx, hy] at h
      obtain ⟨w, hw⟩ := Option.isSome_iff_exists.mp (weak?_combine h)
      exact ⟨[], rfl, shaped_of_weak? hw⟩

/-- Where both operands can be brought to the element type of an operator, it answers. -/
theorem exists_operate_elementwise {op : Operator} {x y : Operand F} (ha : a.operand? = some x)
    (hb : b.operand? = some y) (hsolid : a.weak? = Option.none ∨ b.weak? = Option.none) {d : Dtype}
    (hd : op.dtype (x.meetDtype y) = .ok d) (hx : ∃ p, x.toTensor d = .ok p)
    (hy : ∃ q, y.toTensor d = .ok q) (hu : Shape.broadcast? x.shape y.shape = some u) :
    ∃ g : Grid (Elem F d), operate op a b = .ok (reduced ⟨d, g⟩) ∧ g.shape = u := by
  obtain ⟨p, hp⟩ := hx
  obtain ⟨q, hq⟩ := hy
  rw [← Operand.toTensor_shape hp, ← Operand.toTensor_shape hq] at hu
  obtain ⟨g, hg, hgs⟩ := Tensor.exists_binary op.onElements d hu
  refine ⟨g, ?_, hgs⟩
  rw [operate_elementwise op ha hb hsolid, hd, ok_bind]
  unfold Operand.apply
  rw [hp, hq, ok_bind, ok_bind, hg]
  rfl

/-- Plain numbers of which one is real are combined as real numbers. -/
theorem operate_plain_reals (op : Operator) {p q : Weak F} (ha : a.weak? = some p)
    (hb : b.weak? = some q) (hreal : a.isFractional = true ∨ b.isFractional = true) {m n : F}
    (hm : p.toReal = .ok m) (hn : q.toReal = .ok n) :
    operate op a b = Weak.combineReals op m n := by
  have hwhole : p.toInt? = Option.none ∨ q.toInt? = Option.none := by
    refine hreal.imp (fun h => ?_) fun h => ?_
    · cases a <;> cases ha <;> first | rfl | cases h
    · cases b <;> cases hb <;> first | rfl | cases h
  unfold operate
  rw [ha, hb]
  change p.combine op q = _
  unfold Weak.combine
  rw [hm, hn]
  rcases hwhole with h | h
  · rw [h]
    rfl
  · rw [h]
    cases p.toInt? <;> rfl

/-- **A real operand makes an operator answer a real value of the common shape**, unless a plain
number is divided by a plain zero. -/
theorem exists_operate (op : Operator) (ha : a.Shaped s) (hb : b.Shaped t) (hfa : a.Finite)
    (hfb : b.Finite) (hreal : a.isFractional = true ∨ b.isFractional = true)
    (hu : Shape.broadcast? s t = some u)
    (hdiv : op = .div → a.isPlain = true → ¬ b.IsPlainZero) :
    ∃ v, operate op a b = .ok v ∧ v.RealShaped u := by
  obtain ⟨x, hx, rfl⟩ := ha
  obtain ⟨y, hy, rfl⟩ := hb
  have hmeet : (x.meetDtype y).isReal = true := by
    unfold isFractional at hreal
    rw [hx, hy, Option.any_some, Option.any_some] at hreal
    rcases hreal with h | h
    · exact Operand.isReal_meetDtype h y
    · rw [Operand.meetDtype_comm]
      exact Operand.isReal_meetDtype h x
  have hdtype : op.dtype (x.meetDtype y) = .ok (x.meetDtype y) := by
    cases op with
    | sub =>
      have hne : x.meetDtype y ≠ .bool := fun h => by
        rw [h] at hmeet
        cases hmeet
      exact if_neg hne
    | div => exact congrArg Except.ok (if_pos hmeet)
    | _ => rfl
  have hsolid : a.weak? = Option.none ∨ b.weak? = Option.none →
      ∃ v, operate op a b = .ok v ∧ v.RealShaped u := by
    intro hsolid
    obtain ⟨g, hg, hgs⟩ := exists_operate_elementwise hx hy hsolid hdtype
      (Operand.exists_toTensor hx hfa hmeet) (Operand.exists_toTensor hy hfb hmeet) hu
    exact ⟨_, hg, hgs ▸ realShaped_reduced hmeet g⟩
  cases hxa : a.weak? with
  | none => exact hsolid (.inl hxa)
  | some p =>
    cases hyb : b.weak? with
    | none => exact hsolid (.inr hyb)
    | some q =>
      -- Two plain numbers, of which one is real.
      cases (operand?_of_weak? hxa).symm.trans hx
      cases (operand?_of_weak? hyb).symm.trans hy
      cases hu
      obtain ⟨m, hm⟩ := hfa.toReal hxa
      obtain ⟨n, hn⟩ := hfb.toReal hyb
      rw [operate_plain_reals op hxa hyb hreal hm hn]
      cases op with
      | div =>
        have hnonzero : ¬ Arith.same n (Arith.ofInt 0) = true := fun h =>
          hdiv rfl (by rw [isPlain, hxa]; rfl) ⟨q, n, hyb, hn, h⟩
        exact ⟨_, if_neg hnonzero, realShaped_real _⟩
      | _ => exact ⟨_, rfl, realShaped_real _⟩

/-! ### Operators on any numbers -/

omit [Arith F] in
theorem isReal_toReal (d : Dtype) : d.toReal.isReal = true := by cases d <;> rfl

theorem finite_reduced {d : Dtype} (g : Grid (Elem F d)) :
    (reduced (⟨d, g⟩ : Tensor F)).Finite := by
  intro n hn
  obtain ⟨t, -, -, ht⟩ := reduced_shaped g
  rw [hn] at ht
  cases ht

/-- Two plain numbers that have real numbers are added, subtracted and multiplied. -/
theorem exists_combine {op : Operator} (hop : op ≠ .div) {x y : Weak F} {p q : F}
    (hp : x.toReal = .ok p) (hq : y.toReal = .ok q) :
    ∃ v, (x.combine op y : Fallible (Value F)) = .ok v := by
  unfold Weak.combine
  split
  · cases op <;> first | exact ⟨_, rfl⟩ | exact absurd rfl hop
  · rw [hp, hq]
    cases op <;> first | exact ⟨_, rfl⟩ | exact absurd rfl hop

/-- Sums, differences and products exist where both operands can be brought to the element type in
which they meet. -/
theorem exists_operate_of_toTensor {op : Operator} (hop : op ≠ .div) (ha : a.Shaped s)
    (hb : b.Shaped t) (hfa : a.Finite) (hfb : b.Finite) (hu : Shape.broadcast? s t = some u)
    (helements : ∀ x y, a.operand? = some x → b.operand? = some y →
      a.weak? = Option.none ∨ b.weak? = Option.none →
        ∃ d, op.dtype (x.meetDtype y) = .ok d ∧ (∃ p, x.toTensor d = .ok p) ∧
          ∃ q, y.toTensor d = .ok q) :
    ∃ v, operate op a b = .ok v ∧ v.Shaped u := by
  have hsolid : a.weak? = Option.none ∨ b.weak? = Option.none →
      ∃ v, operate op a b = .ok v ∧ v.Shaped u := by
    intro hsolid
    obtain ⟨x, hx, rfl⟩ := ha
    obtain ⟨y, hy, rfl⟩ := hb
    obtain ⟨d, hd, hp, hq⟩ := helements x y hx hy hsolid
    obtain ⟨g, hg, hgs⟩ := exists_operate_elementwise hx hy hsolid hd hp hq hu
    exact ⟨_, hg, hgs ▸ shaped_reduced g⟩
  cases hxa : a.weak? with
  | none => exact hsolid (.inl hxa)
  | some x =>
    cases hyb : b.weak? with
    | none => exact hsolid (.inr hyb)
    | some y =>
      obtain rfl := ha.nil_of_isPlain (by rw [isPlain, hxa]; rfl)
      obtain rfl := hb.nil_of_isPlain (by rw [isPlain, hyb]; rfl)
      cases hu
      obtain ⟨p, hp⟩ := hfa.toReal hxa
      obtain ⟨q, hq⟩ := hfb.toReal hyb
      obtain ⟨v, hv⟩ := exists_combine hop hp hq
      obtain ⟨w, hw⟩ := Option.isSome_iff_exists.mp (weak?_combine hv)
      refine ⟨v, ?_, shaped_of_weak? hw⟩
      unfold operate
      rw [hxa, hyb]
      exact hv

/-- The square of a number. -/
theorem exists_mul_self (ha : a.Shaped s) (hfa : a.Finite) : ∃ v, a.mul a = .ok v ∧ v.Shaped s := by
  refine exists_operate_of_toTensor (by simp) ha ha hfa hfa (Shape.Fits.refl s).broadcast?.1 ?_
  intro x y hx hy hsolid
  cases hx.symm.trans hy
  obtain ⟨t, rfl⟩ := eq_solid_of_operand? hx (hsolid.elim id id)
  exact ⟨_, rfl, ⟨t, rfl⟩, t, rfl⟩

/-- A small integer takes every element type. -/
theorem exists_toTensor_small {n : Int} (h32 : fitsInt32 n = true) (h64 : fitsInt64 n = true)
    (hn : (integer n : Value F).Finite) (d : Dtype) :
    ∃ p, (Operand.weak (.integer n) : Operand F).toTensor d = .ok p := by
  have hreal : d.isReal = true → ∃ p, (Operand.weak (.integer n) : Operand F).toTensor d = .ok p :=
    fun hd => Operand.exists_toTensor (v := (integer n : Value F)) rfl hn hd
  have hwhole : ∀ e : Elem F d, (Weak.integer n : Weak F).toElem d = .ok e →
      ∃ p, (Operand.weak (.integer n) : Operand F).toTensor d = .ok p := by
    intro e he
    refine ⟨.single d e, ?_⟩
    unfold Operand.toTensor
    dsimp only
    rw [he]
    rfl
  cases d with
  | bool => exact hwhole _ rfl
  | int32 => exact hwhole _ (if_pos h32)
  | int64 => exact hwhole _ (if_pos h64)
  | float32 => exact hreal rfl
  | float64 => exact hreal rfl

/-- A small integer is added to every number, subtracted and multiplied, from the left and from the
right. -/
theorem exists_operate_small (op : Operator) (hop : op ≠ .div) {n : Int} (h32 : fitsInt32 n = true)
    (h64 : fitsInt64 n = true) (hn : (integer n : Value F).Finite) (ha : a.Shaped s)
    (hfa : a.Finite) :
    (∃ v, operate op (integer n) a = .ok v ∧ v.Shaped s) ∧
      ∃ v, operate op a (integer n) = .ok v ∧ v.Shaped s := by
  have hint : (integer n : Value F).Shaped [] := shaped_of_weak? rfl
  have hdtype : ∀ t : Tensor F, op.dtype (t.dtype.withWeak .integer)
      = .ok (t.dtype.withWeak .integer) := by
    rintro ⟨d, g⟩
    cases op with
    | sub => cases d <;> rfl
    | div => exact absurd rfl hop
    | _ => rfl
  constructor
  · refine exists_operate_of_toTensor hop hint ha hn hfa (Shape.fits_nil s).broadcast?.1 ?_
    intro x y hx hy hsolid
    cases hx
    obtain ⟨t, rfl⟩ := eq_solid_of_operand? hy (hsolid.resolve_left fun h => by cases h)
    exact ⟨_, hdtype t, exists_toTensor_small h32 h64 hn _, t, rfl⟩
  · refine exists_operate_of_toTensor hop ha hint hfa hn (Shape.fits_nil s).broadcast?.2 ?_
    intro x y hx hy hsolid
    cases hy
    obtain ⟨t, rfl⟩ := eq_solid_of_operand? hx (hsolid.resolve_right fun h => by cases h)
    exact ⟨_, hdtype t, ⟨t, rfl⟩, exists_toTensor_small h32 h64 hn _⟩

/-- An elementwise operator answers no plain number. -/
theorem weak?_operate {op : Operator} (ha : a.Shaped s) (hb : b.Shaped t)
    (hsolid : a.weak? = Option.none ∨ b.weak? = Option.none) (h : operate op a b = .ok v) :
    v.weak? = Option.none := by
  obtain ⟨x, hx, -⟩ := ha
  obtain ⟨y, hy, -⟩ := hb
  rw [operate_elementwise op hx hy hsolid] at h
  obtain ⟨d, -, h⟩ := bind_eq_ok.mp h
  obtain ⟨w, -, h⟩ := bind_eq_ok.mp h
  rw [← pure_eq_ok.mp h]
  unfold reduced
  dsimp only
  split_ifs <;> rfl

/-- A plain number that an operator answers was made of two plain numbers. -/
theorem isPlain_of_operate {op : Operator} (ha : a.Shaped s) (hb : b.Shaped t)
    (h : operate op a b = .ok v) (hv : v.isPlain = true) :
    ∃ x y, a.weak? = some x ∧ b.weak? = some y ∧ x.combine op y = .ok v := by
  cases hx : a.weak? with
  | none =>
    rw [isPlain, weak?_operate ha hb (.inl hx) h] at hv
    cases hv
  | some x =>
    cases hy : b.weak? with
    | none =>
      rw [isPlain, weak?_operate ha hb (.inr hy) h] at hv
      cases hv
    | some y =>
      unfold operate at h
      rw [hx, hy] at h
      exact ⟨x, y, rfl, rfl, h⟩

/-- An integer that an operator answers was made of two integers. -/
theorem operate_eq_integer {op : Operator} (ha : a.Shaped s) (hb : b.Shaped t) {k : Int}
    (h : operate op a b = .ok (integer k)) :
    ∃ m n, a.whole? = some m ∧ b.whole? = some n ∧
      Weak.combineInts op m n = (.ok (integer k) : Fallible (Value F)) := by
  obtain ⟨x, y, hx, hy, h⟩ := isPlain_of_operate ha hb h rfl
  unfold Weak.combine at h
  unfold whole?
  rw [hx, hy, Option.bind_some, Option.bind_some]
  split at h
  · rename_i m n hm hn
    exact ⟨m, n, hm, hn, h⟩
  · obtain ⟨p, -, h⟩ := bind_eq_ok.mp h
    obtain ⟨q, -, h⟩ := bind_eq_ok.mp h
    unfold Weak.combineReals at h
    cases op <;> first | cases h | (split_ifs at h; cases h)

/-- What an operator makes of a real number has a real number. -/
theorem finite_operate_of_real {op : Operator} (ha : a.Shaped s) (hb : b.Shaped t)
    (hreal : a.isFractional = true ∨ b.isFractional = true) (h : operate op a b = .ok v) :
    v.Finite := by
  have hwhole : ∀ {c : Value F} {n : Int}, c.whole? = some n → ¬ c.isFractional = true := by
    intro c n hc hreal
    cases c with
    | flag b => cases hreal
    | integer m => cases hreal
    | _ => cases (show Option.none = some n from hc)
  rintro k rfl
  obtain ⟨m, n, hm, hn, -⟩ := operate_eq_integer ha hb h
  exact (hreal.elim (hwhole hm) (hwhole hn)).elim

end Value

/-! ### Bounds on plain integers -/

/-- A number system in which the integers up to a bound are finite. -/
structure Arith.FiniteUpTo (F : Type) [Arith F] (bound : Nat) : Prop where
  /-- The bound is not too low for the constants of the kernels. -/
  two_le : 2 ≤ bound
  /-- Integers up to the bound are finite. -/
  isFinite_ofInt : ∀ n : Int, n.natAbs ≤ bound → Arith.isFinite (Arith.ofInt n : F) = true

theorem Arith.FiniteInts.upTo [Arith.FiniteInts F] {bound : Nat} (h : 2 ≤ bound) :
    Arith.FiniteUpTo F bound :=
  ⟨h, fun n _ => Arith.FiniteInts.isFinite_ofInt n⟩

namespace Value

/-- A plain number or a tensor that counts no more members than a bound, and that may be squared,
doubled and shifted by one within the bound if it is a plain integer. -/
structure Within (bound : Nat) (v : Value F) : Prop where
  /-- It is a number. -/
  shaped : ∃ s, v.Shaped s
  /-- A plain integer is small. -/
  whole : ∀ n, v.whole? = some n → (n.natAbs + 1) ^ 2 ≤ bound
  /-- There are not too many members. -/
  size : ∀ s, v.shape = .ok s → s.size ≤ bound

variable {bound : Nat} {a b v : Value F} {s t : Shape}

theorem finite_of_whole? (hF : Arith.FiniteUpTo F bound)
    (h : ∀ n, v = integer n → n.natAbs ≤ bound) : v.Finite :=
  fun n hn => hF.isFinite_ofInt n (h n hn)

theorem finite_small (hF : Arith.FiniteUpTo F bound) {n : Int} (hn : n.natAbs ≤ 2) :
    (integer n : Value F).Finite :=
  finite_of_whole? hF fun _ h => by
    cases h
    exact hn.trans hF.two_le

theorem Within.finite (hF : Arith.FiniteUpTo F bound) (h : v.Within bound) : v.Finite := by
  refine finite_of_whole? hF fun n hn => ?_
  exact (Nat.le_succ _).trans ((Nat.le_self_pow two_ne_zero _).trans (h.whole n (hn ▸ rfl)))

/-- What an operator makes of two values is finite if the integers that it makes are small. -/
theorem finite_operate (hF : Arith.FiniteUpTo F bound) {op : Operator} (ha : a.Shaped s)
    (hb : b.Shaped t) (h : operate op a b = .ok v)
    (hsmall : ∀ m n k, a.whole? = some m → b.whole? = some n →
      Weak.combineInts op m n = (.ok (integer k) : Fallible (Value F)) → k.natAbs ≤ bound) :
    v.Finite := by
  refine finite_of_whole? hF ?_
  rintro k rfl
  obtain ⟨m, n, hm, hn, hk⟩ := operate_eq_integer ha hb h
  exact hsmall m n k hm hn hk

theorem Within.double_le {n : Int} (h : a.Within bound) (hn : a.whole? = some n) :
    2 * n.natAbs ≤ bound := by
  refine le_trans ?_ (h.whole n hn)
  rw [sq, Nat.succ_mul_succ]
  omega

theorem Within.finite_double (hF : Arith.FiniteUpTo F bound) (ha : a.Shaped s) (h : a.Within bound)
    (hv : (integer 2).mul a = .ok v) : v.Finite := by
  refine finite_operate hF (shaped_of_weak? rfl) ha hv fun m n k hm hn hk => ?_
  cases hm
  cases hk
  rw [Int.natAbs_mul]
  exact h.double_le hn

theorem Within.finite_pred (hF : Arith.FiniteUpTo F bound) (ha : a.Shaped s) (h : a.Within bound)
    (hv : a.sub (.integer 1) = .ok v) : v.Finite := by
  refine finite_operate hF ha (shaped_of_weak? rfl) hv fun m n k hm hn hk => ?_
  cases hn
  cases hk
  calc (m - 1).natAbs ≤ m.natAbs + 1 := by omega
    _ ≤ (m.natAbs + 1) ^ 2 := Nat.le_self_pow two_ne_zero _
    _ ≤ bound := h.whole m hm

theorem Within.finite_square (hF : Arith.FiniteUpTo F bound) (ha : a.Shaped s) (h : a.Within bound)
    (hv : a.mul a = .ok v) : v.Finite := by
  refine finite_operate hF ha ha hv fun m n k hm hn hk => ?_
  cases hm.symm.trans hn
  cases hk
  calc (m * m).natAbs = m.natAbs ^ 2 := by rw [Int.natAbs_mul, sq]
    _ ≤ (m.natAbs + 1) ^ 2 := Nat.pow_le_pow_left (Nat.le_succ _) 2
    _ ≤ bound := h.whole m hm

theorem Within.finite_sub (hF : Arith.FiniteUpTo F bound) (ha : a.Shaped s) (hb : b.Shaped t)
    (h : a.Within bound) (h' : b.Within bound) (hv : a.sub b = .ok v) : v.Finite := by
  refine finite_operate hF ha hb hv fun m n k hm hn hk => ?_
  cases hk
  have hm := h.double_le hm
  have hn := h'.double_le hn
  omega

end Value

end

end SlotGrad
