import SlotGrad.Proofs.AdjointShapes
import SlotGrad.Proofs.Equations

/-!
# Derivatives that are filled

A reset leaves the number zero in every derivative slot, and a derivative stays a plain number
until an array of the value's shape is added to it.  From then on it is filled.  Whether a
derivative is filled does not depend on the numbers, and sums are filled as soon as one of their
parts is.

The adjoints of most ops stretch a plain number, and what they answer is filled in any case.
Three do not.  The identity passes a plain number on, a change of shape can make use of it for a
single member only, and a product of matrices has no use for it.

## Main definitions

* `Value.IsDerivative` — a derivative for a value, filled or not.
* `Builtin.Accepts`, `Builtin.fillsFrom` — what an adjoint needs of the derivative of the
  output, and whether it answers filled ones from it.
* `Builtin.DerivesAs` — derivatives of the arguments that an adjoint answers for.

## Main results

* `Value.IsDerivative.plus`, `Value.IsDerivative.exists_scatterTarget` — sums and sparse updates.
* `Builtin.exists_shape` — the built-in ops answer values with a shape.
* `Builtin.exists_answer`, `Builtin.adjointCall_of_not_accepts` — an adjoint answers exactly if it
  accepts the derivative of the output.
-/

namespace SlotGrad

variable {F : Type}

namespace Value

/-! ### Derivatives for a value -/

/-- Whether the value is a tensor of the accelerator library. -/
def isDevice : Value F → Bool
  | device _ => true
  | _ => false

/-- A value with axes is an array or a tensor of the accelerator library. -/
theorem Shaped.eq_array {v : Value F} {s : Shape} (h : v.Shaped s) (haxes : s ≠ [])
    (hdevice : v.isDevice = false) : ∃ t, v = array t := by
  obtain ⟨o, ho, hs⟩ := h
  cases v <;> cases ho <;>
    first
    | exact ⟨_, rfl⟩
    | exact absurd hs.symm haxes
    | exact absurd hdevice (by simp [isDevice])

variable [Arith F]

/-- A derivative for a value.  One that is filled is real and has exactly the shape of the
value.  Any other is a plain real number. -/
def IsDerivative (filled : Bool) (x d : Value F) : Prop :=
  match filled with
  | true => ∃ s, x.shape = .ok s ∧ d.RealShaped s
  | false => ∃ y, d = real y

variable {f g : Bool} {a b x c d v : Value F} {s t r : Shape}

theorem isDerivative_zero : IsDerivative false x Store.zero := ⟨_, rfl⟩

/-- A derivative has the shape of the value, or none. -/
theorem IsDerivative.realOver (h : IsDerivative f x d) (hx : x.shape = .ok s) : d.RealOver s := by
  cases f with
  | true =>
    obtain ⟨t, ht, hd⟩ := h
    cases hx.symm.trans ht
    exact .inl hd
  | false =>
    obtain ⟨y, rfl⟩ := h
    exact .inr (realShaped_real y)

theorem IsDerivative.isNone (h : IsDerivative f x d) : d.isNone = false := by
  cases f with
  | true =>
    obtain ⟨s, -, o, ho, -⟩ := h
    cases d <;> first | rfl | cases ho
  | false =>
    obtain ⟨y, rfl⟩ := h
    rfl

/-- Operators answer plain numbers, elements and arrays. -/
theorem isDevice_operate {op : Operator} (ha : a.Shaped s) (hb : b.Shaped t)
    (h : operate op a b = .ok v) : v.isDevice = false := by
  have hsolid : a.weak? = Option.none ∨ b.weak? = Option.none → v.isDevice = false := by
    intro hsolid
    obtain ⟨x, hx, -⟩ := ha
    obtain ⟨y, hy, -⟩ := hb
    rw [operate_elementwise op hx hy hsolid] at h
    obtain ⟨d, -, h⟩ := bind_eq_ok.mp h
    obtain ⟨w, -, h⟩ := bind_eq_ok.mp h
    rw [← pure_eq_ok.mp h]
    unfold reduced
    dsimp only
    split_ifs <;> rfl
  cases hx : a.weak? with
  | none => exact hsolid (.inl hx)
  | some x =>
    cases hy : b.weak? with
    | none => exact hsolid (.inr hy)
    | some y =>
      unfold operate at h
      rw [hx, hy] at h
      have hplain := weak?_combine h
      cases v <;> first | rfl | cases hplain

/-- **Sums of derivatives are derivatives**, and filled as soon as one of them is. -/
theorem IsDerivative.plus (hc : IsDerivative f x c) (hd : IsDerivative g x d) :
    ∃ u, c.plus d = .ok u ∧ IsDerivative (f || g) x u ∧ u.isDevice = false := by
  have hplus : c.plus d = operate .add c d := by
    unfold Value.plus
    rw [hc.isNone, if_neg Bool.false_ne_true]
    rfl
  rw [hplus]
  have hreal : ∀ {s : Shape}, x.shape = .ok s → ∀ {p q : Shape}, c.RealShaped p → d.RealShaped q →
      Shape.broadcast? p q = some s →
        ∃ u, operate .add c d = .ok u ∧ IsDerivative true x u ∧ u.isDevice = false := by
    intro s hs p q hp hq hpq
    obtain ⟨u, hu, hus⟩ := exists_operate .add hp.shaped hq.shaped hp.finite hq.finite
      (.inl hp.isFractional) hpq nofun
    exact ⟨u, hu, ⟨s, hs, hus⟩, isDevice_operate hp.shaped hq.shaped hu⟩
  cases f with
  | true =>
    obtain ⟨s, hs, hcs⟩ := hc
    rcases hd.realOver hs with hds | hds
    · exact hreal hs hcs hds (Shape.Fits.refl s).broadcast?.1
    · exact hreal hs hcs hds (Shape.fits_nil s).broadcast?.2
  | false =>
    cases g with
    | true =>
      obtain ⟨s, hs, hds⟩ := hd
      rcases hc.realOver hs with hcs | hcs
      · exact hreal hs hcs hds (Shape.Fits.refl s).broadcast?.1
      · exact hreal hs hcs hds (Shape.fits_nil s).broadcast?.1
    | false =>
      obtain ⟨y, rfl⟩ := hc
      obtain ⟨z, rfl⟩ := hd
      exact ⟨_, rfl, ⟨_, rfl⟩, rfl⟩

/-! ### Sparse updates -/

/-- **A sparse update finds real numbers of the source's shape to add into**, whoever made them. -/
theorem IsDerivative.exists_scatterTarget {source dy : Value F} (hc : IsDerivative f source c)
    (owned : Bool) (hdevice : c.isDevice = false) (hsource : source.Shaped s)
    (haxes : s ≠ []) (hdy : dy.RealShaped r) :
    ∃ t : Tensor F, scatterTarget owned c source dy = .ok (.array t) ∧ t.grid.shape = s ∧
      t.dtype.isReal = true := by
  unfold scatterTarget
  by_cases hzero : (c.isNone || Store.isZeroValue c) = true
  · obtain ⟨d, hd, hreal⟩ := Kernel.exists_commonDtype hsource hdy
    rw [if_pos hzero, hsource.shape, ok_bind, hd]
    exact ⟨.zeros s d, rfl, rfl, hreal⟩
  obtain ⟨p, hp, hcp⟩ := (hc.realOver hsource.shape).realFits
  rw [if_neg hzero, hsource.shape, ok_bind, hcp.shaped.shape, ok_bind]
  by_cases hown : (owned && p == s) = true
  · obtain rfl : p = s := by simpa using (Bool.and_eq_true_iff.mp hown).2
    obtain ⟨t, rfl⟩ := hcp.shaped.eq_array haxes hdevice
    obtain ⟨o, ho, hos, hreal⟩ := hcp
    cases ho
    rw [if_pos hown]
    exact ⟨t, rfl, hos, hreal⟩
  · obtain ⟨w, hw, rfl, hwreal⟩ := hcp.contents
    obtain ⟨z, hz, hzs, hzreal⟩ := exists_broadcastTo hwreal hp
    obtain ⟨d, hd, hdreal⟩ := Kernel.exists_commonDtype hcp.shaped hdy
    obtain ⟨hshape, hdtype⟩ := Kernel.shape_convert z d
    rw [if_neg hown, hw, ok_bind, hz, ok_bind, hd]
    exact ⟨z.convert d, rfl, hshape.trans hzs, (congrArg Dtype.isReal hdtype).trans hdreal⟩

end Value

namespace Builtin

open Value

/-! ### What the built-in ops answer -/

variable [Arith F] {bound : Nat} {b : Builtin} {a : Arguments F} {f : Bool} {y dy : Value F}
  {xs outs : List (Value F)}

/-- What the adjoint of an op needs of the derivative of its output.  A product of matrices needs a
filled one, and so does a change of shape, unless there is a single member. -/
def Accepts (b : Builtin) (filled : Bool) (xs : List (Value F)) : Prop :=
  match b, xs with
  | mtimes, _ => filled = true
  | reshape, x :: _ => filled = true ∨ x.size = .ok 1
  | _, _ => True

/-- Whether the derivatives that an adjoint answers are filled.  The identity passes on what it
gets. -/
def fillsFrom (b : Builtin) (filled : Bool) : Bool :=
  match b with
  | deal => filled
  | _ => true

/-- Derivatives of the arguments of an op, filled or not, for those that its adjoint answers one
for. -/
structure DerivesAs (b : Builtin) (filled : Bool) (xs outs : List (Value F)) : Prop where
  /-- Arguments that are fed have a derivative. -/
  fed : ∀ q x, xs[q]? = some x → b.feeds q = true →
    ∃ d, outs[q]? = some d ∧ IsDerivative filled x d
  /-- The others have none. -/
  unfed : ∀ q d, b.feeds q = false → outs[q]? = some d → d.isNone = true

theorem Derives.derivesAs (h : b.Derives xs outs) : b.DerivesAs true xs outs :=
  ⟨fun q x hx hfed =>
    let ⟨d, s, hd, hs, hds⟩ := h.fed q x hx hfed
    ⟨d, hd, s, hs, hds⟩, h.unfed⟩

/-- The number zero is admitted as a derivative only where every one is. -/
theorem admits_of_zero (h : b.Admits xs Store.zero) : b.Admits xs dy := by
  unfold Admits at h ⊢
  split at h
  · exact h
  · exact h
  · exact h
  · exact fun _ => h rfl
  · exact fun _ => h rfl
  · trivial

/-- **The built-in ops answer values with a shape.** -/
theorem exists_shape (hnamed : ∀ p ∈ a.named, p.1 = "axis") (hy : b.forwardCall a = .ok y)
    (hoperands : ∀ x ∈ b.operands a.positional, x.Within bound)
    (hadmits : b.Admits a.positional dy) : ∃ r, y.shape = .ok r := by
  obtain ⟨xs, kw⟩ := a
  have hshaped : ∀ x ∈ b.operands xs, ∃ s, x.Shaped s := fun x hx => (hoperands x hx).shaped
  cases b with
  | plus | minus | times | rdivide =>
    obtain ⟨x, x', hpos, hf⟩ := Arguments.call2_positional hy hnamed (by decide)
    cases hpos
    obtain ⟨s, hs⟩ := hshaped x (.head _)
    obtain ⟨t, ht⟩ := hshaped x' (.tail _ (.head _))
    obtain ⟨r, -, hr⟩ := hs.operate ht hf
    exact ⟨r, hr.shape⟩
  | square | exp | log | relu | sigmoid | tanh | deal =>
    obtain ⟨x, hpos, -⟩ := Arguments.call1_positional hy hnamed (by decide)
    cases hpos
    obtain ⟨s, hs⟩ := hshaped x (.head _)
    exact ⟨s, (pointwise_shaped rfl hs hy).shape⟩
  | power =>
    obtain ⟨x, p, hpos, hf⟩ := Arguments.call2_positional hy hnamed (by decide)
    cases hpos
    obtain ⟨s, hs⟩ := hshaped x (.head _)
    obtain ⟨t, ht⟩ := hshaped p (.tail _ (.head _))
    obtain ⟨r, -, hr⟩ := hs.power ht hf
    exact ⟨r, hr.shape⟩
  | mtimes =>
    obtain ⟨x, x', hpos, hf⟩ := Arguments.call2_positional hy hnamed (by decide)
    cases hpos
    obtain ⟨s, hs⟩ := hshaped x (.head _)
    obtain ⟨t, ht⟩ := hshaped x' (.tail _ (.head _))
    obtain ⟨-, -, batch, m, -, n, -, -, -, hr⟩ := Kernel.mtimes_shaped hs ht
      (hadmits x (.head _) s hs.shape) (hadmits x' (.tail _ (.head _)) t ht.shape) hf
    exact ⟨_, hr.shape⟩
  | sum =>
    obtain ⟨x, rfl, hf⟩ := Arguments.reduction_positional hy hnamed
    obtain ⟨s, hs⟩ := hshaped x (.head _)
    obtain ⟨ks, -, hr⟩ := Kernel.total_shaped hs hf
    exact ⟨_, hr.shape⟩
  | mean =>
    obtain ⟨x, hpos, hf⟩ := Arguments.reduction_positional hy hnamed
    cases hpos
    obtain ⟨s, hs⟩ := hshaped x (.head _)
    obtain ⟨ks, -, hr⟩ := Kernel.average_shaped hs hf
    exact ⟨_, hr.shape⟩
  | reshape =>
    obtain ⟨x, shape, hpos, hf⟩ := Arguments.call2_positional hy hnamed (by decide)
    cases hpos
    obtain ⟨s, hs⟩ := hshaped x (.head _)
    obtain ⟨r, hr, -⟩ := Kernel.size_reshape hs hf
    exact ⟨r, hr⟩
  | slice =>
    obtain ⟨x, index, hpos, hf⟩ := Arguments.call2_positional hy hnamed (by decide)
    cases hpos
    obtain ⟨s, hs⟩ := hshaped x (.head _)
    obtain ⟨-, sel, -, -, hr⟩ := Kernel.getAt_shape hs hf
    exact ⟨_, hr⟩
  | cat =>
    obtain ⟨⟨axis, ys⟩, -, hf⟩ := bind_eq_ok.mp hy
    -- Whatever is joined, the answer is made of contents, which have a shape.
    obtain ⟨c, rfl⟩ := Kernel.exists_cat hf
    exact ⟨_, Kernel.shape_ofContents c⟩
  | roots =>
    obtain ⟨ys, -, hf⟩ := bind_eq_ok.mp hy
    obtain ⟨cs, -, hf⟩ := bind_eq_ok.mp hf
    obtain ⟨c, -, hf⟩ := bind_eq_ok.mp hf
    rw [← pure_eq_ok.mp hf]
    exact ⟨_, Kernel.shape_ofContents c⟩
  | l2loss =>
    obtain ⟨x, target, hpos, hf⟩ := Arguments.call2_positional hy hnamed (by decide)
    cases hpos
    obtain ⟨s, hs⟩ := hshaped x (.head _)
    obtain ⟨t, ht⟩ := hshaped target (.tail _ (.head _))
    -- Only operands of one shape are admitted.
    obtain rfl := hs.eq_of_shape (Eq.trans hadmits ht.shape)
    obtain ⟨-, -, -, hr⟩ := Kernel.l2loss_shaped hs ht hf
    exact ⟨_, hr.shape⟩
  | softmaxloss =>
    obtain ⟨x, labelValues, hpos, hf⟩ := Arguments.call2_positional hy hnamed (by decide)
    cases hpos
    obtain ⟨s, hs⟩ := hshaped x (.head _)
    exact ⟨_, (Kernel.softmaxloss_shaped hs hf).2.1.shape⟩

/-! ### What adjoints answer from a derivative -/

/-- The number of members of a value is that of its shape. -/
theorem size_of_shape {x : Value F} {s : Shape} (h : x.shape = .ok s) : x.size = .ok s.size := by
  unfold Value.size
  rw [h]
  rfl

/-- **An adjoint answers derivatives of its arguments from every derivative that it accepts.** -/
theorem exists_answer (hF : Arith.FiniteUpTo F bound) (hnamed : ∀ p ∈ a.named, p.1 = "axis")
    (hy : b.forwardCall a = .ok y) (hdy : IsDerivative f y dy)
    (hoperands : ∀ x ∈ b.operands a.positional, x.Within bound)
    (hadmits : b.Admits a.positional Store.zero) (haccepts : b.Accepts f a.positional) :
    ∃ out, b.adjointCall ⟨a.positional ++ [dy], a.named⟩ = .ok out ∧
      b.DerivesAs (b.fillsFrom f) a.positional (resultsOf out) := by
  obtain ⟨r, hr⟩ := exists_shape hnamed hy hoperands hadmits
  have hadmits : b.Admits a.positional dy := admits_of_zero hadmits
  have hfills : dy.RealShaped r ∨ b.stretches = true → b.fillsFrom f = true →
      ∃ out, b.adjointCall ⟨a.positional ++ [dy], a.named⟩ = .ok out ∧
        b.DerivesAs (b.fillsFrom f) a.positional (resultsOf out) := by
    intro hover hfills
    obtain ⟨out, hcall, hderives⟩ :=
      exists_derives hF hnamed hy hr (hdy.realOver hr) hover hoperands hadmits
    exact ⟨out, hcall, hfills ▸ hderives.derivesAs⟩
  cases f with
  | true =>
    obtain ⟨s, hs, hds⟩ := hdy
    cases hr.symm.trans hs
    exact hfills (.inl hds) (by cases b <;> rfl)
  | false =>
    -- A number in place of a derivative: three ops do not stretch it to the output.
    obtain ⟨z, rfl⟩ := hdy
    cases b with
    | deal =>
      obtain ⟨xs, kw⟩ := a
      obtain ⟨x, hpos, -⟩ := Arguments.call1_positional hy hnamed (by decide)
      cases hpos
      refine ⟨.real z, rfl, fun q x' hq _ => ?_, fun q _ hunfed _ => ?_⟩
      · cases q with
        | zero => exact ⟨.real z, rfl, z, rfl⟩
        | succ q => cases hq
      · cases hunfed
    | mtimes => cases haccepts
    | reshape =>
      obtain ⟨xs, kw⟩ := a
      obtain ⟨x, shape, hpos, hf⟩ := Arguments.call2_positional hy hnamed (by decide)
      cases hpos
      obtain ⟨s, hs⟩ := (hoperands x (.head _)).shaped
      have hone : s.size = 1 :=
        Except.ok.inj ((size_of_shape hs.shape).symm.trans (haccepts.resolve_left nofun))
      have hanswer : ∃ d, Kernel.reshapeAdjoint x shape (.real z) = .ok d ∧ d.RealShaped s :=
        Kernel.exists_reshapeAdjoint_of_size (r := []) hs hone (realShaped_real z)
      obtain ⟨out, hcall, hderives⟩ : Answers reshape ⟨[x, shape], []⟩ (real z) :=
        .single hanswer hs.shape (fun _ _ => rfl) rfl
      exact ⟨out, hcall, hderives.derivesAs⟩
    | _ => exact hfills (.inr rfl) rfl

/-- A plain number is under shapes of a single member only. -/
theorem reshapeTo_real {z : F} {s : Shape} (h : s.size ≠ 1) {v : Value F} :
    Kernel.reshapeTo (.real z) (s.map Int.ofNat) ≠ .ok v := by
  intro hv
  obtain ⟨c, hc, hv⟩ := bind_eq_ok.mp hv
  obtain ⟨u, hu, hv⟩ := bind_eq_ok.mp hv
  obtain ⟨e, he, hv⟩ := bind_eq_ok.mp hv
  cases hc
  rw [Kernel.closeShape_ofNat] at hu
  cases hu
  exact h (Kernel.contents_reshape_eq_ok he).2

/-- A plain number has no matrix product. -/
theorem mtimes_real {z : F} {x v : Value F} : Kernel.mtimes (.real z) x ≠ .ok v := by
  intro hv
  obtain ⟨c, hc, hv⟩ := bind_eq_ok.mp hv
  obtain ⟨d, hd, hv⟩ := bind_eq_ok.mp hv
  cases hc
  cases d with
  | numbers t =>
    obtain ⟨w, hw, -⟩ := bind_eq_ok.mp hv
    unfold Tensor.product at hw
    rw [if_pos (.inl rfl)] at hw
    cases hw
  | texts g => cases hv
  | objects g =>
    dsimp only at hv
    rw [if_pos (.inl rfl)] at hv
    cases hv

/-- **An adjoint answers nothing from a derivative that it does not accept.** -/
theorem adjointCall_of_not_accepts (hnamed : ∀ p ∈ a.named, p.1 = "axis")
    (hy : b.forwardCall a = .ok y) (hdy : IsDerivative f y dy)
    (hoperands : ∀ x ∈ b.operands a.positional, x.Within bound)
    (hnot : ¬ b.Accepts f a.positional) (out : Value F) :
    b.adjointCall ⟨a.positional ++ [dy], a.named⟩ ≠ .ok out := by
  obtain ⟨xs, kw⟩ := a
  cases b with
  | mtimes =>
    obtain ⟨x, x', hpos, hf⟩ := Arguments.call2_positional hy hnamed (by decide)
    cases hpos
    obtain rfl : f = false := by simpa [Accepts] using hnot
    obtain ⟨z, rfl⟩ := hdy
    intro hout
    have hout : Kernel.mtimesAdjoint x x' (.real z) = .ok out := hout
    obtain ⟨v, hv, hout⟩ := bind_eq_ok.mp hout
    obtain ⟨w, hw, -⟩ := bind_eq_ok.mp hout
    exact mtimes_real hw
  | reshape =>
    obtain ⟨x, shape, hpos, hf⟩ := Arguments.call2_positional hy hnamed (by decide)
    cases hpos
    obtain ⟨s, hs⟩ := (hoperands x (.head _)).shaped
    obtain ⟨hf, hone⟩ := not_or.mp hnot
    obtain rfl : f = false := by simpa using hf
    obtain ⟨z, rfl⟩ := hdy
    intro hout
    have hout : Kernel.reshapeAdjoint x shape (.real z) = .ok out := hout
    unfold Kernel.reshapeAdjoint at hout
    rw [hs.shape, ok_bind] at hout
    refine reshapeTo_real (fun h => hone ?_) hout
    rw [size_of_shape hs.shape, h]
  | _ => exact absurd trivial hnot

/-- What an adjoint answers are derivatives of its arguments. -/
theorem derivesAs_of_adjointCall (hF : Arith.FiniteUpTo F bound)
    (hnamed : ∀ p ∈ a.named, p.1 = "axis") (hy : b.forwardCall a = .ok y)
    (hdy : IsDerivative f y dy) (hoperands : ∀ x ∈ b.operands a.positional, x.Within bound)
    (hadmits : b.Admits a.positional Store.zero) {out : Value F}
    (hout : b.adjointCall ⟨a.positional ++ [dy], a.named⟩ = .ok out) :
    b.DerivesAs (b.fillsFrom f) a.positional (resultsOf out) := by
  by_cases haccepts : b.Accepts f a.positional
  · obtain ⟨out', hout', hderives⟩ := exists_answer hF hnamed hy hdy hoperands hadmits haccepts
    cases hout.symm.trans hout'
    exact hderives
  · exact absurd hout (adjointCall_of_not_accepts hnamed hy hdy hoperands haccepts out)

end Builtin

end SlotGrad
