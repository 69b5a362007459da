import SlotGrad.Proofs.Calls
import SlotGrad.Proofs.OperandShapes

/-!
# Derivatives have the shape of their operand

An adjoint is called with the arguments of its op and the derivative of the output behind them.
Where the forward function answers and the derivative of the output is real and has the output's
shape, the adjoint answers.  Every derivative that it answers is real again and has exactly the
shape of the operand at its place, so a pass that starts from a real derivative never changes a
shape.

Most adjoints answer the same for a single number in the place of an array of its copies.  The
identity passes it on as it is, and a product of matrices and a change of shape have no use for
it.

Derivatives are real here.  Most adjoints answer for a derivative of flags or integers as well, with
integers where they only pass it on or multiply it; nothing is said about these.

One op does not see to the shapes of its operands.  A loss of operands of two shapes is
answered, and its adjoint gives both of them a derivative of their common shape.  A further
limit is the arithmetic of plain numbers, which has no quotient by zero and no real numbers for
too great integers.

## Main definitions

* `DerivativesOf` — derivatives that are none or of the shape of their operand.
* `Builtin.operands`, `Builtin.Admits` — the operands that an adjoint calculates with, and what it
  needs of them.
* `Builtin.feeds`, `Builtin.Derives` — the arguments that an op's adjoint answers derivatives
  for, and derivatives of exactly these.
* `Builtin.stretches` — the ops whose adjoints stretch a single number to the output.
* `Builtin.Answers`, `Builtin.AnswersInShape` — an adjoint answers derivatives of its operands.

## Main results

* `Builtin.answers_arithmetic`, `Builtin.answers_pointwise` — ops of two operands and of one.
* `Builtin.exists_derives` — all built-in ops, from a derivative of the output or a number for it.
* `Builtin.adjoints_answer_in_shape` — derivatives have exactly the shape of their operand.
* `Builtin.loss_of_stretched_target` — a loss of operands of two shapes.
-/

namespace SlotGrad

variable {F : Type}

/-! ### Calls by position -/

namespace Arguments

variable {a : Arguments F} {names : List String} {y : Value F}

/-- Arguments whose names are those of no parameter are arguments by position. -/
theorem eq_positional_of_bind {vs : List (Value F)} (h : a.bind names = .ok vs)
    (hnamed : ∀ p ∈ a.named, p.1 ∉ names) : a = ⟨vs, []⟩ := by
  obtain ⟨-, hmem, hall⟩ := bind_completed h
  have hnil : a.named = [] :=
    List.eq_nil_iff_forall_not_mem.mpr fun p hp => hnamed p hp (hmem p hp)
  have hlength := hall.length_eq
  rw [List.length_zipIdx] at hlength
  have hfull : names.length ≤ a.positional.length := by
    by_contra hlt
    -- The first parameter behind all positions would take an argument by name.
    have hpair := (List.forall₂_iff_get.mp hall).2 a.positional.length
      (by rw [List.length_zipIdx]; omega) (by omega)
    simp only [List.get_eq_getElem, List.getElem_zipIdx, Nat.zero_add] at hpair
    rcases lookup_eq_ok.mp hpair with ⟨hp, -⟩ | ⟨-, hn⟩
    · rw [List.getElem?_eq_none (Nat.le_refl _)] at hp
      cases hp
    · rw [hnil] at hn
      cases hn
  obtain ⟨hvs, -⟩ := bind_of_length_le h hfull
  cases a
  cases hnil
  rw [hvs]

/-- A function that is answered with no name but that of an axis, which it has no parameter for. -/
theorem call1_positional {p : String} {f : Value F → Fallible (Value F)}
    (h : a.call1 p f = .ok y) (hnamed : ∀ q ∈ a.named, q.1 = "axis") (hp : "axis" ∉ [p]) :
    ∃ x, a = ⟨[x], []⟩ ∧ f x = .ok y := by
  obtain ⟨x, hx, hy⟩ := call1_eq_ok h
  exact ⟨x, eq_positional_of_bind hx fun q hq => hnamed q hq ▸ hp, hy⟩

theorem call2_positional {p q : String} {f : Value F → Value F → Fallible (Value F)}
    (h : a.call2 p q f = .ok y) (hnamed : ∀ r ∈ a.named, r.1 = "axis") (hp : "axis" ∉ [p, q]) :
    ∃ x x', a = ⟨[x, x'], []⟩ ∧ f x x' = .ok y := by
  obtain ⟨x, x', hx, hy⟩ := call2_eq_ok h
  exact ⟨x, x', eq_positional_of_bind hx fun r hr => hnamed r hr ▸ hp, hy⟩

/-- Only the axis is given by name, and it is taken out. -/
theorem takeNamed_axis {xs : List (Value F)} {kw : List (String × Value F)}
    (hnamed : ∀ p ∈ kw, p.1 = "axis") :
    (⟨xs, kw⟩ : Arguments F).takeNamed "axis" = (⟨xs, []⟩, (kw.lookup "axis").getD .none) := by
  unfold takeNamed
  rw [show (kw.filter fun p => p.1 != "axis") = [] from
    List.filter_eq_nil_iff.mpr fun p hp => by simp [hnamed p hp]]

/-- An op of one operand and an axis takes the operand by position. -/
theorem reduction_positional {f : Value F → Value F → Fallible (Value F)}
    (h : (a.takeNamed "axis").1.call1 "x" (fun x => f x (a.takeNamed "axis").2) = .ok y)
    (hnamed : ∀ p ∈ a.named, p.1 = "axis") :
    ∃ x, a.positional = [x] ∧ f x ((a.named.lookup "axis").getD .none) = .ok y := by
  obtain ⟨xs, kw⟩ := a
  rw [takeNamed_axis hnamed] at h
  obtain ⟨x, hx, hy⟩ := call1_positional h (fun q hq => by cases hq) (by decide)
  cases hx
  exact ⟨x, rfl, hy⟩

/-- Where the first parameter of its own is an axis, no other argument is given by name. -/
theorem headed_positional {x axis : Value F} {xs rest : List (Value F)}
    {kw : List (String × Value F)}
    (h : (⟨x :: xs, kw⟩ : Arguments F).headed "axis" = .ok (axis, rest)) :
    kw = [] ∧ axis = x ∧ rest = xs := by
  obtain ⟨hnamed, hlook, rfl⟩ := headed_eq_ok h
  rcases lookup_eq_ok.mp hlook with ⟨hp, hnone⟩ | ⟨hp, -⟩
  · cases hp
    exact ⟨List.eq_nil_iff_forall_not_mem.mpr fun p hp =>
      ne_of_lookup_eq_none hnone hp (hnamed p hp), rfl, rfl⟩
  · cases hp

end Arguments

/-! ### Derivatives of arguments -/

variable [Arith F]

/-- Derivatives of the first of some arguments.  Each is none, or is real and has exactly the
shape of the argument at its place. -/
def DerivativesOf (xs outs : List (Value F)) : Prop :=
  List.Forall₂ (fun x d => d.isNone = true ∨
    ∃ s, x.shape = .ok s ∧ d.shape = .ok s ∧ d.isFractional = true) (xs.take outs.length) outs

omit [Arith F] in
/-- A number is the only result of an adjoint that answers it. -/
theorem resultsOf_of_shaped {d : Value F} {s : Shape} (h : d.Shaped s) : resultsOf d = [d] := by
  obtain ⟨o, ho, -⟩ := h
  cases d <;> first | rfl | cases ho

/-- Derivatives that belong to values stand at the places of the values. -/
theorem Kernel.BelongTo.exists_getElem? {xs outs : List (Value F)} (h : Kernel.BelongTo xs outs)
    {q : Nat} {x : Value F} (hx : xs[q]? = some x) :
    ∃ d s, outs[q]? = some d ∧ x.shape = .ok s ∧ d.RealShaped s := by
  obtain ⟨d, hd, s, hs, hds⟩ := exists_getElem?_of_forall₂ h hx
  exact ⟨d, s, hd, hs, hds⟩

namespace Builtin

/-! ### What adjoints need -/

/-- The operands among the arguments of an op that its adjoint calculates with.  The others are
settings, or only have their members moved about. -/
def operands (b : Builtin) (xs : List (Value F)) : List (Value F) :=
  match b with
  | reshape | slice | softmaxloss => xs.take 1
  | cat | roots => []
  | _ => xs

/-- What an adjoint needs of the arguments besides numbers.  Stacks of matrices have two axes at
least and a join has an axis; a loss is taken between operands of one shape; and where the
derivative of the output is a plain number, plain divisors and their squares are not zero. -/
def Admits (b : Builtin) (xs : List (Value F)) (dy : Value F) : Prop :=
  match b, xs with
  | mtimes, xs => ∀ x ∈ xs, ∀ s, x.shape = .ok s → 2 ≤ s.length
  | cat, axis :: _ => axis.isNone = false
  | l2loss, [x, target] => x.shape = target.shape
  | rdivide, [_, d] => dy.isPlain = true →
      ¬ d.IsPlainZero ∧ ∀ q, d.mul d = .ok q → ¬ q.IsPlainZero
  | log, [x] => dy.isPlain = true → ¬ x.IsPlainZero
  | _, _ => True

/-- Whether an op's adjoint answers a derivative for the argument at a place. -/
def feeds (b : Builtin) (q : Nat) : Bool :=
  match b with
  | reshape | slice | softmaxloss => q == 0
  | cat => q != 0
  | _ => true

/-- The ops whose adjoints stretch a single number to the shape of the output. -/
def stretches (b : Builtin) : Bool :=
  match b with
  | deal | mtimes | reshape => false
  | _ => true

/-- Derivatives of the arguments of an op, for those that its adjoint answers one for.  Each is
real and has exactly the shape of its argument. -/
structure Derives (b : Builtin) (xs outs : List (Value F)) : Prop where
  /-- There are no more than arguments. -/
  length_le : outs.length ≤ xs.length
  /-- Arguments that are fed have a derivative. -/
  fed : ∀ q x, xs[q]? = some x → b.feeds q = true →
    ∃ d s, outs[q]? = some d ∧ x.shape = .ok s ∧ d.RealShaped s
  /-- The others have none. -/
  unfed : ∀ q d, b.feeds q = false → outs[q]? = some d → d.isNone = true

theorem Derives.derivativesOf {b : Builtin} {xs outs : List (Value F)} (h : b.Derives xs outs) :
    DerivativesOf xs outs := by
  refine List.forall₂_iff_get.mpr ⟨List.length_take_of_le h.length_le, fun q hq hq' => ?_⟩
  rw [List.get_eq_getElem, List.get_eq_getElem, List.getElem_take]
  have hlt : q < xs.length := Nat.lt_of_lt_of_le hq' h.length_le
  cases hfeeds : b.feeds q with
  | false => exact .inl (h.unfed q _ hfeeds (List.getElem?_eq_getElem hq'))
  | true =>
    obtain ⟨d, s, hd, hs, hds⟩ := h.fed q _ (List.getElem?_eq_getElem hlt) hfeeds
    rw [List.getElem?_eq_getElem hq'] at hd
    cases hd
    exact .inr ⟨s, hs, hds.shaped.shape, hds.isFractional⟩

/-- An adjoint answers derivatives of the arguments that it feeds. -/
def Answers (b : Builtin) (a : Arguments F) (dy : Value F) : Prop :=
  ∃ out, b.adjointCall ⟨a.positional ++ [dy], a.named⟩ = .ok out ∧
    b.Derives a.positional (resultsOf out)

/-- An adjoint answers, and what it answers are derivatives of the arguments. -/
def AnswersInShape (b : Builtin) (a : Arguments F) (dy : Value F) : Prop :=
  ∃ out, b.adjointCall ⟨a.positional ++ [dy], a.named⟩ = .ok out ∧
    DerivativesOf a.positional (resultsOf out)

namespace Answers

variable {b : Builtin} {x y dy : Value F} {s t : Shape}

/-- An adjoint of one derivative, for the first argument. -/
theorem single {rest : List (Value F)} {kw : List (String × Value F)}
    (h : ∃ d, b.adjointCall ⟨x :: rest ++ [dy], kw⟩ = .ok d ∧ d.RealShaped s)
    (hx : x.shape = .ok s) (hrest : ∀ q, q < rest.length → b.feeds (q + 1) = false)
    (hfeeds : b.feeds 0 = true) : b.Answers ⟨x :: rest, kw⟩ dy := by
  obtain ⟨d, hcall, hd⟩ := h
  refine ⟨d, hcall, ?_⟩
  rw [resultsOf_of_shaped hd.shaped]
  refine ⟨Nat.succ_le_succ (Nat.zero_le _), fun q x' hq hfed => ?_, fun q d' hunfed hq => ?_⟩
  · cases q with
    | zero =>
      cases hq
      exact ⟨d, s, rfl, hx, hd⟩
    | succ q =>
      rw [hrest q (Nat.lt_of_succ_lt_succ (List.getElem?_eq_some_iff.mp hq).1)] at hfed
      cases hfed
  · cases q with
    | zero =>
      rw [hfeeds] at hunfed
      cases hunfed
    | succ q => cases hq

/-- An adjoint of two operands and their derivatives. -/
theorem pair (h : ∃ dx dt, b.adjointCall ⟨[x, y, dy], []⟩ = .ok (.tuple [dx, dt]) ∧
      dx.RealShaped s ∧ dt.RealShaped t) (hx : x.shape = .ok s) (hy : y.shape = .ok t)
    (hfeeds : ∀ q, b.feeds q = true) : b.Answers ⟨[x, y], []⟩ dy := by
  obtain ⟨dx, dt, hcall, hdx, hdt⟩ := h
  have hboth : Kernel.BelongTo [x, y] [dx, dt] := .cons ⟨s, hx, hdx⟩ (.cons ⟨t, hy, hdt⟩ .nil)
  refine ⟨_, hcall, Nat.le_refl 2, fun q x' hq _ => hboth.exists_getElem? hq,
    fun q _ hunfed _ => ?_⟩
  rw [hfeeds q] at hunfed
  cases hunfed

/-- An adjoint that takes its axis by name only. -/
theorem reduction {f : Value F → Value F → Value F → Fallible (Value F)}
    {kw : List (String × Value F)} (hnamed : ∀ p ∈ kw, p.1 = "axis")
    (hcall : ∀ a, b.adjointCall a = (a.takeNamed "axis").1.call2 "x" "dy" fun x dy =>
      f x dy (a.takeNamed "axis").2)
    (h : ∃ d, f x dy ((kw.lookup "axis").getD .none) = .ok d ∧ d.RealShaped s)
    (hx : x.shape = .ok s) (hfeeds : b.feeds 0 = true) : b.Answers ⟨[x], kw⟩ dy := by
  obtain ⟨d, hd, hds⟩ := h
  refine single ⟨d, ?_, hds⟩ hx (fun q hq => absurd hq (Nat.not_lt_zero q)) hfeeds
  rw [hcall, Arguments.takeNamed_axis hnamed]
  exact hd

end Answers

/-! ### The adjoints -/

section

variable {bound : Nat} {b : Builtin} {x x' y dy : Value F} {s t r : Shape}

/-- Ops of two operands whose shapes fit the shape of the output. -/
theorem answers_arithmetic (hF : Arith.FiniteUpTo F bound) (hb : b.isArithmetic = true)
    (hx : x.Within bound) (hx' : x'.Within bound) (hadmits : b.Admits [x, x'] dy)
    (hy : b.forwardCall ⟨[x, x'], []⟩ = .ok y) (hr : y.shape = .ok r) (hdy : dy.RealFits r) :
    b.Answers ⟨[x, x'], []⟩ dy := by
  obtain ⟨s, hs⟩ := hx.shaped
  obtain ⟨t, ht⟩ := hx'.shaped
  have hfits : ∀ op : Operator, Value.operate op x x' = .ok y → s.Fits r ∧ t.Fits r := fun op hy =>
    let ⟨hfs, hft, _⟩ := hs.fits_of_operate ht hy hr
    ⟨hfs, hft⟩
  cases b with
  | plus =>
    obtain ⟨hfs, hft⟩ := hfits .add hy
    exact .pair (Kernel.exists_plusAdjoint hs ht hfs hft hdy) hs.shape ht.shape fun _ => rfl
  | minus =>
    obtain ⟨hfs, hft⟩ := hfits .sub hy
    exact .pair (Kernel.exists_minusAdjoint hs ht hfs hft hdy) hs.shape ht.shape fun _ => rfl
  | times =>
    obtain ⟨hfs, hft⟩ := hfits .mul hy
    exact .pair (Kernel.exists_timesAdjoint hs ht (hx.finite hF) (hx'.finite hF) hfs hft hdy)
      hs.shape ht.shape fun _ => rfl
  | rdivide =>
    obtain ⟨hfs, hft⟩ := hfits .div hy
    exact .pair (Kernel.exists_rdivideAdjoint hs ht (hx.finite hF) (hx'.finite hF)
      (fun q hq => ⟨hx'.finite_square hF ht hq, fun hplain => (hadmits hplain).2 q hq⟩)
      (fun hplain => (hadmits hplain).1) hfs hft hdy) hs.shape ht.shape fun _ => rfl
  | _ => cases hb

/-- The functions of the members of one operand. -/
def isPointwise : Builtin → Bool
  | square | exp | log | relu | sigmoid | tanh | deal => true
  | _ => false

/-- Functions of the members keep the shape. -/
theorem pointwise_shaped (hb : b.isPointwise = true) (hx : x.Shaped s)
    (hy : b.forwardCall ⟨[x], []⟩ = .ok y) : y.Shaped s := by
  cases b with
  | square =>
    exact (hx.operate_of_fits hx (show x.mul x = .ok y from hy)).1 (Shape.Fits.refl s)
  | exp => exact (hx.mapReal (f := Arith.exp) hy).shaped
  | log => exact (hx.mapReal (f := Arith.log) hy).shaped
  | relu => exact hx.positivePart hy
  | sigmoid => exact (Kernel.sigmoid_shaped hx hy).1
  | tanh => exact (hx.mapReal (f := Arith.tanh) hy).shaped
  | deal =>
    cases show Except.ok x = Except.ok y from hy
    exact hx
  | _ => cases hb

theorem answers_pointwise (hF : Arith.FiniteUpTo F bound) (hb : b.isPointwise = true)
    (hx : x.Within bound) (hadmits : b.Admits [x] dy) (hy : b.forwardCall ⟨[x], []⟩ = .ok y)
    (hr : y.shape = .ok r) (hdy : dy.RealOver r) (hover : dy.RealShaped r ∨ b.stretches = true) :
    b.Answers ⟨[x], []⟩ dy := by
  obtain ⟨s, hs⟩ := hx.shaped
  obtain rfl := (pointwise_shaped hb hs hy).eq_of_shape hr
  have hfinite := hx.finite hF
  have hfits := hdy.realFits
  have hone : ∀ {c : Builtin}, c.feeds 0 = true →
      (∃ d, c.adjointCall ⟨[x, dy], []⟩ = .ok d ∧ d.RealShaped s) → c.Answers ⟨[x], []⟩ dy :=
    fun hfeeds h => .single h hs.shape (fun q hq => absurd hq (Nat.not_lt_zero q)) hfeeds
  cases b with
  | square =>
    exact hone rfl (Kernel.exists_squareAdjoint hs hfinite (Value.finite_small hF (by decide))
      (fun q hq => hx.finite_double hF hs hq) hfits)
  | exp => exact hone rfl (Kernel.exists_exponentialAdjoint hs hy hfits)
  | log => exact hone rfl (Kernel.exists_logarithmAdjoint hs hfinite hadmits hfits)
  | relu => exact hone rfl (Kernel.exists_reluAdjoint hs hfits)
  | sigmoid => exact hone rfl (Kernel.exists_sigmoidAdjoint hs hy hfits)
  | tanh => exact hone rfl (Kernel.exists_hyperbolicTangentAdjoint hs hy hfits)
  | deal => exact hone rfl ⟨dy, rfl, hover.resolve_right fun h => by cases h⟩
  | _ => cases hb

theorem answers_power (hF : Arith.FiniteUpTo F bound) (hx : x.Within bound)
    (hx' : x'.Within bound) (hy : Kernel.power x x' = .ok y) (hr : y.shape = .ok r)
    (hdy : dy.RealFits r) : power.Answers ⟨[x, x'], []⟩ dy := by
  obtain ⟨s, hs⟩ := hx.shaped
  obtain ⟨t, ht⟩ := hx'.shaped
  obtain ⟨u, hu, hys⟩ := hs.power ht hy
  obtain rfl := hys.eq_of_shape hr
  exact .pair (Kernel.exists_powerAdjoint hs ht (hx.finite hF) (hx'.finite hF)
    (Value.finite_small hF (by decide)) (fun q hq => hx'.finite_pred hF ht hq) hu hdy)
    hs.shape ht.shape fun _ => rfl

theorem answers_mean (hF : Arith.FiniteUpTo F bound) {kw : List (String × Value F)}
    (hnamed : ∀ p ∈ kw, p.1 = "axis") (hx : x.Within bound)
    (hy : Kernel.mean x ((kw.lookup "axis").getD .none) = .ok y) (hr : y.shape = .ok r)
    (hdy : dy.RealOver r) : mean.Answers ⟨[x], kw⟩ dy := by
  obtain ⟨s, hs⟩ := hx.shaped
  have hcount : ∀ n : Nat, n ≤ s.size → (Value.integer n : Value F).Finite := fun n hn =>
    Value.finite_of_whole? hF fun k hk => by
      cases hk
      exact hn.trans (hx.size s hs.shape)
  exact .reduction hnamed (fun _ => rfl) (Kernel.exists_meanAdjoint hs hcount hy hr hdy)
    hs.shape rfl

theorem answers_l2loss (hF : Arith.FiniteUpTo F bound) (hx : x.Within bound)
    (hx' : x'.Within bound) (hsame : x.shape = x'.shape) (hy : Kernel.l2loss x x' = .ok y)
    (hr : y.shape = .ok r) (hdy : dy.RealOver r) : l2loss.Answers ⟨[x, x'], []⟩ dy := by
  obtain ⟨s, hs⟩ := hx.shaped
  obtain ⟨t, ht⟩ := hx'.shaped
  obtain rfl := hs.eq_of_shape (hsame.trans ht.shape)
  obtain ⟨diff, hdiff, hdiffs, hys⟩ := Kernel.l2loss_shaped hs ht hy
  obtain rfl := hys.eq_of_shape hr
  exact .pair (Kernel.exists_l2lossAdjoint hdiff hdiffs (hx.finite_sub hF hs ht hx' hdiff)
    (hdy.elim id id)) hs.shape ht.shape fun _ => rfl

theorem answers_softmaxloss {labelValues : Value F} (hs : x.Shaped s)
    (hy : Kernel.softmaxloss x labelValues = .ok y) (hr : y.shape = .ok r) (hdy : dy.RealOver r) :
    softmaxloss.Answers ⟨[x, labelValues], []⟩ dy := by
  obtain rfl := (Kernel.softmaxloss_shaped hs hy).2.1.eq_of_shape hr
  obtain ⟨dx, hcall, hdx⟩ := Kernel.exists_softmaxlossAdjoint hs hy hr (hdy.elim id id)
  refine ⟨_, hcall, Nat.le_refl 2, fun q x' hq hfed => ?_, fun q d hunfed hq => ?_⟩
  · obtain rfl : q = 0 := by simpa [feeds] using hfed
    cases hq
    exact ⟨dx, s, rfl, hs.shape, hdx⟩
  · rcases q with _ | _ | q
    · cases hunfed
    · cases hq
      rfl
    · cases hq

end

section

variable {bound : Nat} {b : Builtin} {a : Arguments F} {y dy : Value F} {r : Shape}

/-- **Adjoints answer derivatives in the shapes of their operands**, from a derivative of the
output's shape, and most also from a single number for it. -/
theorem exists_derives (hF : Arith.FiniteUpTo F bound) (hnamed : ∀ p ∈ a.named, p.1 = "axis")
    (hy : b.forwardCall a = .ok y) (hr : y.shape = .ok r) (hdy : dy.RealOver r)
    (hover : dy.RealShaped r ∨ b.stretches = true)
    (hoperands : ∀ x ∈ b.operands a.positional, x.Within bound)
    (hadmits : b.Admits a.positional dy) :
    b.Answers a dy := by
  obtain ⟨xs, kw⟩ := a
  cases b with
  | plus | minus | times | rdivide =>
    obtain ⟨x, x', hpos, -⟩ := Arguments.call2_positional hy hnamed (by decide)
    cases hpos
    exact answers_arithmetic hF rfl (hoperands x (.head _))
      (hoperands x' (.tail _ (.head _))) hadmits hy hr hdy.realFits
  | square | exp | log | relu | sigmoid | tanh | deal =>
    obtain ⟨x, hpos, -⟩ := Arguments.call1_positional hy hnamed (by decide)
    cases hpos
    exact answers_pointwise hF rfl (hoperands x (.head _)) hadmits hy hr hdy hover
  | power =>
    obtain ⟨x, p, hpos, hf⟩ := Arguments.call2_positional hy hnamed (by decide)
    cases hpos
    exact answers_power hF (hoperands x (.head _))
      (hoperands p (.tail _ (.head _))) hf hr hdy.realFits
  -- Here and for a change of shape the output's derivative has its full shape: there is no use
  -- for a number.
  | mtimes =>
    obtain ⟨x, x', hpos, hf⟩ := Arguments.call2_positional hy hnamed (by decide)
    cases hpos
    obtain ⟨s, hs⟩ := (hoperands x (.head _)).shaped
    obtain ⟨t, ht⟩ := (hoperands x' (.tail _ (.head _))).shaped
    exact .pair (Kernel.exists_mtimesAdjoint hs ht (hadmits x (.head _) s hs.shape)
      (hadmits x' (.tail _ (.head _)) t ht.shape) hf hr (hover.resolve_right fun h => by cases h))
      hs.shape ht.shape fun _ => rfl
  | sum =>
    obtain ⟨x, rfl, hf⟩ := Arguments.reduction_positional hy hnamed
    obtain ⟨s, hs⟩ := (hoperands x (.head _)).shaped
    exact .reduction hnamed (fun _ => rfl) (Kernel.exists_sumAdjoint hs hf hr hdy) hs.shape rfl
  | mean =>
    obtain ⟨x, hpos, hf⟩ := Arguments.reduction_positional hy hnamed
    cases hpos
    exact answers_mean hF hnamed (hoperands x (.head _)) hf hr hdy
  | reshape =>
    obtain ⟨x, shape, hpos, hf⟩ := Arguments.call2_positional hy hnamed (by decide)
    cases hpos
    obtain ⟨s, hs⟩ := (hoperands x (.head _)).shaped
    exact .single (Kernel.exists_reshapeAdjoint hs hf hr (hover.resolve_right fun h => by cases h))
      hs.shape (fun _ _ => rfl) rfl
  | slice =>
    obtain ⟨x, index, hpos, hf⟩ := Arguments.call2_positional hy hnamed (by decide)
    cases hpos
    obtain ⟨s, hs⟩ := (hoperands x (.head _)).shaped
    exact .single (Kernel.exists_sliceAdjoint hs hf hr hdy.realFits) hs.shape (fun _ _ => rfl) rfl
  | cat =>
    obtain ⟨⟨axis, ys⟩, hhead, hf⟩ := bind_eq_ok.mp hy
    cases xs with
    | nil =>
      obtain ⟨-, -, rfl⟩ := Arguments.headed_eq_ok hhead
      exact absurd hf (Kernel.cat_nil axis y)
    | cons x xs =>
      obtain ⟨rfl, rfl, rfl⟩ := Arguments.headed_positional hhead
      obtain ⟨outs, hcall, houts⟩ := Kernel.exists_catAdjoint hadmits hf hr hdy
      refine ⟨_, hcall, Nat.succ_le_succ houts.length_eq.ge, fun q x hq hfed => ?_,
        fun q d hunfed hq => ?_⟩
      -- The axis in front is fed nothing, and every part goes to its own operand.
      · cases q with
        | zero => cases hfed
        | succ q => exact houts.exists_getElem? hq
      · cases q with
        | zero =>
          cases hq
          rfl
        | succ q => cases hunfed
  | roots =>
    obtain ⟨ys, hys, hf⟩ := bind_eq_ok.mp hy
    obtain ⟨hnil, rfl⟩ := Arguments.unnamed_eq_ok hys
    cases hnil
    obtain ⟨outs, hcall, houts⟩ := Kernel.exists_rootsAdjoint_shaped hf hr hdy
    exact ⟨_, hcall, houts.length_eq.ge, fun q x hq _ => houts.exists_getElem? hq,
      fun _ _ hunfed _ => by cases hunfed⟩
  | l2loss =>
    obtain ⟨x, target, hpos, hf⟩ := Arguments.call2_positional hy hnamed (by decide)
    cases hpos
    exact answers_l2loss hF (hoperands x (.head _)) (hoperands target (.tail _ (.head _)))
      hadmits hf hr hdy
  | softmaxloss =>
    obtain ⟨x, labelValues, hpos, hf⟩ := Arguments.call2_positional hy hnamed (by decide)
    cases hpos
    obtain ⟨s, hs⟩ := (hoperands x (.head _)).shaped
    exact answers_softmaxloss hs hf hr hdy

end

/-- **Derivatives have the shape of their operand.**  Take any built-in op and arguments on
which its forward function answers, with nothing but an axis given by name; operands that are
numbers, of which the plain integers are within the real numbers; and a derivative of the output
that is real and has exactly the output's shape.  Then the adjoint answers, and each derivative
that it answers is none, or is real and has exactly the shape of its operand.  A derivative of
the output that is kept as integers is left out, though most adjoints accept it. -/
theorem adjoints_answer_in_shape {bound : Nat} (hF : Arith.FiniteUpTo F bound) {b : Builtin}
    {a : Arguments F} {y dy : Value F} {r : Shape} (hnamed : ∀ p ∈ a.named, p.1 = "axis")
    (hy : b.forwardCall a = .ok y) (hr : y.shape = .ok r) (hdy : dy.RealShaped r)
    (hoperands : ∀ x ∈ b.operands a.positional, x.Within bound)
    (hadmits : b.Admits a.positional dy) :
    b.AnswersInShape a dy := by
  obtain ⟨out, hcall, hderives⟩ :=
    exists_derives hF hnamed hy hr (.inl hdy) (.inl hdy) hoperands hadmits
  exact ⟨out, hcall, hderives.derivativesOf⟩

/-- A vector times a plain integer, with a vector of derivatives. -/
theorem adjoints_answer_in_shape_scaled_pair :
    times.AnswersInShape (⟨[pair 1 2, .integer 3], []⟩ : Arguments ℚ) (pair 1 1) := by
  have hF : Arith.FiniteUpTo ℚ 16 := Arith.FiniteInts.upTo (by decide)
  have hpair : (pair 1 2).Within 16 :=
    ⟨⟨_, Value.shaped_array _⟩, (fun n hn => by cases hn), fun s hs => by cases hs; decide⟩
  have hthree : (Value.integer 3 : Value ℚ).Within 16 :=
    ⟨⟨_, Value.shaped_of_weak? rfl⟩, (fun n hn => by cases hn; decide),
      fun s hs => by cases hs; decide⟩
  have hdy : (pair 1 1).RealShaped [2] := Value.realShaped_array rfl
  refine adjoints_answer_in_shape (y := .array _) hF
    (fun p hp => by cases hp) rfl rfl hdy ?_ trivial
  exact List.forall_mem_cons.mpr ⟨hpair, List.forall_mem_singleton.mpr hthree⟩

/-- A target without axes is stretched to the values, and its derivative has their axes.  A
plain zero has a logarithm, and a plain number has no quotient by it. -/
theorem loss_of_stretched_target :
    (∃ y dx dt : Value ℚ,
      l2loss.forwardCall ⟨[pair 1 2, .real (1 / 2)], []⟩ = .ok y ∧ y.shape = .ok [] ∧
      (Value.real 1 : Value ℚ).RealShaped [] ∧
      l2loss.adjointCall ⟨[pair 1 2, .real (1 / 2), .real 1], []⟩ = .ok (.tuple [dx, dt]) ∧
      (Value.real (1 / 2) : Value ℚ).shape = .ok [] ∧ dt.isNone = false ∧ dt.shape = .ok [2] ∧
      ¬ DerivativesOf [pair 1 2, .real (1 / 2)] [dx, dt]) ∧
    (∃ y : Value ℚ, log.forwardCall ⟨[.real 0], []⟩ = .ok y ∧ y.shape = .ok [] ∧
      log.adjointCall ⟨[.real (0 : ℚ), .real 1], []⟩ = .error .divisionByZero) := by
  refine ⟨⟨_, _, _, rfl, rfl, Value.realShaped_real 1, rfl, rfl, rfl, rfl, ?_⟩, _, rfl, rfl, rfl⟩
  intro h
  obtain _ | ⟨-, _ | ⟨h, -⟩⟩ := h
  rcases h with h | ⟨s, hs, hd, -⟩
  · cases h
  · cases hs
    cases hd

end Builtin

end SlotGrad
