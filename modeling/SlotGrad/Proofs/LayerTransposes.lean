import SlotGrad.Proofs.Calls
import SlotGrad.Proofs.IndexTransposes

/-!
# Adjoints of built-in ops

An adjoint is called with the arguments of its op and the derivative of the output behind them.
Where both calls are answered the arguments stand by position, so the kernels are called with the
same operands and settings, and the answers are transposes of each other.

## Main definitions

* `Transposed` — derivatives of arguments that count together as the derivative of the output.

## Main results

* `Builtin.forwardCall_reals` — answers are real.
* `Builtin.adjointCall_transposes` — the adjoints of all differentiable ops but indexing.
-/

namespace SlotGrad

variable {K : Type} [Field K] [Arith K] [ExactArith K]

/-- Derivatives of arguments: each that is present belongs to the argument at its place, and all
together count against the arguments what the derivative of the output counts against the output. -/
structure Transposed (xs : List (Value (Dual K))) (w : Value (Dual K)) (dy : Value K)
    (outs : List (Value K)) : Prop where
  /-- What is present belongs to its argument. -/
  cotangents : ∀ (k : Nat) (x : Value (Dual K)) (v : Value K), xs[k]? = some x →
    outs[k]? = some v → v.isNone = false → v.IsCotangent x
  /-- What the derivatives count is what the derivative of the output counts. -/
  pairings : Kernel.pairings outs xs = dy.pairing w

namespace Transposed

variable {xs : List (Value (Dual K))} {x y w : Value (Dual K)} {dy out da db : Value K}
  {outs : List (Value K)}

omit [ExactArith K] in
/-- A real value is the only result of an adjoint that answers it. -/
theorem resultsOf_of_cotangent (h : out.IsCotangent x) : resultsOf out = [out] := by
  obtain ⟨g, _, hg, -⟩ := h
  rcases Value.reals?_eq_some hg with ⟨y, rfl, -⟩ | ⟨y, rfl, -⟩ | rfl <;> rfl

omit [ExactArith K] in
theorem single (h : out.IsCotangent x ∧ out.pairing x = dy.pairing w)
    (rest : List (Value (Dual K))) :
    Transposed (x :: rest) w dy (resultsOf out) := by
  rw [resultsOf_of_cotangent h.1]
  refine ⟨fun k x' v hx hv _ => ?_, ?_⟩
  · cases k with
    | zero =>
      cases hx
      cases hv
      exact h.1
    | succ k => cases hv
  · unfold Kernel.pairings
    simpa using h.2

omit [ExactArith K] in
theorem pair (h : ∃ da db, out = .tuple [da, db] ∧ da.IsCotangent x ∧ db.IsCotangent y ∧
    da.pairing x + db.pairing y = dy.pairing w) : Transposed [x, y] w dy (resultsOf out) := by
  obtain ⟨da, db, rfl, hda, hdb, hsum⟩ := h
  refine ⟨fun k x' v hx hv _ => ?_, ?_⟩
  · have hv : [da, db][k]? = some v := hv
    match k, hx, hv with
    | 0, hx, hv =>
      cases hx
      cases hv
      exact hda
    | 1, hx, hv =>
      cases hx
      cases hv
      exact hdb
    | k + 2, hx, _ => cases hx
  · change Kernel.pairings [da, db] [x, y] = _
    unfold Kernel.pairings
    simpa using hsum

omit [ExactArith K] in
theorem list (houts : Kernel.AreCotangents outs xs)
    (hsum : Kernel.pairings outs xs = dy.pairing w) : Transposed xs w dy outs := by
  refine ⟨fun k x v hx hv _ => ?_, hsum⟩
  obtain ⟨hk, rfl⟩ := List.getElem?_eq_some_iff.mp hx
  obtain ⟨hk', rfl⟩ := List.getElem?_eq_some_iff.mp hv
  exact (List.forall₂_iff_get.mp houts).2 k hk' hk

omit [ExactArith K] in
/-- An argument for which there is no derivative counts nothing. -/
theorem cons_none (h : Transposed xs w dy outs) (x : Value (Dual K)) :
    Transposed (x :: xs) w dy (.none :: outs) := by
  refine ⟨fun k x' v hx hv hpresent => ?_, ?_⟩
  · cases k with
    | zero =>
      cases hv
      cases hpresent
    | succ k => exact h.cotangents k x' v hx hv hpresent
  · have hnone : (Value.none : Value K).pairing x = 0 := rfl
    rw [← h.pairings]
    unfold Kernel.pairings
    rw [List.zip_cons_cons, List.map_cons, List.sum_cons, hnone, zero_add]

end Transposed

namespace Builtin

/-! ### Answers are real -/

/-- What a differentiable op answers on real operands is real. -/
theorem forwardCall_reals {b : Builtin} (hb : b.isDifferentiable = true)
    {a : Arguments (Dual K)} (h : RealArguments b a) {w : Value (Dual K)}
    (hw : b.forwardCall a = .ok w) : ∃ g, w.reals? = some g := by
  -- An integer may stand beside a real operand, but not beside another integer.
  have harith : ∀ (op : Operator) (p q : String), b.isArithmetic = true →
      a.call2 p q (Value.operate op) = .ok w → ∃ g, w.reals? = some g := by
    intro op p q hb hw
    obtain ⟨x, y, hbind, hw⟩ := Arguments.call2_eq_ok hw
    obtain ⟨hx, hy⟩ := Arguments.bind_two hbind
    obtain ⟨⟨g, hg⟩, ⟨g', hg'⟩, hreal⟩ := h.pair hb hx hy
    obtain ⟨u, -, hu⟩ := Value.operate_eq_ok hg hg' hreal hw
    exact ⟨u, hu⟩
  cases b with
  | plus => exact harith .add "a" "b" rfl hw
  | minus => exact harith .sub "a" "b" rfl hw
  | times => exact harith .mul "a" "b" rfl hw
  | rdivide => exact harith .div "a" "b" rfl hw
  | mtimes =>
    obtain ⟨x, y, hbind, hw⟩ := Arguments.call2_eq_ok hw
    obtain ⟨hx, hy⟩ := Arguments.bind_two hbind
    obtain ⟨g, hg⟩ := h.real rfl hx (by intro h; cases h) List.not_mem_nil
    obtain ⟨g', hg'⟩ := h.real rfl hy (by intro h; cases h) List.not_mem_nil
    obtain ⟨u, hu, -⟩ := Kernel.mtimes_eq_ok hg hg'
      (h.matrices rfl x (Arguments.mem_of_lookup_eq_ok hx) g hg)
      (h.matrices rfl y (Arguments.mem_of_lookup_eq_ok hy) g' hg') hw
    exact ⟨u, hu⟩
  | square =>
    obtain ⟨x, hbind, hw⟩ := Arguments.call1_eq_ok hw
    obtain ⟨g, hg⟩ := h.real rfl (Arguments.bind_one hbind) (by intro h; cases h) List.not_mem_nil
    obtain ⟨u, -, hu⟩ := Value.operate_eq_ok (Value.numbers?_of_reals? hg)
      (Value.numbers?_of_reals? hg) (.inl (by rw [hg]; rfl)) hw
    exact ⟨u, hu⟩
  | deal =>
    obtain ⟨x, hbind, hw⟩ := Arguments.call1_eq_ok hw
    cases hw
    exact h.real rfl (Arguments.bind_one hbind) (by intro h; cases h) List.not_mem_nil
  -- The axis is taken away first: what is left is a single real operand.
  | sum =>
    obtain ⟨x, hbind, hw⟩ := Arguments.call1_eq_ok hw
    obtain ⟨g, hg⟩ := (h.takeNamed "axis").real rfl (Arguments.bind_one hbind)
      (by intro h; cases h) (by decide)
    unfold Kernel.sum at hw
    rw [Value.total_reals hg] at hw
    obtain ⟨ks, -, hw⟩ := bind_eq_ok.mp hw
    rw [← pure_eq_ok.mp hw]
    exact ⟨_, Value.reals?_reduced _⟩
  | mean =>
    obtain ⟨x, hbind, hw⟩ := Arguments.call1_eq_ok hw
    obtain ⟨g, hg⟩ := (h.takeNamed "axis").real rfl (Arguments.bind_one hbind)
      (by intro h; cases h) (by decide)
    obtain ⟨_, u, -, -, hu, -⟩ := Kernel.average_eq_ok hg hw
    exact ⟨u, hu⟩
  | reshape =>
    obtain ⟨x, y, hbind, hw⟩ := Arguments.call2_eq_ok hw
    obtain ⟨g, hg⟩ := h.real rfl (Arguments.bind_two hbind).1 (by intro h; cases h) (by decide)
    obtain ⟨u, hu, -⟩ := Kernel.reshape_eq_ok hg hw
    exact ⟨u, hu⟩
  | slice =>
    obtain ⟨x, y, hbind, hw⟩ := Arguments.call2_eq_ok hw
    obtain ⟨g, hg⟩ := h.real rfl (Arguments.bind_two hbind).1 (by intro h; cases h) (by decide)
    unfold Kernel.slice at hw
    rw [Value.getAt_reals hg] at hw
    obtain ⟨ps, -, hw⟩ := bind_eq_ok.mp hw
    obtain ⟨sel, -, hw⟩ := bind_eq_ok.mp hw
    rw [← pure_eq_ok.mp hw]
    exact ⟨_, Kernel.reals?_arrayOrElement _ _⟩
  | cat =>
    obtain ⟨⟨axis, xs⟩, hhead, hw⟩ := bind_eq_ok.mp hw
    obtain ⟨haxis, gs, hgs⟩ := h.joined hhead
    dsimp only at hw
    rw [Kernel.cat_reals hgs haxis] at hw
    obtain ⟨_, -, hw⟩ := bind_eq_ok.mp hw
    obtain ⟨_, -, hw⟩ := bind_eq_ok.mp hw
    obtain ⟨u, -, hw⟩ := bind_eq_ok.mp hw
    rw [← pure_eq_ok.mp hw]
    exact ⟨u, rfl⟩
  | roots =>
    obtain ⟨xs, hall, hw⟩ := bind_eq_ok.mp hw
    obtain ⟨gs, hgs⟩ := h.listed hall
    rw [Kernel.roots_reals hgs] at hw
    obtain ⟨u, -, hw⟩ := bind_eq_ok.mp hw
    rw [← pure_eq_ok.mp hw]
    exact ⟨u, rfl⟩
  | l2loss =>
    obtain ⟨x, y, hbind, hw⟩ := Arguments.call2_eq_ok hw
    obtain ⟨hx, hy⟩ := Arguments.bind_two hbind
    obtain ⟨g, hg⟩ := h.real rfl hx (by intro h; cases h) List.not_mem_nil
    obtain ⟨g', hg'⟩ := h.real rfl hy (by intro h; cases h) List.not_mem_nil
    obtain ⟨_, _, u, -, -, -, hu⟩ := Kernel.l2loss_eq_ok hg hg' hw
    exact ⟨u, hu⟩
  | _ => cases hb

omit [ExactArith K] in
/-- A setting that is a text is refused. -/
theorem isText_setting {b : Builtin} {a : Arguments (Dual K)} (h : RealArguments b a)
    {w : Value (Dual K)} (hw : b.forwardCall a = .ok w) {k : Nat} {x : Value (Dual K)}
    (hk : b.settingPlace? = some k) (hx : a.positional[k]? = some x) : x.isText = false := by
  by_contra htext
  obtain ⟨t, rfl⟩ : ∃ t, x = .text t := by
    cases x
    case text t => exact ⟨t, rfl⟩
    all_goals exact absurd rfl htext
  have htaken : ∀ {k : Nat} {name : String} {v : Value (Dual K)},
      a.positional[k]? = some (.text t) → a.lookup k name = .ok v → v = .text t := by
    intro k name v hp hv
    rcases Arguments.lookup_eq_ok.mp hv with ⟨hp', -⟩ | ⟨hp', -⟩
    · rw [hp] at hp'
      exact (Option.some.inj hp').symm
    · rw [hp] at hp'
      cases hp'
  cases b with
  | reshape =>
    cases hk
    obtain ⟨y, z, hbind, hw⟩ := Arguments.call2_eq_ok hw
    rw [htaken hx (Arguments.bind_two hbind).2] at hw
    cases hw
  | slice =>
    cases hk
    obtain ⟨y, z, hbind, hw⟩ := Arguments.call2_eq_ok hw
    obtain ⟨g, hg⟩ := h.real rfl (Arguments.bind_two hbind).1 (by intro h; cases h) (by decide)
    rw [htaken hx (Arguments.bind_two hbind).2] at hw
    unfold Kernel.slice at hw
    rw [Value.getAt_reals hg] at hw
    cases hw
  | cat =>
    cases hk
    obtain ⟨⟨axis, xs⟩, hhead, hw⟩ := bind_eq_ok.mp hw
    obtain ⟨haxis, gs, hgs⟩ := h.joined hhead
    obtain ⟨-, hlook, -⟩ := Arguments.headed_eq_ok hhead
    dsimp only at hw
    rw [Kernel.cat_reals hgs haxis, htaken hx hlook] at hw
    cases hw
  | _ => cases hk

/-! ### Adjoints -/

section

variable {xs : List (Value (Dual K))} {kw : List (String × Value K)} {w : Value (Dual K)}
  {dy out : Value K}

/-- The arguments of an op over dual numbers, those by name constant. -/
def dualArguments (xs : List (Value (Dual K))) (kw : List (String × Value K)) :
    Arguments (Dual K) :=
  ⟨xs, kw.map fun p => (p.1, p.2.map Dual.embed)⟩

/-- The arguments of its adjoint: the values, and the derivative of the output behind them. -/
def seededArguments (xs : List (Value (Dual K))) (kw : List (String × Value K)) (dy : Value K) :
    Arguments K :=
  ⟨xs.map (Value.map Dual.re) ++ [dy], kw⟩

omit [Arith K] [ExactArith K] in
theorem lookup_dualArguments {name : String} (h : kw.lookup name = none) :
    (dualArguments xs kw).named.lookup name = none := by
  unfold dualArguments
  dsimp only
  rw [lookup_map_snd, h]
  rfl

omit [Arith K] [ExactArith K] in
/-- An op of one parameter and its adjoint that are both answered. -/
theorem unary {p q : String} {f : Value (Dual K) → Fallible (Value (Dual K))}
    {f' : Value K → Value K → Fallible (Value K)} (hw : (dualArguments xs kw).call1 p f = .ok w)
    (hout : (seededArguments xs kw dy).call2 p q f' = .ok out) :
    ∃ x, xs = [x] ∧ kw = [] ∧ f x = .ok w ∧ f' (x.map Dual.re) dy = .ok out := by
  obtain ⟨x, x', hx, hnil, hx', hf, hf'⟩ := Arguments.call1_call2 hw hout rfl
    (List.length_map _) fun name => lookup_dualArguments
  have hx : xs = [x] := hx
  rw [hx] at hx'
  cases hx'
  exact ⟨x, hx, List.map_eq_nil_iff.mp hnil, hf, hf'⟩

omit [Arith K] [ExactArith K] in
/-- An op of two parameters and its adjoint that are both answered. -/
theorem binary {p q r : String} {f : Value (Dual K) → Value (Dual K) → Fallible (Value (Dual K))}
    {f' : Value K → Value K → Value K → Fallible (Value K)}
    (hw : (dualArguments xs kw).call2 p q f = .ok w)
    (hout : (seededArguments xs kw dy).call3 p q r f' = .ok out) :
    ∃ x y, xs = [x, y] ∧ kw = [] ∧ f x y = .ok w ∧
      f' (x.map Dual.re) (y.map Dual.re) dy = .ok out := by
  obtain ⟨x, y, x', y', hx, hnil, hx', hf, hf'⟩ := Arguments.call2_call3 hw hout rfl
    (List.length_map _) fun name => lookup_dualArguments
  have hx : xs = [x, y] := hx
  rw [hx] at hx'
  cases hx'
  exact ⟨x, y, hx, List.map_eq_nil_iff.mp hnil, hf, hf'⟩

omit [Arith K] [ExactArith K] in
/-- A reduction takes its axis by name, and so does its adjoint. -/
theorem reduction {p q : String} {f : Value (Dual K) → Value (Dual K) → Fallible (Value (Dual K))}
    {f' : Value K → Value K → Value K → Fallible (Value K)}
    (hw : ((dualArguments xs kw).takeNamed "axis").1.call1 p (fun x => f x
      ((dualArguments xs kw).takeNamed "axis").2) = .ok w)
    (hout : ((seededArguments xs kw dy).takeNamed "axis").1.call2 p q (fun x dy => f' x dy
      ((seededArguments xs kw dy).takeNamed "axis").2) = .ok out) :
    ∃ x axis, xs = [x] ∧ f x (axis.map Dual.embed) = .ok w ∧
      f' (x.map Dual.re) dy axis = .ok out := by
  have haxis : ((dualArguments xs kw).takeNamed "axis").2
      = (((seededArguments xs kw dy).takeNamed "axis").2).map Dual.embed := by
    unfold Arguments.takeNamed dualArguments seededArguments
    dsimp only
    rw [lookup_map_snd]
    cases kw.lookup "axis" <;> rfl
  have hrest : ((dualArguments xs kw).takeNamed "axis").1
      = dualArguments xs (kw.filter fun p => p.1 != "axis") := by
    unfold Arguments.takeNamed dualArguments
    dsimp only
    rw [List.filter_map]
    rfl
  rw [haxis, hrest] at hw
  obtain ⟨x, hx, -, hf, hf'⟩ := unary hw hout
  exact ⟨x, _, hx, hf, hf'⟩

omit [ExactArith K] in
/-- The transpose identity of an op of plain arithmetic carries over to calls. -/
theorem arithmetic_transposes {b : Builtin} (hb : b.isArithmetic = true)
    (h : RealArguments b (dualArguments xs kw)) {f : Value (Dual K) → Value (Dual K) →
      Fallible (Value (Dual K))} {f' : Value K → Value K → Value K → Fallible (Value K)}
    (hw : (dualArguments xs kw).call2 "a" "b" f = .ok w)
    (hout : (seededArguments xs kw dy).call3 "a" "b" "dy" f' = .ok out)
    (htransposes : ∀ {x y : Value (Dual K)} {g g' : Grid (Dual K)}, x.numbers? = some g →
      y.numbers? = some g' → x.reals?.isSome ∨ y.reals?.isSome → f x y = .ok w →
        f' (x.map Dual.re) (y.map Dual.re) dy = .ok out →
          ∃ da db, out = .tuple [da, db] ∧ da.IsCotangent x ∧ db.IsCotangent y ∧
            da.pairing x + db.pairing y = dy.pairing w) :
    Transposed xs w dy (resultsOf out) := by
  obtain ⟨x, y, rfl, rfl, hf, hf'⟩ := binary hw hout
  obtain ⟨⟨g, hg⟩, ⟨g', hg'⟩, hreal⟩ := h.pair (p := "a") (q := "b") hb rfl rfl
  exact .pair (htransposes hg hg' hreal hf hf')

/-- **Adjoints are transposes.**  Wherever a differentiable op other than indexing is answered over
dual numbers and its adjoint is answered on the values, the results of the adjoint count together
against the arguments what the derivative of the output counts against the output. -/
theorem adjointCall_transposes [CharZero K] {b : Builtin} (hb : b.isDifferentiable = true)
    (hslice : b ≠ slice) (h : RealArguments b (dualArguments xs kw))
    (hsettings : ∀ k x, b.settingPlace? = some k → xs[k]? = some x →
      ∃ u : Value K, x = u.map Dual.embed)
    (hw : b.forwardCall (dualArguments xs kw) = .ok w) (hdy : dy.IsCotangent w)
    (hout : b.adjointCall (seededArguments xs kw dy) = .ok out) :
    Transposed xs w dy (resultsOf out) := by
  -- Outside plain arithmetic an operand by position is real.
  have hreal : b.isArithmetic = false → ∀ (k : Nat) (x : Value (Dual K)), xs[k]? = some x →
      b.settingPlace? ≠ some k → ∃ g, x.reals? = some g := by
    intro harith k x hx hk
    rcases h.positional k x hx hk with hr | ⟨hi, -⟩
    · exact Option.isSome_iff_exists.mp hr
    · rw [harith] at hi
      cases hi
  cases b with
  | plus =>
    exact arithmetic_transposes rfl h hw hout fun ha hb hr hw hout =>
      Kernel.plusAdjoint_transposes ha hb hr hw hdy hout
  | minus =>
    exact arithmetic_transposes rfl h hw hout fun ha hb hr hw hout =>
      Kernel.minusAdjoint_transposes ha hb hr hw hdy hout
  | times =>
    exact arithmetic_transposes rfl h hw hout fun ha hb hr hw hout =>
      Kernel.timesAdjoint_transposes ha hb hr hw hdy hout
  | rdivide =>
    exact arithmetic_transposes rfl h hw hout fun ha hb hr hw hout =>
      Kernel.rdivideAdjoint_transposes ha hb hr hw hdy hout
  | mtimes =>
    obtain ⟨x, y, rfl, rfl, hf, hf'⟩ := binary hw hout
    obtain ⟨g, hg⟩ := hreal rfl 0 x rfl (by intro h; cases h)
    obtain ⟨g', hg'⟩ := hreal rfl 1 y rfl (by intro h; cases h)
    exact .pair (Kernel.mtimesAdjoint_transposes hg hg'
      (h.matrices rfl x (.inl (List.mem_cons_self ..)) g hg)
      (h.matrices rfl y (.inl (List.mem_cons_of_mem _ (List.mem_cons_self ..))) g' hg') hf hdy hf')
  | square =>
    obtain ⟨x, rfl, rfl, hf, hf'⟩ := unary hw hout
    obtain ⟨g, hg⟩ := hreal rfl 0 x rfl (by intro h; cases h)
    exact .single (Kernel.squareAdjoint_transposes hg hf hdy hf') []
  | deal =>
    obtain ⟨x, rfl, rfl, hf, hf'⟩ := unary hw hout
    exact .single (Kernel.dealAdjoint_transposes hf hdy hf') []
  | sum =>
    obtain ⟨x, axis, rfl, hf, hf'⟩ := reduction hw hout
    obtain ⟨g, hg⟩ := hreal rfl 0 x rfl (by intro h; cases h)
    exact .single (Kernel.sumAdjoint_transposes hg hf hdy hf') []
  | mean =>
    obtain ⟨x, axis, rfl, hf, hf'⟩ := reduction hw hout
    obtain ⟨g, hg⟩ := hreal rfl 0 x rfl (by intro h; cases h)
    exact .single (Kernel.meanAdjoint_transposes hg hf hdy hf') []
  | reshape =>
    obtain ⟨x, y, rfl, rfl, hf, hf'⟩ := binary hw hout
    obtain ⟨g, hg⟩ := hreal rfl 0 x rfl (by intro h; cases h)
    exact .single (Kernel.reshapeAdjoint_transposes hg hf hdy hf') [y]
  | cat =>
    obtain ⟨⟨axis', ys⟩, hhead, hw⟩ := bind_eq_ok.mp hw
    obtain ⟨⟨axis, zs⟩, hhead', hout⟩ := bind_eq_ok.mp hout
    obtain ⟨haxis, gs, hgs⟩ := h.joined hhead
    obtain ⟨-, hlook, rfl⟩ := Arguments.headed_eq_ok hhead
    obtain ⟨-, hlook', rfl⟩ := Arguments.headed_eq_ok hhead'
    cases xs with
    | nil =>
      -- An axis by name would meet the derivative of the output.
      rcases Arguments.lookup_eq_ok.mp hlook' with ⟨-, hn⟩ | ⟨hp, -⟩
      · rcases Arguments.lookup_eq_ok.mp hlook with ⟨hp, -⟩ | ⟨-, hn'⟩
        · cases hp
        · rw [lookup_dualArguments (show kw.lookup "axis" = none from hn)] at hn'
          cases hn'
      · cases hp
    | cons x xs =>
      -- The axis is a constant: both calls join along the same one.
      obtain ⟨u, rfl⟩ := hsettings 0 x rfl rfl
      have hx : axis' = u.map Dual.embed := by
        rcases Arguments.lookup_eq_ok.mp hlook with ⟨hp, -⟩ | ⟨hp, -⟩
        · cases hp
          rfl
        · cases hp
      have hu : axis = u := by
        rcases Arguments.lookup_eq_ok.mp hlook' with ⟨hp, -⟩ | ⟨hp, -⟩
        · cases hp
          exact Value.map_map_cancel Dual.re_embed u
        · cases hp
      subst hx hu
      rw [Value.isNone_map] at haxis
      obtain ⟨outs, rfl, houts, hsum⟩ := Kernel.catAdjoint_transposes hgs haxis hw hdy hout
      exact (Transposed.list houts hsum).cons_none _
  | roots =>
    obtain ⟨ys, hall, hroots⟩ := bind_eq_ok.mp hw
    obtain ⟨zs, hall', hadjoint⟩ := bind_eq_ok.mp hout
    obtain ⟨gs, hgs⟩ := h.listed hall
    obtain ⟨-, rfl⟩ := Arguments.unnamed_eq_ok hall
    obtain ⟨-, rfl⟩ := Arguments.unnamed_eq_ok hall'
    obtain ⟨outs, rfl, houts, hsum⟩ := Kernel.rootsAdjoint_transposes hgs hroots hdy hadjoint
    exact .list houts hsum
  | l2loss =>
    obtain ⟨x, y, rfl, rfl, hf, hf'⟩ := binary hw hout
    obtain ⟨g, hg⟩ := hreal rfl 0 x rfl (by intro h; cases h)
    obtain ⟨g', hg'⟩ := hreal rfl 1 y rfl (by intro h; cases h)
    exact .pair (Kernel.l2lossAdjoint_transposes hg hg' (h.distance rfl x y rfl g g' hg hg') hf hdy
      hf')
  | slice => exact absurd rfl hslice
  | _ => cases hb

end

end Builtin

end SlotGrad
