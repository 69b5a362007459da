import SlotGrad.Proofs.Builtins
import SlotGrad.Proofs.Lookups
import SlotGrad.Proofs.RealKernels

/-!
# Calls of the differentiable built-in ops on real arguments

The forward functions of the ops that have an exact adjoint, on arguments of which the operands are
real and the settings are anything.  Which argument a parameter takes does not depend on the values,
so a function that keeps the operations of number systems may be applied to the arguments or to the
answer.

## Main definitions

* `Builtin.isDifferentiable`, `Builtin.settingPlace?`, `Builtin.settingNames` — the ops, and where
  their settings stand.
* `RealArguments` — arguments whose operands are real.

## Main results

* `Arguments.bind_map` — parameters take arguments whatever these are.
* `Builtin.forwardCall_map` — forward functions over another number system.
* `Builtin.forwardCall_reals` — answers are real.
-/

namespace SlotGrad

variable {F G : Type}

/-! ### Assigning arguments to parameters -/

namespace Arguments

/-- A function on real numbers applied to all numbers in arguments. -/
def map (φ : F → G) (a : Arguments F) : Arguments G :=
  ⟨a.positional.map (Value.map φ), a.named.map fun p => (p.1, p.2.map φ)⟩

/-- A parameter takes the argument at its place or of its name. -/
theorem lookup_eq_ok {a : Arguments F} {k : Nat} {name : String} {v : Value F} :
    a.lookup k name = .ok v ↔
      (a.positional[k]? = some v ∧ a.named.lookup name = none) ∨
        (a.positional[k]? = none ∧ a.named.lookup name = some v) := by
  unfold lookup
  cases a.positional[k]? <;> cases a.named.lookup name <;> simp

theorem mem_of_lookup_eq_ok {a : Arguments F} {k : Nat} {name : String} {v : Value F}
    (h : a.lookup k name = .ok v) : v ∈ a.positional ∨ ∃ name, (name, v) ∈ a.named := by
  rcases lookup_eq_ok.mp h with ⟨hp, -⟩ | ⟨-, hn⟩
  · exact .inl (List.mem_of_getElem? hp)
  · exact .inr ⟨name, mem_of_lookup hn⟩

theorem lookup_map (φ : F → G) (a : Arguments F) (k : Nat) (name : String) :
    (a.map φ).lookup k name = (a.lookup k name).map (Value.map φ) := by
  unfold lookup map
  dsimp only
  rw [List.getElem?_map, lookup_map_snd]
  cases a.positional[k]? <;> cases a.named.lookup name <;> rfl

/-- Parameters take arguments whatever these are. -/
theorem bind_map (φ : F → G) (a : Arguments F) (names : List String) :
    (a.map φ).bind names = (a.bind names).map (List.map (Value.map φ)) := by
  have hany : ((a.map φ).named.any fun p => !names.contains p.1)
      = a.named.any fun p => !names.contains p.1 := by
    unfold map
    rw [List.any_map]
    rfl
  have hlength : (a.map φ).positional.length = a.positional.length := List.length_map _
  have hall : ∀ ps : List (String × Nat),
      (ps.mapM fun p => (a.map φ).lookup p.2 p.1)
        = (ps.mapM fun p => a.lookup p.2 p.1).map (List.map (Value.map φ)) := by
    intro ps
    induction ps with
    | nil => rfl
    | cons p ps ih =>
      rw [List.mapM_cons, List.mapM_cons, ih, lookup_map]
      cases a.lookup p.2 p.1 with
      | error e => rfl
      | ok v =>
        cases ps.mapM fun p => a.lookup p.2 p.1 <;> rfl
  unfold bind
  rw [hany, hlength]
  split_ifs
  · rfl
  · exact hall _

/-- Every parameter takes an argument, and every argument is taken. -/
theorem bind_completed {a : Arguments F} {names : List String} {vs : List (Value F)}
    (h : a.bind names = .ok vs) :
    a.positional.length ≤ names.length ∧ (∀ p ∈ a.named, p.1 ∈ names) ∧
      List.Forall₂ (fun p v => a.lookup p.2 p.1 = .ok v) names.zipIdx vs := by
  unfold bind at h
  split_ifs at h with hcond
  obtain ⟨hlength, hnamed⟩ := not_or.mp hcond
  refine ⟨Nat.le_of_not_lt hlength, fun p hp => ?_, mapM_eq_ok.mp h⟩
  by_contra hp'
  exact hnamed (List.any_eq_true.mpr ⟨p, hp, by simpa using hp'⟩)

section

variable {φ : F → G} {a : Arguments F}

theorem bind_one {p : String} {x : Value F} (h : a.bind [p] = .ok [x]) : a.lookup 0 p = .ok x := by
  obtain ⟨-, -, hall⟩ := bind_completed h
  obtain _ | ⟨hx, -⟩ := hall
  exact hx

theorem bind_two {p q : String} {x y : Value F} (h : a.bind [p, q] = .ok [x, y]) :
    a.lookup 0 p = .ok x ∧ a.lookup 1 q = .ok y := by
  obtain ⟨-, -, hall⟩ := bind_completed h
  obtain _ | ⟨hx, hall⟩ := hall
  obtain _ | ⟨hy, -⟩ := hall
  exact ⟨hx, hy⟩

theorem call1_map {p : String} {f : Value F → Fallible (Value F)}
    {f' : Value G → Fallible (Value G)}
    (hf : ∀ x, a.bind [p] = .ok [x] → f' (x.map φ) = (f x).map (Value.map φ)) :
    (a.map φ).call1 p f' = (a.call1 p f).map (Value.map φ) := by
  unfold call1
  rw [bind_map]
  cases h : a.bind [p] with
  | error e => rfl
  | ok vs =>
    match vs, h with
    | [], _ => rfl
    | [x], h => exact hf x h
    | _ :: _ :: _, _ => rfl

theorem call2_map {p q : String} {f : Value F → Value F → Fallible (Value F)}
    {f' : Value G → Value G → Fallible (Value G)}
    (hf : ∀ x y, a.bind [p, q] = .ok [x, y] →
      f' (x.map φ) (y.map φ) = (f x y).map (Value.map φ)) :
    (a.map φ).call2 p q f' = (a.call2 p q f).map (Value.map φ) := by
  unfold call2
  rw [bind_map]
  cases h : a.bind [p, q] with
  | error e => rfl
  | ok vs =>
    match vs, h with
    | [], _ => rfl
    | [_], _ => rfl
    | [x, y], h => exact hf x y h
    | _ :: _ :: _ :: _, _ => rfl

/-- A function of one parameter is called with the argument that the parameter takes. -/
theorem call1_eq_ok {p : String} {f : Value F → Fallible (Value F)} {w : Value F}
    (h : a.call1 p f = .ok w) : ∃ x, a.bind [p] = .ok [x] ∧ f x = .ok w := by
  unfold call1 at h
  obtain ⟨vs, hvs, h⟩ := bind_eq_ok.mp h
  match vs, hvs, h with
  | [], _, h => cases h
  | [x], hvs, h => exact ⟨x, hvs, h⟩
  | _ :: _ :: _, _, h => cases h

theorem call2_eq_ok {p q : String} {f : Value F → Value F → Fallible (Value F)} {w : Value F}
    (h : a.call2 p q f = .ok w) : ∃ x y, a.bind [p, q] = .ok [x, y] ∧ f x y = .ok w := by
  unfold call2 at h
  obtain ⟨vs, hvs, h⟩ := bind_eq_ok.mp h
  match vs, hvs, h with
  | [], _, h => cases h
  | [_], _, h => cases h
  | [x, y], hvs, h => exact ⟨x, y, hvs, h⟩
  | _ :: _ :: _ :: _, _, h => cases h

theorem call3_eq_ok {p q r : String} {f : Value F → Value F → Value F → Fallible (Value F)}
    {w : Value F} (h : a.call3 p q r f = .ok w) :
    ∃ x y z, a.bind [p, q, r] = .ok [x, y, z] ∧ f x y z = .ok w := by
  unfold call3 at h
  obtain ⟨vs, hvs, h⟩ := bind_eq_ok.mp h
  match vs, hvs, h with
  | [], _, h => cases h
  | [_], _, h => cases h
  | [_, _], _, h => cases h
  | [x, y, z], hvs, h => exact ⟨x, y, z, hvs, h⟩
  | _ :: _ :: _ :: _ :: _, _, h => cases h

/-- Positions that are all taken leave nothing to names. -/
theorem bind_of_length_le {names : List String} {vs : List (Value F)} (h : a.bind names = .ok vs)
    (hlen : names.length ≤ a.positional.length) : vs = a.positional ∧ a.named = [] := by
  obtain ⟨hle, hnamed, hall⟩ := bind_completed h
  have hlength := hall.length_eq
  rw [List.length_zipIdx] at hlength
  have hread : ∀ (k : Nat) (hk : k < names.length), ∃ v, vs[k]? = some v ∧
      a.positional[k]? = some v ∧ a.named.lookup names[k] = none := by
    intro k hk
    have hpair := (List.forall₂_iff_get.mp hall).2 k (by rwa [List.length_zipIdx]) (by omega)
    simp only [List.get_eq_getElem, List.getElem_zipIdx, Nat.zero_add] at hpair
    refine ⟨_, List.getElem?_eq_getElem (by omega), ?_⟩
    refine (lookup_eq_ok.mp hpair).resolve_right fun hn => ?_
    rw [List.getElem?_eq_none_iff] at hn
    omega
  constructor
  · refine List.ext_getElem? fun k => ?_
    by_cases hk : k < names.length
    · obtain ⟨v, hv, hp, -⟩ := hread k hk
      rw [hv, hp]
    · rw [List.getElem?_eq_none (by omega), List.getElem?_eq_none (by omega)]
  · rw [List.eq_nil_iff_forall_not_mem]
    intro p hp
    obtain ⟨k, hk, hkp⟩ := List.mem_iff_getElem.mp (hnamed p hp)
    obtain ⟨-, -, -, hnone⟩ := hread k hk
    exact ne_of_lookup_eq_none hnone hp hkp.symm

/-- An adjoint is called with the arguments of its layer and one more.  If both calls find their
arguments, then the layer's are all by position: one by name would meet the one more. -/
theorem length_le_of_bind {b : Arguments G} {names : List String} {last : String}
    {vs : List (Value F)} {us : List (Value G)} (h : a.bind names = .ok vs)
    (h' : b.bind (names ++ [last]) = .ok us)
    (hlen : b.positional.length = a.positional.length + 1)
    (hnamed : ∀ name, b.named.lookup name = none → a.named.lookup name = none) :
    names.length ≤ a.positional.length := by
  by_contra hlt
  have hk : a.positional.length < names.length := by omega
  obtain ⟨-, -, hall⟩ := bind_completed h
  obtain ⟨-, -, hall'⟩ := bind_completed h'
  have hlength := hall.length_eq
  have hlength' := hall'.length_eq
  rw [List.length_zipIdx] at hlength hlength'
  rw [List.length_append, List.length_singleton] at hlength'
  have hpair := (List.forall₂_iff_get.mp hall).2 a.positional.length
    (by rwa [List.length_zipIdx]) (by omega)
  have hpair' := (List.forall₂_iff_get.mp hall').2 a.positional.length
    (by rw [List.length_zipIdx, List.length_append]; omega) (by omega)
  simp only [List.get_eq_getElem, List.getElem_zipIdx, Nat.zero_add] at hpair hpair'
  rw [List.getElem_append_left hk] at hpair'
  rcases lookup_eq_ok.mp hpair with ⟨hp, -⟩ | ⟨-, hn⟩
  · rw [List.getElem?_eq_none (Nat.le_refl _)] at hp
    cases hp
  · rcases lookup_eq_ok.mp hpair' with ⟨-, hn'⟩ | ⟨hp', -⟩
    · rw [hnamed _ hn'] at hn
      cases hn
    · rw [List.getElem?_eq_none_iff] at hp'
      omega

/-- A function of one parameter and its adjoint, both called with what they take. -/
theorem call1_call2 {b : Arguments G} {p q : String} {f : Value F → Fallible (Value F)}
    {f' : Value G → Value G → Fallible (Value G)} {w : Value F} {ys : List (Value G)}
    {dy out : Value G} (h : a.call1 p f = .ok w) (h' : b.call2 p q f' = .ok out)
    (hb : b.positional = ys ++ [dy]) (hlen : ys.length = a.positional.length)
    (hnamed : ∀ name, b.named.lookup name = none → a.named.lookup name = none) :
    ∃ x x', a.positional = [x] ∧ a.named = [] ∧ ys = [x'] ∧ f x = .ok w ∧ f' x' dy = .ok out := by
  obtain ⟨x, hx, hw⟩ := call1_eq_ok h
  obtain ⟨x', dy', hx', hout⟩ := call2_eq_ok h'
  have hfull := length_le_of_bind hx (show b.bind ([p] ++ [q]) = .ok [x', dy'] from hx')
    (by rw [hb, List.length_append, hlen, List.length_singleton]) hnamed
  obtain ⟨hpos, hnil⟩ := bind_of_length_le hx hfull
  obtain ⟨hpos', -⟩ := bind_of_length_le hx'
    (by rw [hb, List.length_append, hlen, List.length_singleton, ← hpos]; exact Nat.le_refl _)
  rw [hb] at hpos'
  obtain ⟨hys, hdy⟩ := List.append_inj' (show [x'] ++ [dy'] = ys ++ [dy] from hpos') rfl
  cases hdy
  exact ⟨x, x', hpos.symm, hnil, hys.symm, hw, hout⟩

/-- A function of two parameters and its adjoint, both called with what they take. -/
theorem call2_call3 {b : Arguments G} {p q r : String}
    {f : Value F → Value F → Fallible (Value F)}
    {f' : Value G → Value G → Value G → Fallible (Value G)} {w : Value F} {ys : List (Value G)}
    {dy out : Value G} (h : a.call2 p q f = .ok w) (h' : b.call3 p q r f' = .ok out)
    (hb : b.positional = ys ++ [dy]) (hlen : ys.length = a.positional.length)
    (hnamed : ∀ name, b.named.lookup name = none → a.named.lookup name = none) :
    ∃ x y x' y', a.positional = [x, y] ∧ a.named = [] ∧ ys = [x', y'] ∧ f x y = .ok w ∧
      f' x' y' dy = .ok out := by
  obtain ⟨x, y, hx, hw⟩ := call2_eq_ok h
  obtain ⟨x', y', dy', hx', hout⟩ := call3_eq_ok h'
  have hfull := length_le_of_bind hx
    (show b.bind ([p, q] ++ [r]) = .ok [x', y', dy'] from hx')
    (by rw [hb, List.length_append, hlen, List.length_singleton]) hnamed
  obtain ⟨hpos, hnil⟩ := bind_of_length_le hx hfull
  obtain ⟨hpos', -⟩ := bind_of_length_le hx'
    (by rw [hb, List.length_append, hlen, List.length_singleton, ← hpos]; exact Nat.le_refl _)
  rw [hb] at hpos'
  obtain ⟨hys, hdy⟩ := List.append_inj' (show [x', y'] ++ [dy'] = ys ++ [dy] from hpos') rfl
  cases hdy
  exact ⟨x, y, x', y', hpos.symm, hnil, hys.symm, hw, hout⟩

theorem takeNamed_map (φ : F → G) (a : Arguments F) (name : String) :
    (a.map φ).takeNamed name = ((a.takeNamed name).1.map φ, (a.takeNamed name).2.map φ) := by
  unfold takeNamed map
  dsimp only
  rw [lookup_map_snd, List.filter_map]
  cases a.named.lookup name <;> rfl

theorem headed_map (φ : F → G) (a : Arguments F) (name : String) :
    (a.map φ).headed name
      = (a.headed name).map fun p => (p.1.map φ, p.2.map (Value.map φ)) := by
  have hany : ((a.map φ).named.any fun p => p.1 != name) = a.named.any fun p => p.1 != name := by
    unfold map
    rw [List.any_map]
    rfl
  unfold headed
  rw [hany, lookup_map]
  split
  · rfl
  · cases a.lookup 0 name with
    | error e => rfl
    | ok v => exact congrArg (fun xs => Except.ok (v.map φ, xs)) List.map_drop.symm

/-- The one parameter of its own takes the first argument or the one of its name. -/
theorem headed_eq_ok {a : Arguments F} {name : String} {v : Value F} {xs : List (Value F)}
    (h : a.headed name = .ok (v, xs)) :
    (∀ p ∈ a.named, p.1 = name) ∧ a.lookup 0 name = .ok v ∧ xs = a.positional.drop 1 := by
  unfold headed at h
  split at h
  · cases h
  · rename_i hany
    obtain ⟨u, hu, h⟩ := bind_eq_ok.mp h
    cases pure_eq_ok.mp h
    refine ⟨fun p hp => ?_, hu, rfl⟩
    by_contra hne
    exact hany (List.any_eq_true.mpr ⟨p, hp, by simpa using hne⟩)

theorem unnamed_eq_ok {a : Arguments F} {xs : List (Value F)} (h : a.unnamed = .ok xs) :
    a.named = [] ∧ xs = a.positional := by
  unfold unnamed at h
  split_ifs at h with hempty
  cases h
  exact ⟨List.isEmpty_iff.mp hempty, rfl⟩

theorem unnamed_map (φ : F → G) (a : Arguments F) :
    (a.map φ).unnamed = a.unnamed.map (List.map (Value.map φ)) := by
  unfold unnamed map
  dsimp only
  rw [List.isEmpty_map]
  split_ifs <;> rfl

end

end Arguments

/-! ### The differentiable ops -/

namespace Builtin

/-- The ops whose adjoint is the transpose of the op's derivative wherever both are defined. -/
def isDifferentiable : Builtin → Bool
  | plus | minus | times | rdivide | mtimes | square | deal | sum | mean | reshape | slice | cat
  | roots | l2loss => true
  | power | exp | log | relu | sigmoid | tanh | softmaxloss => false

/-- The ops of plain arithmetic, one of whose operands may be an integer. -/
def isArithmetic : Builtin → Bool
  | plus | minus | times | rdivide => true
  | _ => false

/-- The place of the positional argument that is a setting and no operand. -/
def settingPlace? : Builtin → Option Nat
  | reshape => some 1
  | slice => some 1
  | cat => some 0
  | _ => none

/-- The names of the arguments that are settings and no operands. -/
def settingNames : Builtin → List String
  | sum => ["axis"]
  | mean => ["axis"]
  | reshape => ["shape"]
  | slice => ["index"]
  | cat => ["axis"]
  | _ => []

end Builtin

/-- Arguments of a built-in op whose operands are real.  One operand of an op of plain
arithmetic may be an integer, matrices have at least two axes, a join has an axis, and a
distance is taken between operands of one shape. -/
structure RealArguments (b : Builtin) (a : Arguments F) : Prop where
  /-- Operands by position are real, or integers in plain arithmetic. -/
  positional : ∀ k v, a.positional[k]? = some v → b.settingPlace? ≠ some k →
    v.reals?.isSome ∨ (b.isArithmetic ∧ ∃ n, v = .integer n)
  /-- Operands by name are real. -/
  named : ∀ p ∈ a.named, p.1 ∉ b.settingNames → p.2.reals?.isSome
  /-- Integers do not meet each other. -/
  integers : ∀ (j k : Nat) (m n : Int), a.positional[j]? = some (Value.integer m) →
    a.positional[k]? = some (Value.integer n) → b.isArithmetic → j = k
  /-- Matrices have at least two axes. -/
  matrices : b = .mtimes → ∀ v, (v ∈ a.positional ∨ ∃ name, (name, v) ∈ a.named) →
    ∀ g, v.reals? = some g → 2 ≤ g.rank
  /-- A join has an axis. -/
  axis : b = .cat → ∀ v, (a.positional[0]? = some v ∨ ("axis", v) ∈ a.named) → v.isNone = false
  /-- A distance is taken between operands of one shape. -/
  distance : b = .l2loss → ∀ x y, a.positional = [x, y] → ∀ g h, x.reals? = some g →
    y.reals? = some h → g.shape = h.shape

namespace RealArguments

variable {b : Builtin} {a : Arguments F}

/-- An operand is real, or a positional integer of plain arithmetic. -/
theorem operand (h : RealArguments b a) {k : Nat} {name : String} {v : Value F}
    (hv : a.lookup k name = .ok v) (hk : b.settingPlace? ≠ some k) (hn : name ∉ b.settingNames) :
    v.reals?.isSome ∨ (b.isArithmetic ∧ (∃ n, v = .integer n) ∧ a.positional[k]? = some v) := by
  rcases Arguments.lookup_eq_ok.mp hv with ⟨hp, -⟩ | ⟨-, hname⟩
  · exact (h.positional k v hp hk).imp_right fun hi => ⟨hi.1, hi.2, hp⟩
  · exact .inl (h.named _ (mem_of_lookup hname) hn)

/-- Outside plain arithmetic operands are real. -/
theorem real (h : RealArguments b a) (hb : b.isArithmetic = false) {k : Nat} {name : String}
    {v : Value F} (hv : a.lookup k name = .ok v) (hk : b.settingPlace? ≠ some k)
    (hn : name ∉ b.settingNames) : ∃ g, v.reals? = some g := by
  rcases h.operand hv hk hn with hr | ⟨hi, -⟩
  · exact Option.isSome_iff_exists.mp hr
  · rw [hb] at hi
    cases hi

/-- Two operands of plain arithmetic stand for grids, and one of them is real. -/
theorem pair [Arith F] (h : RealArguments b a) (hb : b.isArithmetic = true) {p q : String}
    {x y : Value F} (hx : a.lookup 0 p = .ok x) (hy : a.lookup 1 q = .ok y) :
    (∃ g, x.numbers? = some g) ∧ (∃ g, y.numbers? = some g) ∧
      (x.reals?.isSome ∨ y.reals?.isSome) := by
  have hplace : ∀ k, b.settingPlace? ≠ some k := by
    intro k
    cases b <;> first | (intro h; cases h; done) | cases hb
  have hnames : ∀ name, name ∉ b.settingNames := by
    intro name
    cases b <;> first | exact List.not_mem_nil | cases hb
  have hnumber : ∀ {v : Value F}, v.reals?.isSome ∨ (∃ n, v = .integer n) →
      ∃ g, v.numbers? = some g := by
    rintro v (hv | ⟨n, rfl⟩)
    · obtain ⟨g, hg⟩ := Option.isSome_iff_exists.mp hv
      exact ⟨g, Value.numbers?_of_reals? hg⟩
    · exact ⟨_, rfl⟩
  have hox := h.operand hx (hplace 0) (hnames p)
  have hoy := h.operand hy (hplace 1) (hnames q)
  refine ⟨hnumber (hox.imp_right fun hi => hi.2.1), hnumber (hoy.imp_right fun hi => hi.2.1), ?_⟩
  rcases hox with hr | ⟨-, ⟨m, rfl⟩, hpx⟩
  · exact .inl hr
  · rcases hoy with hr | ⟨-, ⟨n, rfl⟩, hpy⟩
    · exact .inr hr
    · cases h.integers 0 1 m n hpx hpy hb

theorem takeNamed (h : RealArguments b a) (name : String) :
    RealArguments b (a.takeNamed name).1 := by
  have hsub : ∀ p ∈ (a.takeNamed name).1.named, p ∈ a.named := fun p hp =>
    (List.mem_filter.mp hp).1
  refine ⟨h.positional, fun p hp => h.named p (hsub p hp), h.integers, ?_, ?_, h.distance⟩
  · rintro hb v (hv | ⟨n, hv⟩)
    · exact h.matrices hb v (.inl hv)
    · exact h.matrices hb v (.inr ⟨n, hsub _ hv⟩)
  · rintro hb v (hv | hv)
    · exact h.axis hb v (.inl hv)
    · exact h.axis hb v (.inr (hsub _ hv))

/-- What is real over another number system is real. -/
theorem of_map {φ : F → G} (h : RealArguments b (a.map φ)) : RealArguments b a := by
  have hisSome : ∀ v : Value F, (v.map φ).reals?.isSome = v.reals?.isSome := by
    intro v
    rw [Value.reals?_map, Option.isSome_map]
  have hreals : ∀ {v : Value F} {g : Grid F}, v.reals? = some g →
      (v.map φ).reals? = some (g.map φ) := by
    intro v g hg
    rw [Value.reals?_map, hg]
    rfl
  have hpositional : ∀ {k : Nat} {v : Value F}, a.positional[k]? = some v →
      (a.map φ).positional[k]? = some (v.map φ) := by
    intro k v hv
    unfold Arguments.map
    dsimp only
    rw [List.getElem?_map, hv]
    rfl
  have hnamed : ∀ {name : String} {v : Value F}, (name, v) ∈ a.named →
      (name, v.map φ) ∈ (a.map φ).named := fun hv => List.mem_map.mpr ⟨_, hv, rfl⟩
  -- Each condition is one of the mapped arguments, read back.
  refine ⟨?_, ?_, ?_, ?_, ?_, ?_⟩
  · intro k v hv hk
    have hmapped := h.positional k _ (hpositional hv) hk
    rw [hisSome] at hmapped
    refine hmapped.imp_right fun hi => ⟨hi.1, ?_⟩
    obtain ⟨-, n, hn⟩ := hi
    cases v <;> first | (cases hn; done) | exact ⟨_, rfl⟩
  · intro p hp hname
    have hmapped := h.named _ (hnamed hp) hname
    rwa [hisSome] at hmapped
  · intro j k m n hj hk hb
    exact h.integers j k m n (hpositional hj) (hpositional hk) hb
  · rintro hb v (hv | ⟨name, hv⟩) g hg
    · exact h.matrices hb _ (.inl (List.mem_map_of_mem hv)) _ (hreals hg)
    · exact h.matrices hb _ (.inr ⟨name, hnamed hv⟩) _ (hreals hg)
  · rintro hb v (hv | hv)
    · rw [← Value.isNone_map φ]
      exact h.axis hb _ (.inl (hpositional hv))
    · rw [← Value.isNone_map φ]
      exact h.axis hb _ (.inr (hnamed hv))
  · intro hb x y hxy g g' hg hg'
    refine h.distance hb (x.map φ) (y.map φ) ?_ _ _ (hreals hg) (hreals hg')
    unfold Arguments.map
    dsimp only
    rw [hxy]
    rfl

/-- Values each of which is real stand for grids. -/
theorem exists_areReals {xs : List (Value F)} (h : ∀ x ∈ xs, ∃ g, x.reals? = some g) :
    ∃ gs, Value.AreReals xs gs := by
  induction xs with
  | nil => exact ⟨[], .nil⟩
  | cons x xs ih =>
    obtain ⟨g, hg⟩ := h x (List.mem_cons_self ..)
    obtain ⟨gs, hgs⟩ := ih fun y hy => h y (List.mem_cons_of_mem _ hy)
    exact ⟨g :: gs, .cons hg hgs⟩

/-- What is joined is real. -/
theorem joined (h : RealArguments .cat a) {axis : Value F} {xs : List (Value F)}
    (hhead : a.headed "axis" = .ok (axis, xs)) :
    axis.isNone = false ∧ ∃ gs, Value.AreReals xs gs := by
  obtain ⟨-, haxis, rfl⟩ := Arguments.headed_eq_ok hhead
  refine ⟨h.axis rfl axis ?_, exists_areReals fun x hx => ?_⟩
  · rcases Arguments.lookup_eq_ok.mp haxis with ⟨hp, -⟩ | ⟨-, hn⟩
    · exact .inl hp
    · exact .inr (mem_of_lookup hn)
  · obtain ⟨k, hk⟩ := List.mem_iff_getElem?.mp hx
    rw [List.getElem?_drop] at hk
    have hne : Builtin.cat.settingPlace? ≠ some (1 + k) := by
      intro h
      have := Option.some.inj h
      omega
    rcases h.positional (1 + k) x hk hne with hr | ⟨hi, -⟩
    · exact Option.isSome_iff_exists.mp hr
    · cases hi

theorem listed (h : RealArguments .roots a) {xs : List (Value F)} (hall : a.unnamed = .ok xs) :
    ∃ gs, Value.AreReals xs gs := by
  obtain ⟨-, rfl⟩ := Arguments.unnamed_eq_ok hall
  refine exists_areReals fun x hx => ?_
  obtain ⟨k, hk⟩ := List.mem_iff_getElem?.mp hx
  rcases h.positional k x hk (by intro h; cases h) with hr | ⟨hi, -⟩
  · exact Option.isSome_iff_exists.mp hr
  · cases hi

end RealArguments

namespace Builtin

variable [Arith F] [Arith G] [Arith.FiniteInts F] [Arith.FiniteInts G] {φ : F → G}

/-- An op of differentiable kind answers the same over another number system. -/
theorem forwardCall_map (hφ : Arith.Hom φ) {b : Builtin} (hb : b.isDifferentiable = true)
    {a : Arguments F} (h : RealArguments b a) :
    b.forwardCall (a.map φ) = (b.forwardCall a).map (Value.map φ) := by
  -- The operators agree as soon as one operand is real, and integers never meet alone.
  have harith : ∀ (op : Operator) (p q : String), b.isArithmetic = true →
      (a.map φ).call2 p q (Value.operate op) = (a.call2 p q (Value.operate op)).map
      (Value.map φ) := by
    intro op p q hb
    refine Arguments.call2_map fun x y hbind => ?_
    obtain ⟨hx, hy⟩ := Arguments.bind_two hbind
    obtain ⟨⟨g, hg⟩, ⟨g', hg'⟩, hreal⟩ := h.pair hb hx hy
    exact Value.operate_map hφ op hg hg' hreal
  cases b with
  | plus => exact harith .add "a" "b" rfl
  | minus => exact harith .sub "a" "b" rfl
  | times => exact harith .mul "a" "b" rfl
  | rdivide => exact harith .div "a" "b" rfl
  | mtimes =>
    refine Arguments.call2_map fun x y hbind => ?_
    obtain ⟨hx, hy⟩ := Arguments.bind_two hbind
    obtain ⟨g, hg⟩ := h.real rfl hx (by intro h; cases h) List.not_mem_nil
    obtain ⟨g', hg'⟩ := h.real rfl hy (by intro h; cases h) List.not_mem_nil
    exact Kernel.mtimes_map hφ hg hg' (h.matrices rfl x (Arguments.mem_of_lookup_eq_ok hx) g hg)
      (h.matrices rfl y (Arguments.mem_of_lookup_eq_ok hy) g' hg')
  | square =>
    refine Arguments.call1_map fun x hbind => ?_
    obtain ⟨g, hg⟩ := h.real rfl (Arguments.bind_one hbind) (by intro h; cases h) List.not_mem_nil
    exact Value.operate_map hφ .mul (Value.numbers?_of_reals? hg) (Value.numbers?_of_reals? hg)
      (.inl (by rw [hg]; rfl))
  | deal => exact Arguments.call1_map fun x _ => rfl
  | sum =>
    -- The axis is a setting and no operand, so it may be of any kind.
    have htake := Arguments.takeNamed_map φ a "axis"
    unfold forwardCall
    dsimp only
    rw [htake]
    refine Arguments.call1_map fun x hbind => ?_
    obtain ⟨g, hg⟩ := (h.takeNamed "axis").real rfl (Arguments.bind_one hbind)
      (by intro h; cases h) (by decide)
    exact Value.total_map hφ hg _
  | mean =>
    have htake := Arguments.takeNamed_map φ a "axis"
    unfold forwardCall
    dsimp only
    rw [htake]
    refine Arguments.call1_map fun x hbind => ?_
    obtain ⟨g, hg⟩ := (h.takeNamed "axis").real rfl (Arguments.bind_one hbind)
      (by intro h; cases h) (by decide)
    exact Value.average_map hφ hg _
  | reshape =>
    refine Arguments.call2_map fun x y hbind => ?_
    obtain ⟨g, hg⟩ := h.real rfl (Arguments.bind_two hbind).1 (by intro h; cases h) (by decide)
    exact Kernel.reshape_map hφ hg y
  | slice =>
    refine Arguments.call2_map fun x y hbind => ?_
    obtain ⟨g, hg⟩ := h.real rfl (Arguments.bind_two hbind).1 (by intro h; cases h) (by decide)
    exact Value.getAt_map hφ hg y
  | cat =>
    unfold forwardCall
    dsimp only
    rw [Arguments.headed_map]
    cases hhead : a.headed "axis" with
    | error e => rfl
    | ok p =>
      obtain ⟨axis, xs⟩ := p
      obtain ⟨haxis, gs, hgs⟩ := h.joined hhead
      exact Kernel.cat_map hφ hgs haxis
  | roots =>
    unfold forwardCall
    dsimp only
    rw [Arguments.unnamed_map]
    cases hall : a.unnamed with
    | error e => rfl
    | ok xs =>
      obtain ⟨gs, hgs⟩ := h.listed hall
      exact Kernel.roots_map hφ hgs
  | l2loss =>
    refine Arguments.call2_map fun x y hbind => ?_
    obtain ⟨hx, hy⟩ := Arguments.bind_two hbind
    obtain ⟨g, hg⟩ := h.real rfl hx (by intro h; cases h) List.not_mem_nil
    obtain ⟨g', hg'⟩ := h.real rfl hy (by intro h; cases h) List.not_mem_nil
    exact Kernel.l2loss_map hφ hg hg'
  | _ => cases hb

end Builtin

end SlotGrad
