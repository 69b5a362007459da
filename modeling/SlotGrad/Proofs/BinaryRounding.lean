import Mathlib.Algebra.Order.Field.Power
import Mathlib.Data.Int.Log
import Mathlib.Data.Rat.Floor
import Mathlib.Tactic.FieldSimp
import Mathlib.Tactic.Linarith
import Mathlib.Tactic.NormNum
import Mathlib.Tactic.Positivity
import Mathlib.Tactic.Ring
import SlotGrad.Number.Binary

/-!
# Rounding to binary formats

The pattern nearest to a quotient is computed from the two naturals of the quotient.  Here it is
shown to depend on the rational number alone: the unit that is chosen is that of the number's
binade, and rounding looks at the quotient by the unit.  A number that a finite pattern stands
for is its own rounding.

## Main definitions

* `BinaryFormat.unitExponent` — the power of two of the unit that a rational number is counted in.

## Main results

* `roundEven_congr` — equal quotients are rounded to one integer.
* `BinaryFormat.ofRatio_eq` — the pattern nearest to a quotient, by the quotient's unit.
* `BinaryFormat.ofRatio_congr` — equal quotients have one nearest pattern.
* `BinaryFormat.ofRatio_of_decode` — a finite pattern is the one nearest to what it stands for.
-/

namespace SlotGrad

/-- Equal quotients are rounded to one integer. -/
theorem roundEven_congr {a b a' b' : Nat} (hb : 0 < b) (hb' : 0 < b')
    (h : (a : ℚ) / b = (a' : ℚ) / b') : roundEven a b = roundEven a' b' := by
  have hscale : ∀ (a : Nat) {b c : Nat}, 0 < b → 0 < c →
      roundEven (a * c) (b * c) = roundEven a b := by
    intro a b c hb hc
    have hlt : ∀ m n : Nat, m * c < n * c ↔ m < n := fun m n => Nat.mul_lt_mul_right hc
    unfold roundEven
    dsimp only
    rw [Nat.mul_div_mul_right _ _ hc, Nat.mul_mod_mul_right, ← Nat.mul_assoc]
    simp only [hlt]
  have hcross : a * b' = a' * b := by
    have hb₀ : (b : ℚ) ≠ 0 := by exact_mod_cast hb.ne'
    have hb₀' : (b' : ℚ) ≠ 0 := by exact_mod_cast hb'.ne'
    rw [div_eq_div_iff hb₀ hb₀'] at h
    exact_mod_cast h
  rw [← hscale a hb hb', hcross, Nat.mul_comm b b', hscale a' hb' hb]

/-- A whole quotient is its own rounding. -/
theorem roundEven_of_eq {a b n : Nat} (hb : 0 < b) (h : (a : ℚ) / b = n) : roundEven a b = n := by
  rw [roundEven_congr hb Nat.one_pos
    (by rw [h, Nat.cast_one, div_one] : (a : ℚ) / b = (n : ℚ) / (1 : Nat))]
  simpa using roundEven_mul n Nat.one_pos

namespace BinaryFormat

/-! ### Quotients by powers of two -/

/-- A quotient divided by a power of two. -/
theorem unscale_ratio (num : Nat) {den : Nat} (hden : 0 < den) (q : Int) :
    0 < (unscale num den q).2 ∧
      ((unscale num den q).1 : ℚ) / (unscale num den q).2 = (num : ℚ) / den / 2 ^ q := by
  unfold unscale
  split_ifs with hq
  · obtain ⟨n, rfl⟩ := Int.eq_ofNat_of_zero_le hq
    refine ⟨Nat.mul_pos hden (Nat.pow_pos Nat.two_pos), ?_⟩
    simp only [Int.toNat_natCast, Nat.pow_eq, zpow_natCast]
    push_cast
    rw [div_div]
  · obtain ⟨n, rfl⟩ : ∃ n : Nat, q = -(n : Int) := ⟨(-q).toNat, by omega⟩
    refine ⟨hden, ?_⟩
    simp only [neg_neg, Int.toNat_natCast, Nat.pow_eq, zpow_neg, zpow_natCast]
    push_cast
    field_simp

/-- The binary logarithms of two naturals bracket their quotient. -/
theorem log2_bracket {num den : Nat} (hnum : 0 < num) (hden : 0 < den) :
    (2 : ℚ) ^ ((num.log2 : Int) - den.log2 - 1) < (num : ℚ) / den ∧
      (num : ℚ) / den < (2 : ℚ) ^ ((num.log2 : Int) - den.log2 + 1) := by
  have hnum₁ : (2 : ℚ) ^ (num.log2 : Int) ≤ num := by
    exact_mod_cast Nat.log2_self_le hnum.ne'
  have hnum₂ : (num : ℚ) < 2 ^ ((num.log2 : Int) + 1) := by
    exact_mod_cast Nat.lt_log2_self (n := num)
  have hden₁ : (2 : ℚ) ^ (den.log2 : Int) ≤ den := by
    exact_mod_cast Nat.log2_self_le hden.ne'
  have hden₂ : (den : ℚ) < 2 ^ ((den.log2 : Int) + 1) := by
    exact_mod_cast Nat.lt_log2_self (n := den)
  have hpos : (0 : ℚ) < den := by exact_mod_cast hden
  have htwo : (0 : ℚ) < 2 := by norm_num
  constructor
  · rw [lt_div_iff₀ hpos]
    calc (2 : ℚ) ^ ((num.log2 : Int) - den.log2 - 1) * den
        < 2 ^ ((num.log2 : Int) - den.log2 - 1) * 2 ^ ((den.log2 : Int) + 1) := by gcongr
      _ = 2 ^ (num.log2 : Int) := by
          rw [← zpow_add₀ htwo.ne']
          ring_nf
      _ ≤ num := hnum₁
  · rw [div_lt_iff₀ hpos]
    calc (num : ℚ) < 2 ^ ((num.log2 : Int) + 1) := hnum₂
      _ = 2 ^ ((num.log2 : Int) - den.log2 + 1) * 2 ^ (den.log2 : Int) := by
          rw [← zpow_add₀ htwo.ne']
          ring_nf
      _ ≤ 2 ^ ((num.log2 : Int) - den.log2 + 1) * den := by gcongr

/-! ### The unit of a number -/

variable (fmt : BinaryFormat)

/-- The power of two of the unit that a positive number is counted in: the one that leaves one more
significant bit than there are stored fraction bits, or the least one of the format. -/
def unitExponent (r : ℚ) : Int := max (Int.log 2 r - fmt.fractionBits) fmt.minExponent

/-- The pattern nearest to a quotient, by the quotient's unit. -/
theorem ofRatio_eq {num den : Nat} (hnum : 0 < num) (hden : 0 < den) {q : Int}
    (hq : fmt.unitExponent ((num : ℚ) / den) = q) :
    fmt.ofRatio num den = min ((q - fmt.minExponent).toNat * Nat.pow 2 fmt.fractionBits
      + roundEven (unscale num den q).1 (unscale num den q).2) fmt.infinity := by
  have hr : (0 : ℚ) < (num : ℚ) / den := by positivity
  obtain ⟨hlow, hhigh⟩ := log2_bracket hnum hden
  have htwo : (0 : ℚ) < 2 := by norm_num
  have hlog₁ : (num.log2 : Int) - den.log2 - 1 ≤ Int.log 2 ((num : ℚ) / den) :=
    (Int.zpow_le_iff_le_log Nat.one_lt_two hr).mp (by exact_mod_cast hlow.le)
  have hlog₂ : Int.log 2 ((num : ℚ) / den) < (num.log2 : Int) - den.log2 + 1 :=
    (Int.lt_zpow_iff_log_lt Nat.one_lt_two hr).mp (by exact_mod_cast hhigh)
  -- The first guess at the unit is at most one binade too low.
  have hguess : (if Nat.pow 2 (fmt.fractionBits + 1) ≤
        (unscale num den (max ((num.log2 : Int) - den.log2 - 1 - fmt.fractionBits)
          fmt.minExponent)).1 /
        (unscale num den (max ((num.log2 : Int) - den.log2 - 1 - fmt.fractionBits)
          fmt.minExponent)).2
      then max ((num.log2 : Int) - den.log2 - 1 - fmt.fractionBits) fmt.minExponent + 1
      else max ((num.log2 : Int) - den.log2 - 1 - fmt.fractionBits) fmt.minExponent) = q := by
    generalize hq₀ : max ((num.log2 : Int) - den.log2 - 1 - fmt.fractionBits) fmt.minExponent = q₀
    obtain ⟨hpos, hratio⟩ := unscale_ratio num hden q₀
    have hle : Nat.pow 2 (fmt.fractionBits + 1) ≤ (unscale num den q₀).1 / (unscale num den q₀).2 ↔
        q₀ + (fmt.fractionBits + 1) ≤ Int.log 2 ((num : ℚ) / den) := by
      have hpos' : (0 : ℚ) < (unscale num den q₀).2 := by exact_mod_cast hpos
      have hunit : (0 : ℚ) < 2 ^ q₀ := zpow_pos htwo q₀
      rw [Nat.le_div_iff_mul_le hpos, ← Int.zpow_le_iff_le_log Nat.one_lt_two hr]
      have hcast : (Nat.pow 2 (fmt.fractionBits + 1) * (unscale num den q₀).2
            ≤ (unscale num den q₀).1) ↔
          (2 : ℚ) ^ (fmt.fractionBits + 1) ≤ (unscale num den q₀).1 / (unscale num den q₀).2 := by
        rw [le_div_iff₀ hpos', Nat.pow_eq]
        exact_mod_cast Iff.rfl
      rw [hcast, hratio, le_div_iff₀ hunit, Nat.cast_ofNat, zpow_add₀ htwo.ne', mul_comm,
        ← zpow_natCast]
      push_cast
      rfl
    unfold unitExponent at hq
    split_ifs with h
    · rw [hle] at h
      omega
    · rw [hle] at h
      omega
  unfold ofRatio
  rw [if_neg hnum.ne']
  dsimp only
  rw [hguess]

/-- Equal quotients have one nearest pattern. -/
theorem ofRatio_congr {num den num' den' : Nat} (hden : 0 < den) (hden' : 0 < den')
    (h : (num : ℚ) / den = (num' : ℚ) / den') : fmt.ofRatio num den = fmt.ofRatio num' den' := by
  have hden₀ : (den : ℚ) ≠ 0 := by exact_mod_cast hden.ne'
  have hden₀' : (den' : ℚ) ≠ 0 := by exact_mod_cast hden'.ne'
  rcases Nat.eq_zero_or_pos num with rfl | hnum
  · have hzero : num' = 0 := by
      rw [Nat.cast_zero, zero_div, eq_comm, div_eq_zero_iff] at h
      exact_mod_cast h.resolve_right hden₀'
    subst hzero
    rfl
  · have hnum' : 0 < num' := by
      apply Nat.pos_of_ne_zero
      rintro rfl
      rw [Nat.cast_zero, zero_div, div_eq_zero_iff] at h
      exact hnum.ne' (by exact_mod_cast h.resolve_right hden₀)
    rw [ofRatio_eq fmt hnum hden rfl, ofRatio_eq fmt hnum' hden' rfl, h]
    obtain ⟨hpos, hratio⟩ := unscale_ratio num hden (fmt.unitExponent (num' / den'))
    obtain ⟨hpos', hratio'⟩ := unscale_ratio num' hden' (fmt.unitExponent (num' / den'))
    rw [roundEven_congr hpos hpos' (by rw [hratio, hratio', h])]

/-! ### Patterns of finite numbers -/

/-- The sign and the magnitude of a pattern that stands for a number. -/
theorem decode_parts (bits : Nat) :
    (∀ negative, fmt.decode bits = .infinite negative →
        negative = (bits / fmt.signBit % 2 == 1) ∧ bits % fmt.signBit = fmt.infinity) ∧
      ∀ negative m q, fmt.decode bits = .finite negative m q →
        negative = (bits / fmt.signBit % 2 == 1) ∧ bits % fmt.signBit < fmt.infinity ∧
          ∃ sign, fmt.decode (bits % fmt.signBit) = .finite sign m q := by
  have hsign : fmt.signBit = Nat.pow 2 fmt.fractionBits * Nat.pow 2 fmt.exponentBits :=
    Nat.pow_add 2 fmt.fractionBits fmt.exponentBits
  have hexponent : bits % fmt.signBit / Nat.pow 2 fmt.fractionBits % Nat.pow 2 fmt.exponentBits
      = bits / Nat.pow 2 fmt.fractionBits % Nat.pow 2 fmt.exponentBits := by
    rw [hsign, Nat.mod_mul_right_div_self, Nat.mod_mod]
  have hfraction : bits % fmt.signBit % Nat.pow 2 fmt.fractionBits
      = bits % Nat.pow 2 fmt.fractionBits := by
    rw [hsign]
    exact Nat.mod_mod_of_dvd _ (Nat.dvd_mul_right ..)
  -- The magnitude is put together from its two fields.
  have hwhole : bits % fmt.signBit = Nat.pow 2 fmt.fractionBits
      * (bits / Nat.pow 2 fmt.fractionBits % Nat.pow 2 fmt.exponentBits)
        + bits % Nat.pow 2 fmt.fractionBits := by
    have hdiv := Nat.div_add_mod (bits % fmt.signBit) (Nat.pow 2 fmt.fractionBits)
    rw [hfraction] at hdiv
    rw [← hdiv, hsign, Nat.mod_mul_right_div_self]
  have hlt : bits / Nat.pow 2 fmt.fractionBits % Nat.pow 2 fmt.exponentBits
      < Nat.pow 2 fmt.exponentBits := Nat.mod_lt _ (Nat.pow_pos Nat.two_pos)
  have hrest : bits % Nat.pow 2 fmt.fractionBits < Nat.pow 2 fmt.fractionBits :=
    Nat.mod_lt _ (Nat.pow_pos Nat.two_pos)
  unfold decode
  dsimp only
  rw [hexponent, hfraction]
  refine ⟨fun negative h => ?_, fun negative m q h => ?_⟩
  · split_ifs at h with htop hzero hlow
    cases h
    refine ⟨rfl, ?_⟩
    rw [hwhole, htop, hzero, Nat.add_zero, Nat.mul_comm]
    rfl
  · have hbelow : bits / Nat.pow 2 fmt.fractionBits % Nat.pow 2 fmt.exponentBits
        ≠ Nat.pow 2 fmt.exponentBits - 1 → bits % fmt.signBit < fmt.infinity := by
      intro hne
      rw [hwhole]
      unfold infinity
      calc Nat.pow 2 fmt.fractionBits
            * (bits / Nat.pow 2 fmt.fractionBits % Nat.pow 2 fmt.exponentBits)
              + bits % Nat.pow 2 fmt.fractionBits
          < Nat.pow 2 fmt.fractionBits
            * (bits / Nat.pow 2 fmt.fractionBits % Nat.pow 2 fmt.exponentBits + 1) := by
              rw [Nat.mul_add, Nat.mul_one]
              exact Nat.add_lt_add_left hrest _
        _ ≤ Nat.pow 2 fmt.fractionBits * (Nat.pow 2 fmt.exponentBits - 1) :=
              Nat.mul_le_mul_left _ (by omega)
        _ = (Nat.pow 2 fmt.exponentBits - 1) * Nat.pow 2 fmt.fractionBits := Nat.mul_comm ..
    split_ifs at h with htop hzero hlow
    · cases h
      exact ⟨rfl, hbelow htop, _, by rw [if_neg htop, if_pos hlow]⟩
    · cases h
      exact ⟨rfl, hbelow htop, _, by rw [if_neg htop, if_neg hlow]⟩

/-- The fields of a pattern below that of infinity. -/
theorem decode_magnitude {n m : Nat} {negative : Bool} {q : Int} (hn : n < fmt.infinity)
    (h : fmt.decode n = .finite negative m q) :
    (n = m ∧ m < Nat.pow 2 fmt.fractionBits ∧ q = fmt.minExponent) ∨
      ∃ k : Nat, n = k * Nat.pow 2 fmt.fractionBits + m ∧ Nat.pow 2 fmt.fractionBits ≤ m ∧
        m < 2 * Nat.pow 2 fmt.fractionBits ∧ q = k + fmt.minExponent := by
  have hpos : 0 < Nat.pow 2 fmt.fractionBits := Nat.pow_pos Nat.two_pos
  have hmod := Nat.mod_lt n hpos
  have hdiv := Nat.div_add_mod n (Nat.pow 2 fmt.fractionBits)
  have hexp : n / Nat.pow 2 fmt.fractionBits < Nat.pow 2 fmt.exponentBits - 1 := by
    rw [Nat.div_lt_iff_lt_mul hpos]
    exact hn
  have hfield : n / Nat.pow 2 fmt.fractionBits % Nat.pow 2 fmt.exponentBits
      = n / Nat.pow 2 fmt.fractionBits := Nat.mod_eq_of_lt (by omega)
  unfold decode at h
  dsimp only at h
  rw [hfield, if_neg hexp.ne] at h
  split_ifs at h with hzero
  · cases h
    rw [hzero, Nat.mul_zero, Nat.zero_add] at hdiv
    exact .inl ⟨hdiv.symm, hmod, rfl⟩
  · cases h
    refine .inr ⟨n / Nat.pow 2 fmt.fractionBits - 1, ?_, by omega, by omega, by omega⟩
    have hsplit : (n / Nat.pow 2 fmt.fractionBits - 1 + 1) * Nat.pow 2 fmt.fractionBits
        = Nat.pow 2 fmt.fractionBits * (n / Nat.pow 2 fmt.fractionBits) := by
      rw [Nat.sub_add_cancel (Nat.pos_of_ne_zero hzero), Nat.mul_comm]
    rw [Nat.add_mul, Nat.one_mul] at hsplit
    omega

/-- A finite pattern is the one nearest to what it stands for. -/
theorem ofRatio_of_decode {n m a b : Nat} {negative : Bool} {q : Int} (hn : n < fmt.infinity)
    (h : fmt.decode n = .finite negative m q) (hm : 0 < m) (hb : 0 < b)
    (hr : (a : ℚ) / b = m * 2 ^ q) : fmt.ofRatio a b = n := by
  have htwo : (0 : ℚ) < 2 := by norm_num
  have hb₀ : (0 : ℚ) < b := by exact_mod_cast hb
  have hvalue : (0 : ℚ) < m * 2 ^ q := by positivity
  have ha : 0 < a := by
    apply Nat.pos_of_ne_zero
    rintro rfl
    rw [Nat.cast_zero, zero_div] at hr
    exact hvalue.ne hr
  -- The exponent is told by where the value lies between powers of two.
  have hunit : fmt.unitExponent ((a : ℚ) / b) = q := by
    unfold unitExponent
    have hbound : ∀ t : Int, (m : ℚ) < 2 ^ t → Int.log 2 ((a : ℚ) / b) < t + q := by
      intro t ht
      rw [hr, ← Int.lt_zpow_iff_log_lt Nat.one_lt_two hvalue, Nat.cast_ofNat, zpow_add₀ htwo.ne']
      gcongr
    rcases decode_magnitude fmt hn h with ⟨-, hlt, rfl⟩ | ⟨k, -, hle, hlt, rfl⟩
    · have := hbound fmt.fractionBits (by exact_mod_cast hlt)
      omega
    · have hupper := hbound (fmt.fractionBits + 1) (by
        rw [zpow_add₀ htwo.ne', zpow_one, mul_comm]
        exact_mod_cast hlt)
      have hlower : (fmt.fractionBits : Int) + (k + fmt.minExponent)
          ≤ Int.log 2 ((a : ℚ) / b) := by
        rw [hr, ← Int.zpow_le_iff_le_log Nat.one_lt_two hvalue, Nat.cast_ofNat,
          zpow_add₀ htwo.ne' (fmt.fractionBits : Int)]
        gcongr
        exact_mod_cast hle
      omega
  obtain ⟨hpos, hratio⟩ := unscale_ratio a hb q
  -- Over that unit the value is whole, so nothing is rounded.
  have hround : roundEven (unscale a b q).1 (unscale a b q).2 = m := by
    apply roundEven_of_eq hpos
    rw [hratio, hr]
    field_simp
  rw [ofRatio_eq fmt ha hb hunit, hround]
  rcases decode_magnitude fmt hn h with ⟨rfl, -, rfl⟩ | ⟨k, rfl, -, -, rfl⟩
  · rw [sub_self, Int.toNat_zero, Nat.zero_mul, Nat.zero_add, Nat.min_eq_left hn.le]
  · rw [add_sub_cancel_right, Int.toNat_natCast, Nat.min_eq_left hn.le]

end BinaryFormat

end SlotGrad
