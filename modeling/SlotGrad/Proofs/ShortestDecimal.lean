import SlotGrad.Number.Decimal
import SlotGrad.Proofs.BinaryRounding

/-!
# The shortest decimal reads back

The shortest decimal of a finite double is searched for among the neighbours of the double with
one, two and more significant digits, up to a fixed number.  With the last of these numbers of
digits every double is a decimal itself, so the search always finds one, and what it finds
rounds to the double.

Which pattern a decimal rounds to depends on its value alone, so zeros at the end of its digits
do not count.

## Main definitions

* `Decimal.value` — the rational number of a decimal.

## Main results

* `Decimal.toBits_congr` — decimals of one value round to one pattern.
* `Decimal.shortest_toBits` — the shortest decimal of a double rounds to it.
-/

namespace SlotGrad

/-! ### Numbers of digits -/

theorem decimalLength_pos (n : Nat) : 0 < decimalLength n := Nat.length_toDigits_pos

theorem lt_pow_decimalLength (n : Nat) : n < 10 ^ decimalLength n :=
  (Nat.length_toDigits_le_iff (by decide) (decimalLength_pos n)).mp (Nat.le_refl _)

theorem pow_decimalLength_le {n : Nat} (hn : 0 < n) : 10 ^ (decimalLength n - 1) ≤ n := by
  rcases Nat.eq_zero_or_pos (decimalLength n - 1) with h | h
  · rw [h]
    exact hn
  · apply Nat.le_of_not_lt
    intro hlt
    have hle := (Nat.length_toDigits_le_iff (by decide) h).mpr hlt
    unfold decimalLength at hle h
    omega

namespace Decimal

/-! ### Values -/

/-- The rational number of a decimal. -/
def value (d : Decimal) : ℚ := d.digits * 10 ^ d.exponent

theorem value_pos {d : Decimal} (hd : 0 < d.digits) : 0 < d.value := by
  unfold value
  positivity

theorem value_eq_zero {d : Decimal} : d.value = 0 ↔ d.digits = 0 := by
  unfold value
  simp [zpow_ne_zero]

/-- A decimal as a quotient of naturals. -/
theorem ratio_eq (d : Decimal) : 0 < d.ratio.2 ∧ (d.ratio.1 : ℚ) / d.ratio.2 = d.value := by
  obtain ⟨n, e⟩ := d
  unfold ratio value
  dsimp only
  split_ifs with he
  · obtain ⟨k, rfl⟩ := Int.eq_ofNat_of_zero_le he
    simp
  · obtain ⟨k, rfl⟩ : ∃ k : Nat, e = -(k : Int) := ⟨(-e).toNat, by omega⟩
    refine ⟨Nat.pow_pos (by decide), ?_⟩
    simp [zpow_neg, div_eq_mul_inv]

/-- The power of ten above a decimal's first digit depends on the decimal's value. -/
theorem top_eq {d : Decimal} (hd : 0 < d.digits) :
    d.exponent + decimalLength d.digits = Int.log 10 d.value + 1 := by
  have hten : (0 : ℚ) < 10 := by norm_num
  have hvalue := value_pos hd
  have hlow : (decimalLength d.digits - 1 : Nat) + d.exponent ≤ Int.log 10 d.value := by
    rw [← Int.zpow_le_iff_le_log (by decide) hvalue, Nat.cast_ofNat, zpow_add₀ hten.ne', value]
    gcongr
    exact_mod_cast pow_decimalLength_le hd
  have hhigh : Int.log 10 d.value < decimalLength d.digits + d.exponent := by
    rw [← Int.lt_zpow_iff_log_lt (by decide) hvalue, Nat.cast_ofNat, zpow_add₀ hten.ne', value]
    gcongr
    exact_mod_cast lt_pow_decimalLength d.digits
  have := decimalLength_pos d.digits
  omega

/-- Decimals of one value round to one pattern. -/
theorem toBits_congr (fmt : BinaryFormat) {d d' : Decimal} (h : d.value = d'.value) :
    d.toBits fmt = d'.toBits fmt := by
  have hzero : d.digits = 0 ↔ d'.digits = 0 := by rw [← value_eq_zero, h, value_eq_zero]
  unfold toBits
  dsimp only
  by_cases hd : d.digits = 0
  · rw [if_pos hd, if_pos (hzero.mp hd)]
  · have hd' : ¬ d'.digits = 0 := fun h => hd (hzero.mpr h)
    obtain ⟨hpos, hratio⟩ := ratio_eq d
    obtain ⟨hpos', hratio'⟩ := ratio_eq d'
    rw [if_neg hd, if_neg hd', top_eq (Nat.pos_of_ne_zero hd), top_eq (Nat.pos_of_ne_zero hd'), h,
      BinaryFormat.ofRatio_congr fmt hpos hpos' (by rw [hratio, hratio', h])]

/-! ### Doubles as decimals -/

theorem greatest_double_lt : 2 ^ 53 * 2 ^ 971 ≤ 10 ^ 400 := by decide +kernel

theorem least_double_gt : 2 ^ 1074 ≤ 10 ^ 401 := by decide +kernel

theorem least_binade_lt : 2 ^ 53 * 10 ^ 274 ≤ 2 ^ 1074 := by decide +kernel

/-- What a pattern of a double below infinity stands for is bounded in size and in fineness. -/
theorem double_bounds {n m : Nat} {negative : Bool} {q : Int}
    (hn : n < BinaryFormat.double.infinity)
    (h : BinaryFormat.double.decode n = .finite negative m q) :
    m < 2 ^ 53 ∧ -1074 ≤ q ∧ q ≤ 971 := by
  have hmin : BinaryFormat.double.minExponent = -1074 := by decide
  have hinf : BinaryFormat.double.infinity = 2047 * 2 ^ 52 := by decide
  have hpow : Nat.pow 2 BinaryFormat.double.fractionBits = 2 ^ 52 := rfl
  rw [hinf] at hn
  rcases BinaryFormat.decode_magnitude _ (hinf ▸ hn) h with ⟨-, hm, rfl⟩ | ⟨k, hk, hle, hm, rfl⟩
  · rw [hpow] at hm
    omega
  · rw [hpow] at hk hle hm
    omega

/-- A decimal of the value that a pattern stands for rounds to the pattern. -/
theorem toBits_of_decode {n m : Nat} {negative : Bool} {q : Int}
    (hn : n < BinaryFormat.double.infinity)
    (h : BinaryFormat.double.decode n = .finite negative m q) (hm : 0 < m) {d : Decimal}
    (hd : d.value = m * 2 ^ q) : d.toBits .double = n := by
  obtain ⟨hm₁, hq₁, hq₂⟩ := double_bounds hn h
  have hdigits : d.digits ≠ 0 := by
    rw [Ne, ← value_eq_zero, hd]
    positivity
  have hvalue := value_pos (Nat.pos_of_ne_zero hdigits)
  -- The decimal is in the range in which it is rounded as a ratio.
  have htop₁ : Int.log 10 d.value < 400 := by
    rw [← Int.lt_zpow_iff_log_lt (by decide) hvalue, hd, Nat.cast_ofNat]
    calc (m : ℚ) * 2 ^ q < 2 ^ 53 * 2 ^ q := by
          gcongr
          exact_mod_cast hm₁
      _ ≤ 2 ^ 53 * 2 ^ (971 : Int) := by
          gcongr
          norm_num
      _ ≤ 10 ^ (400 : Int) := by
          rw [zpow_ofNat, zpow_ofNat]
          exact_mod_cast greatest_double_lt
  have htop₂ : -401 ≤ Int.log 10 d.value := by
    rw [← Int.zpow_le_iff_le_log (by decide) hvalue, hd, Nat.cast_ofNat]
    calc (10 : ℚ) ^ (-401 : Int) ≤ 1 * 2 ^ (-1074 : Int) := by
          rw [one_mul, zpow_neg, zpow_neg, zpow_ofNat, zpow_ofNat]
          apply inv_anti₀ (by positivity)
          exact_mod_cast least_double_gt
      _ ≤ m * 2 ^ q := by
          gcongr
          · exact_mod_cast hm
          · norm_num
  obtain ⟨hpos, hratio⟩ := ratio_eq d
  unfold toBits
  dsimp only
  rw [if_neg hdigits, top_eq (Nat.pos_of_ne_zero hdigits), if_neg (by omega), if_neg (by omega)]
  exact BinaryFormat.ofRatio_of_decode _ hn h hm hpos (by rw [hratio, hd])

/-! ### The search -/

/-- The first significant digit of a quotient is not above the quotient. -/
theorem pow_leadingExponent_le {num den : Nat} (hnum : 0 < num) (hden : 0 < den) :
    (10 : ℚ) ^ leadingExponent num den ≤ (num : ℚ) / den := by
  have hden₀ : (0 : ℚ) < den := by exact_mod_cast hden
  unfold leadingExponent
  split_ifs with hle
  · have hq : 0 < num / den := Nat.div_pos hle hden
    have hlen := pow_decimalLength_le hq
    have hpos := decimalLength_pos (num / den)
    rw [show ((decimalLength (num / den) : Int) - 1) = ((decimalLength (num / den) - 1 : Nat) : Int)
      by omega, zpow_natCast, le_div_iff₀ hden₀]
    exact_mod_cast (Nat.le_div_iff_mul_le hden).mp hlen
  · -- The quotient is below one, and its inverse is at most a power of ten.
    generalize hc : (den + num - 1) / num - 1 = c
    have hup : den ≤ num * (c + 1) := by
      have hdiv := Nat.lt_div_mul_add (a := den + num - 1) hnum
      have hone : 0 < (den + num - 1) / num := Nat.div_pos (by omega) hnum
      rw [← hc, Nat.sub_add_cancel hone, Nat.mul_comm]
      omega
    have hlen := lt_pow_decimalLength c
    have hbound : den ≤ num * 10 ^ decimalLength c :=
      hup.trans (Nat.mul_le_mul_left _ hlen)
    rw [zpow_neg, zpow_natCast, inv_le_iff_one_le_mul₀ (by positivity), div_mul_eq_mul_div,
      le_div_iff₀ hden₀, one_mul]
    exact_mod_cast hbound

/-- A quotient divided by a power of ten. -/
theorem unscaleTen_ratio (num : Nat) {den : Nat} (hden : 0 < den) (e : Int) :
    0 < (unscaleTen num den e).2 ∧
      ((unscaleTen num den e).1 : ℚ) / (unscaleTen num den e).2 = (num : ℚ) / den / 10 ^ e := by
  unfold unscaleTen
  split_ifs with he
  · obtain ⟨n, rfl⟩ := Int.eq_ofNat_of_zero_le he
    refine ⟨Nat.mul_pos hden (Nat.pow_pos (by decide)), ?_⟩
    simp only [Int.toNat_natCast, Nat.pow_eq, zpow_natCast]
    push_cast
    rw [div_div]
  · obtain ⟨n, rfl⟩ : ∃ n : Nat, e = -(n : Int) := ⟨(-e).toNat, by omega⟩
    refine ⟨hden, ?_⟩
    simp only [neg_neg, Int.toNat_natCast, Nat.pow_eq, zpow_neg, zpow_natCast]
    push_cast
    field_simp

/-- What a double stands for has no more significant digits than the search goes up to. -/
theorem leadingExponent_le {m num den : Nat} {q : Int} (hm : m < 2 ^ 53) (hm₀ : 0 < m)
    (hq₁ : -1074 ≤ q) (hq₂ : q ≤ 971) (hden : 0 < den) (hr : (num : ℚ) / den = m * 2 ^ q) :
    leadingExponent num den ≤ q + 799 ∧ leadingExponent num den ≤ 799 := by
  have hnum : 0 < num := by
    apply Nat.pos_of_ne_zero
    rintro rfl
    rw [Nat.cast_zero, zero_div, zero_eq_mul] at hr
    rcases hr with h | h
    · exact hm₀.ne' (by exact_mod_cast h)
    · exact zpow_ne_zero q (by norm_num) h
  have hle := pow_leadingExponent_le hnum hden
  have hsmall : (num : ℚ) / den < 2 ^ 53 * 2 ^ q := by
    rw [hr]
    gcongr
    exact_mod_cast hm
  have hone : (1 : ℚ) < 10 := by norm_num
  constructor
  · suffices h : (10 : ℚ) ^ leadingExponent num den < 10 ^ (q + 800) by
      have := (zpow_lt_zpow_iff_right₀ hone).mp h
      omega
    -- Scaling by two grows more slowly than by ten, so the least binade decides.
    obtain ⟨k, rfl⟩ : ∃ k : Nat, q = -1074 + k := ⟨(q + 1074).toNat, by omega⟩
    refine lt_of_lt_of_le (hle.trans_lt hsmall) ?_
    rw [zpow_add₀ (by norm_num : (2 : ℚ) ≠ 0), zpow_natCast,
      show (-1074 + (k : Int) + 800) = -274 + k by ring, zpow_add₀ (by norm_num : (10 : ℚ) ≠ 0),
      zpow_natCast, ← mul_assoc]
    have hleast : (2 : ℚ) ^ 53 * 2 ^ (-1074 : Int) ≤ 10 ^ (-274 : Int) := by
      rw [zpow_neg, zpow_neg, zpow_ofNat, zpow_ofNat, ← div_eq_mul_inv,
        div_le_iff₀ (by positivity), ← div_eq_inv_mul, le_div_iff₀ (by positivity)]
      exact_mod_cast least_binade_lt
    gcongr
    norm_num
  -- The greatest double has far fewer digits before the point.
  · suffices h : (10 : ℚ) ^ leadingExponent num den < 10 ^ (400 : Int) by
      have := (zpow_lt_zpow_iff_right₀ hone).mp h
      omega
    refine lt_of_lt_of_le (hle.trans_lt hsmall) ?_
    calc (2 : ℚ) ^ 53 * 2 ^ q ≤ 2 ^ 53 * 2 ^ (971 : Int) := by
          gcongr
          norm_num
      _ ≤ 10 ^ (400 : Int) := by
          rw [zpow_ofNat, zpow_ofNat]
          exact_mod_cast greatest_double_lt

/-- With enough digits a double is a decimal itself, so the search ends there at the latest. -/
theorem exists_neighbour {n m num den : Nat} {negative : Bool} {q : Int}
    (hn : n < BinaryFormat.double.infinity)
    (h : BinaryFormat.double.decode n = .finite negative m q) (hm : 0 < m) (hden : 0 < den)
    (hr : (num : ℚ) / den = m * 2 ^ q) : (neighbour? .double n num den 799).isSome = true := by
  obtain ⟨hm₁, hq₁, hq₂⟩ := double_bounds hn h
  obtain ⟨hlead₁, hlead₂⟩ := leadingExponent_le hm₁ hm hq₁ hq₂ hden hr
  unfold neighbour?
  dsimp only
  generalize he : leadingExponent num den - (799 : Nat) = e
  obtain ⟨hpos, hratio⟩ := unscaleTen_ratio num hden e
  -- The power of ten divides the value.
  obtain ⟨j, hj⟩ : ∃ j : Nat, q - e = j := ⟨(q - e).toNat, by omega⟩
  obtain ⟨k, hk⟩ : ∃ k : Nat, -e = k := ⟨(-e).toNat, by omega⟩
  have hwhole : ((unscaleTen num den e).1 : ℚ) / (unscaleTen num den e).2
      = (m * 2 ^ j * 5 ^ k : Nat) := by
    have htwo : (2 : ℚ) ≠ 0 := by norm_num
    have hfive : (5 : ℚ) ≠ 0 := by norm_num
    rw [hratio, hr, show (10 : ℚ) = 2 * 5 by norm_num, mul_zpow, div_mul_eq_div_div, mul_div_assoc,
      ← zpow_sub₀ htwo, hj, div_eq_mul_inv, ← zpow_neg, hk, zpow_natCast, zpow_natCast]
    push_cast
    rfl
  have hnearest := roundEven_of_eq hpos hwhole
  rw [List.find?_isSome]
  refine ⟨_, List.mem_cons_self .., ?_⟩
  rw [beq_iff_eq]
  apply toBits_of_decode hn h hm
  rw [value, hnearest, ← hwhole, hratio, hr]
  exact div_mul_cancel₀ _ (zpow_ne_zero e (by norm_num))

/-- The shortest decimal of a double rounds to it. -/
theorem shortest_toBits {n m num den : Nat} {negative : Bool} {q : Int}
    (hn : n < BinaryFormat.double.infinity)
    (h : BinaryFormat.double.decode n = .finite negative m q) (hm : 0 < m) (hden : 0 < den)
    (hr : (num : ℚ) / den = m * 2 ^ q) :
    (shortest .double n num den).toBits .double = n := by
  obtain ⟨d, hd⟩ : ∃ d, (List.range maxDigits).findSome? (neighbour? .double n num den)
      = some d := by
    rw [← Option.isSome_iff_exists, List.findSome?_isSome_iff]
    exact ⟨799, List.mem_range.mpr (by decide), exists_neighbour hn h hm hden hr⟩
  unfold shortest
  rw [hd, Option.getD_some]
  obtain ⟨k, -, hk⟩ := List.exists_of_findSome?_eq_some hd
  unfold neighbour? at hk
  have hfound := List.find?_some hk
  rwa [beq_iff_eq] at hfound

end Decimal

end SlotGrad
