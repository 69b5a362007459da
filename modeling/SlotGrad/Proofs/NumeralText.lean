import SlotGrad.Proofs.ShortestDecimal
import SlotGrad.Saved.Json.Lexer
import SlotGrad.Saved.Json.Printer

/-!
# Numbers as JSON text read back

An integer is written by its digits and a real number by the shortest decimal that rounds to it,
with a point or an exponent wherever that is moderate in length.  Both read back as the token of
the number, whatever follows that cannot belong to a number.

## Main definitions

* `Lexer.Ends` — what follows cannot belong to a number.
* `IsDouble` — the number is the one of its own 64-bit pattern.

## Main results

* `Decimal.layout_eq` — the digits of a decimal without zeros at the end.
* `Lexer.number?_positional`, `Lexer.number?_withExponent` — either layout of a decimal reads
  back as the pattern that the decimal rounds to.
* `Lexer.token?_integer`, `Lexer.token?_numberText` — numbers read back.
-/

namespace SlotGrad

/-! ### Runs of digits -/

namespace Numeral

theorem natOfDigits_eq (ds : List Char) : natOfDigits ds = Nat.ofDigitChars 10 ds 0 :=
  Nat.ofDigitChars_eq_foldl.symm

theorem natOfDigits_toDigits (n : Nat) : natOfDigits (Nat.toDigits 10 n) = n := by
  rw [natOfDigits_eq, Nat.ofDigitChars_ten_toDigits]

theorem natOfDigits_append (ds es : List Char) :
    natOfDigits (ds ++ es) = natOfDigits ds * 10 ^ es.length + natOfDigits es := by
  simp only [natOfDigits_eq, Nat.ofDigitChars_append]
  rw [Nat.ofDigitChars_eq_ofDigitChars_zero, Nat.mul_comm]

/-- Zeros at the end of digits scale their number. -/
theorem natOfDigits_append_zeros (ds : List Char) (n : Nat) :
    natOfDigits (ds ++ List.replicate n '0') = natOfDigits ds * 10 ^ n := by
  rw [natOfDigits_append, natOfDigits_eq (List.replicate n '0'), Nat.ofDigitChars_replicate_zero,
    List.length_replicate, Nat.mul_zero, Nat.add_zero]

/-- Zeros before digits do not count. -/
theorem natOfDigits_zeros_append (n : Nat) (ds : List Char) :
    natOfDigits (List.replicate n '0' ++ ds) = natOfDigits ds := by
  simp only [natOfDigits_eq, Nat.ofDigitChars_append, Nat.ofDigitChars_replicate_zero, Nat.mul_zero]

/-- The shortest numeral of a number other than zero is laid out from a shortest decimal. -/
theorem shortestIn_eq {fmt : BinaryFormat} {layout : ShortestLayout} {bits m : Nat}
    {negative : Bool} {q : Int} (h : fmt.decode bits = .finite negative m q) (hm : 0 < m)
    {d : Decimal}
    (hd : Decimal.shortest fmt (bits % fmt.signBit) (BinaryFormat.unscale m 1 (-q)).1
      (BinaryFormat.unscale m 1 (-q)).2 = d) {ds : List Char} {point : Int}
    (hlayout : d.layout = (ds, point)) :
    shortestIn fmt layout bits = signed negative
      (if layout.leastPositional ≤ point - 1 ∧ point - 1 < layout.positionalEnd then
        positional ds point else withExponent ds point) := by
  obtain ⟨m, rfl⟩ : ∃ j, m = j + 1 := ⟨m - 1, by omega⟩
  unfold shortestIn
  rw [h]
  simp only [hd, hlayout]

end Numeral

/-- The digits of a positive number do not start with a zero. -/
theorem head?_toDigits {n : Nat} (hn : 0 < n) : (Nat.toDigits 10 n).head? ≠ some '0' := by
  induction n using Nat.strongRecOn with
  | ind n ih =>
    rcases Nat.lt_or_ge n 10 with hlt | hge
    · have hdigit : ∀ m < 10, 0 < m → [Nat.digitChar m].head? ≠ some '0' := by decide
      rw [Nat.toDigits_of_lt_base hlt]
      exact hdigit n hlt hn
    · have hq : 0 < n / 10 := Nat.div_pos hge (by decide)
      have hhead := ih (n / 10) (Nat.div_lt_self hn (by decide)) hq
      rw [Nat.toDigits_of_base_le (by decide) hge]
      cases hds : Nat.toDigits 10 (n / 10) with
      | nil => exact absurd hds Nat.toDigits_ne_nil
      | cons d ds =>
        rw [hds] at hhead
        exact hhead

theorem isDigit_toDigits {n : Nat} {c : Char} (hc : c ∈ Nat.toDigits 10 n) : c.isDigit = true :=
  Nat.isDigit_of_mem_toDigits (by decide) (by decide) hc

namespace Decimal

/-- Digits that a numeral can start with: at least one, the first of which is no zero. -/
structure Leading (ds : List Char) : Prop where
  /-- All characters are digits. -/
  digits : ∀ c ∈ ds, c.isDigit = true
  /-- There is a digit. -/
  ne_nil : ds ≠ []
  /-- The first digit is no zero. -/
  head : ds.head? ≠ some '0'

/-- The digits of a decimal without zeros at the end, and where its point is. -/
theorem layout_eq {d : Decimal} (hd : 0 < d.digits) : ∃ ds k, Leading ds ∧
    d.layout = (ds, (ds.length : Int) + (k : Nat) + d.exponent) ∧
    Numeral.natOfDigits ds * 10 ^ k = d.digits := by
  generalize hall : Nat.toDigits 10 d.digits = all
  have hsplit : all = (all.reverse.dropWhile (· == '0')).reverse
      ++ List.replicate (all.reverse.takeWhile (· == '0')).length '0' := by
    have hzeros : all.reverse.takeWhile (· == '0')
        = List.replicate (all.reverse.takeWhile (· == '0')).length '0' := by
      apply List.eq_replicate_of_mem
      intro c hc
      exact beq_iff_eq.mp (List.all_eq_true.mp List.all_takeWhile c hc)
    have happend := congrArg List.reverse
      (List.takeWhile_append_dropWhile (p := (· == '0')) (l := all.reverse))
    rw [List.reverse_append, List.reverse_reverse, hzeros, List.reverse_replicate] at happend
    exact happend.symm
  generalize hds : (all.reverse.dropWhile (· == '0')).reverse = ds at hsplit
  generalize hk : (all.reverse.takeWhile (· == '0')).length = k at hsplit
  have hvalue : Numeral.natOfDigits ds * 10 ^ k = d.digits := by
    rw [← Numeral.natOfDigits_append_zeros, ← hsplit, ← hall, Numeral.natOfDigits_toDigits]
  have hne : ds ≠ [] := by
    rintro rfl
    rw [show Numeral.natOfDigits [] = 0 from rfl, Nat.zero_mul] at hvalue
    omega
  refine ⟨ds, k, ⟨fun c hc => ?_, hne, fun hhead => ?_⟩, ?_, hvalue⟩
  · apply isDigit_toDigits (n := d.digits)
    rw [hall, hsplit]
    exact List.mem_append_left _ hc
  · apply head?_toDigits hd
    rw [hall, hsplit]
    cases ds with
    | nil => exact absurd rfl hne
    | cons c cs => exact hhead
  · unfold layout
    dsimp only
    rw [hall, hds]
    congr 2
    conv_lhs => rw [hsplit]
    simp

end Decimal

namespace Saved
namespace Lexer

open Numeral

/-! ### Parts of numbers -/

/-- What follows cannot belong to a number. -/
def Ends (rest : List Char) : Prop :=
  ∀ c ∈ rest.head?, c.isDigit = false ∧ c ≠ '.' ∧ c ≠ 'e' ∧ c ≠ 'E'

/-- A run of digits ends where something else follows. -/
theorem digits_append {ds rest : List Char} (hds : ∀ c ∈ ds, c.isDigit = true)
    (hrest : ∀ c ∈ rest.head?, c.isDigit = false) : digits (ds ++ rest) = (ds, rest) := by
  have hstop : rest.takeWhile Char.isDigit = [] ∧ rest.dropWhile Char.isDigit = rest := by
    cases rest with
    | nil => exact ⟨rfl, rfl⟩
    | cons c cs =>
      have hc := hrest c rfl
      simp [hc]
  unfold digits
  rw [List.takeWhile_append_of_pos hds, List.dropWhile_append_of_pos hds, hstop.1, hstop.2,
    List.append_nil]

/-- Integral digits are read up to where they end. -/
theorem whole?_append {ds rest : List Char} (hds : ds = ['0'] ∨ Decimal.Leading ds)
    (hrest : ∀ c ∈ rest.head?, c.isDigit = false) : whole? (ds ++ rest) = some (ds, rest) := by
  rcases hds with rfl | ⟨hdigits, hne, hhead⟩
  · rfl
  · have hread := digits_append hdigits hrest
    cases ds with
    | nil => exact absurd rfl hne
    | cons c cs =>
      unfold whole?
      split
      · rename_i heq
        injection heq with hc
        exact absurd (congrArg some hc) hhead
      · rw [hread]

/-- Digits after a point are read up to where they end. -/
theorem fraction_point {fs rest : List Char} (hfs : ∀ c ∈ fs, c.isDigit = true) (hne : fs ≠ [])
    (hrest : ∀ c ∈ rest.head?, c.isDigit = false) :
    fraction ('.' :: (fs ++ rest)) = (fs, rest) := by
  simp only [fraction, digits_append hfs hrest]

theorem fraction_of_ne {rest : List Char} (hrest : ∀ c ∈ rest.head?, c ≠ '.') :
    fraction rest = ([], rest) := by
  unfold fraction
  split
  · exact absurd rfl (hrest '.' rfl)
  · rfl

theorem exponent_of_ends {rest : List Char} (hrest : Ends rest) : exponent rest = (none, rest) := by
  cases rest with
  | nil => rfl
  | cons c cs =>
    obtain ⟨-, -, he, hE⟩ := hrest c rfl
    simp only [exponent, he, hE, or_self, if_false]

/-- A written exponent reads back. -/
theorem exponent_exponentText (e : Int) {rest : List Char} (hrest : Ends rest) :
    exponent ((exponentText e).toList ++ rest) = (some e, rest) := by
  have hstop : ∀ c ∈ rest.head?, c.isDigit = false := fun c hc => (hrest c hc).1
  -- The digits, of which there are at least two.
  obtain ⟨ds, hds, hne, htext, hvalue⟩ : ∃ ds : List Char, (∀ c ∈ ds, c.isDigit = true) ∧ ds ≠ [] ∧
      (exponentText e).toList = 'e' :: (if e < 0 then '-' else '+') :: ds ∧
        natOfDigits ds = e.natAbs := by
    have hlist : (toString e.natAbs).toList = Nat.toDigits 10 e.natAbs := by
      rw [Nat.toString_eq_ofList_toDigits, String.toList_ofList]
    unfold exponentText
    dsimp only
    by_cases hshort : (toString e.natAbs).length < 2
    · refine ⟨'0' :: Nat.toDigits 10 e.natAbs, ?_, by simp, ?_, ?_⟩
      · intro c hc
        rcases List.mem_cons.mp hc with rfl | hc
        · rfl
        · exact isDigit_toDigits hc
      · rw [if_pos hshort]
        split_ifs <;> simp
      · exact (natOfDigits_zeros_append 1 _).trans (natOfDigits_toDigits _)
    · refine ⟨Nat.toDigits 10 e.natAbs, fun c hc => isDigit_toDigits hc, Nat.toDigits_ne_nil, ?_,
        natOfDigits_toDigits _⟩
      rw [if_neg hshort]
      split_ifs <;> simp
  have hsign : takeSign ((if e < 0 then '-' else '+') :: (ds ++ rest))
      = (decide (e < 0), ds ++ rest) := by
    split_ifs with he
    · simp [takeSign, he]
    · simp [takeSign, he]
  rw [htext]
  unfold exponent
  simp only [List.cons_append, true_or, if_true, hsign, digits_append hds hstop]
  cases ds with
  | nil => exact absurd rfl hne
  | cons d ds =>
    rw [hvalue]
    congr 2
    split_ifs with he <;> simp only [decide_eq_true_eq] at he <;> omega

/-! ### Numbers -/

variable {F : Type} [Interchange F]

/-- The token of the number of a sign and a magnitude. -/
def realToken (negative : Bool) (magnitude : Nat) : Token F :=
  .real (Interchange.ofBits (signedBits negative magnitude).toUInt64)

/-- A number with a fraction or an exponent reads back by its parts. -/
theorem number?_parts (negative : Bool) {ds fs : List Char} (mark rest : List Char) {e : Option Int}
    (hds : ds = ['0'] ∨ Decimal.Leading ds) (hfs : ∀ c ∈ fs, c.isDigit = true)
    (hmark : ∀ c ∈ (mark ++ rest).head?, c.isDigit = false ∧ c ≠ '.')
    (he : exponent (mark ++ rest) = (e, rest)) (hreal : fs ≠ [] ∨ e.isSome = true) :
    number? (F := F) negative (ds ++ ((if fs = [] then [] else '.' :: fs) ++ (mark ++ rest)))
      = some (realToken negative (magnitudeOf ds fs (e.getD 0)), rest) := by
  have hfraction : fraction ((if fs = [] then [] else '.' :: fs) ++ (mark ++ rest))
      = (fs, mark ++ rest) := by
    split_ifs with hnil
    · rw [hnil]
      exact fraction_of_ne fun c hc => (hmark c hc).2
    · exact fraction_point hfs hnil fun c hc => (hmark c hc).1
  have hwhole : whole? (ds ++ ((if fs = [] then [] else '.' :: fs) ++ (mark ++ rest)))
      = some (ds, (if fs = [] then [] else '.' :: fs) ++ (mark ++ rest)) := by
    apply whole?_append hds
    split_ifs with hnil
    · exact fun c hc => (hmark c hc).1
    · intro c hc
      cases hc
      rfl
  have hkind : ¬ (fs.isEmpty && e.isNone) = true := by
    rcases hreal with h | h
    · simp [h]
    · cases e with
      | none => cases h
      | some e => simp
  unfold number?
  simp only [hwhole, hfraction, he, if_neg hkind, bind, Option.bind, pure]
  rfl

/-- A natural number with few enough digits reads back. -/
theorem number?_natural (negative : Bool) {n : Nat} (hn : decimalLength n ≤ Json.mostDigits)
    {rest : List Char} (hrest : Ends rest) :
    number? (F := F) negative (Nat.toDigits 10 n ++ rest)
      = some (.integer (if negative then -(n : Int) else n), rest) := by
  have hds : Nat.toDigits 10 n = ['0'] ∨ Decimal.Leading (Nat.toDigits 10 n) := by
    rcases Nat.eq_zero_or_pos n with rfl | hn
    · exact .inl (Nat.toDigits_zero 10)
    · exact .inr ⟨fun c hc => isDigit_toDigits hc, Nat.toDigits_ne_nil, head?_toDigits hn⟩
  have hwhole := whole?_append hds fun c hc => (hrest c hc).1
  have hfraction := fraction_of_ne fun c hc => (hrest c hc).2.1
  have hfew : ¬Json.mostDigits < (Nat.toDigits 10 n).length := Nat.not_lt.mpr hn
  unfold number?
  simp only [hwhole, hfraction, exponent_of_ends hrest, natOfDigits_toDigits, bind,
    Option.bind, pure, List.isEmpty_nil, Option.isNone_none, Bool.and_self, if_true, if_neg hfew]

/-- The value of digits read with a point and an exponent. -/
theorem value_of_digits {ds : List Char} {point : Int} {d : Decimal} {k : Nat}
    (hpoint : point = (ds.length : Int) + (k : Nat) + d.exponent)
    (hdigits : natOfDigits ds * 10 ^ k = d.digits) {n : Nat} {e : Int}
    {j : Nat} (hn : n = natOfDigits ds * 10 ^ j) (he : e = point - ds.length - j) :
    (⟨n, e⟩ : Decimal).value = d.value := by
  unfold Decimal.value
  dsimp only
  have hten : (10 : ℚ) ≠ 0 := by norm_num
  rw [hn, ← hdigits, show e = d.exponent + k - j by omega, zpow_sub₀ hten, zpow_add₀ hten,
    zpow_natCast, zpow_natCast]
  push_cast
  field_simp

section

variable {ds : List Char} {point : Int} {d : Decimal} {k : Nat} {rest : List Char}

/-- Digits with a point among them or beside them read back as what their decimal rounds to. -/
theorem number?_positional (negative : Bool) (hds : Decimal.Leading ds)
    (hpoint : point = (ds.length : Int) + (k : Nat) + d.exponent)
    (hdigits : natOfDigits ds * 10 ^ k = d.digits) (hrest : Ends rest) :
    number? (F := F) negative ((positional ds point).toList ++ rest)
      = some (realToken negative (d.toBits .double), rest) := by
  have hzeros : ∀ n, ∀ c ∈ List.replicate n '0', c.isDigit = true := by
    intro n c hc
    rw [List.eq_of_mem_replicate hc]
    rfl
  -- The three forms differ in what stands before the point and after it.
  suffices hform : ∃ whole fs, (whole = ['0'] ∨ Decimal.Leading whole) ∧
      (∀ c ∈ fs, c.isDigit = true) ∧ fs ≠ [] ∧
      (positional ds point).toList = whole ++ '.' :: fs ∧
      (⟨natOfDigits (whole ++ fs), -(fs.length : Int)⟩ : Decimal).value = d.value by
    obtain ⟨whole, fs, hwhole, hfs, hne, htext, hvalue⟩ := hform
    have hread := number?_parts (F := F) negative [] rest hwhole hfs
      (fun c hc => ⟨(hrest c hc).1, (hrest c hc).2.1⟩) (exponent_of_ends hrest) (.inl hne)
    rw [if_neg hne, List.nil_append] at hread
    rw [htext, List.append_assoc, hread, ← Decimal.toBits_congr _ hvalue, magnitudeOf,
      Option.getD_none, zero_sub]
  unfold positional
  split_ifs with hleft hright
  -- The point is left of all digits: zeros follow it.
  · obtain ⟨n, hn⟩ : ∃ n : Nat, -point = n := ⟨(-point).toNat, by omega⟩
    refine ⟨['0'], List.replicate n '0' ++ ds, .inl rfl, ?_, by simp [hds.ne_nil], ?_, ?_⟩
    · intro c hc
      rcases List.mem_append.mp hc with hc | hc
      · exact hzeros n c hc
      · exact hds.digits c hc
    · rw [hn, Int.toNat_natCast]
      simp [zeros]
    · apply value_of_digits hpoint hdigits (j := 0)
      · rw [pow_zero, Nat.mul_one]
        exact natOfDigits_zeros_append (n + 1) ds
      · rw [List.length_append, List.length_replicate]
        omega
  -- It is right of all digits: zeros stand before it, and one after it.
  · obtain ⟨n, hn⟩ : ∃ n : Nat, point.toNat - ds.length = n := ⟨_, rfl⟩
    refine ⟨ds ++ List.replicate n '0', ['0'], .inr ⟨?_, by simp [hds.ne_nil], ?_⟩,
      by simp, by simp, ?_, ?_⟩
    · intro c hc
      rcases List.mem_append.mp hc with hc | hc
      · exact hds.digits c hc
      · exact hzeros n c hc
    · have hhead := hds.head
      cases ds with
      | nil => exact absurd rfl hds.ne_nil
      | cons c cs => exact hhead
    · rw [hn]
      simp [zeros]
    · apply value_of_digits hpoint hdigits (j := n + 1)
      · rw [List.append_assoc, ← natOfDigits_append_zeros]
        congr 2
        exact (List.replicate_succ').symm
      · rw [List.length_singleton]
        omega
  -- It stands among the digits.
  · obtain ⟨n, hn⟩ : ∃ n : Nat, point = n := ⟨point.toNat, by omega⟩
    rw [hn, Int.toNat_natCast] at hright ⊢
    refine ⟨ds.take n, ds.drop n, .inr ⟨?_, ?_, ?_⟩, ?_, ?_, ?_, ?_⟩
    · exact fun c hc => hds.digits c (List.mem_of_mem_take hc)
    · intro hnil
      rcases List.take_eq_nil_iff.mp hnil with h | h
      · omega
      · exact hds.ne_nil h
    · rw [List.head?_take, if_neg (by omega)]
      exact hds.head
    · exact fun c hc => hds.digits c (List.mem_of_mem_drop hc)
    · intro hnil
      exact hright (List.drop_eq_nil_iff.mp hnil)
    · simp
    · apply value_of_digits hpoint hdigits (j := 0)
      · rw [List.take_append_drop, pow_zero, Nat.mul_one]
      · rw [List.length_drop]
        omega

/-- Digits with an exponent read back as what their decimal rounds to. -/
theorem number?_withExponent (negative : Bool) (hds : Decimal.Leading ds)
    (hpoint : point = (ds.length : Int) + (k : Nat) + d.exponent)
    (hdigits : natOfDigits ds * 10 ^ k = d.digits) (hrest : Ends rest) :
    number? (F := F) negative ((withExponent ds point).toList ++ rest)
      = some (realToken negative (d.toBits .double), rest) := by
  obtain ⟨c, cs, rfl⟩ := List.exists_cons_of_ne_nil hds.ne_nil
  have hwhole : [c] = ['0'] ∨ Decimal.Leading [c] :=
    .inr ⟨fun b hb => hds.digits b (by rw [List.mem_singleton.mp hb]; exact List.mem_cons_self ..),
      by simp, hds.head⟩
  have hread := number?_parts (F := F) negative (exponentText (point - 1)).toList rest
    hwhole (fun b hb => hds.digits b (List.mem_cons_of_mem _ hb)) ?_
    (exponent_exponentText (point - 1) hrest) (.inr rfl)
  · have htext : (withExponent (c :: cs) point).toList ++ rest
        = [c] ++ ((if cs = [] then [] else '.' :: cs)
          ++ ((exponentText (point - 1)).toList ++ rest)) := by
      unfold withExponent
      cases cs with
      | nil => simp
      | cons b bs => simp
    rw [htext, hread, magnitudeOf, Option.getD_some]
    congr 2
    apply congrArg (realToken negative)
    apply Decimal.toBits_congr
    apply value_of_digits hpoint hdigits (j := 0)
    · rw [pow_zero, Nat.mul_one]
      rfl
    · rw [List.length_cons]
      push_cast
      ring
  · intro b hb
    have he : b = 'e' := by
      unfold exponentText at hb
      simpa using hb.symm
    subst he
    decide

end

/-! ### Tokens of numbers -/

/-- A number starts with a digit. -/
theorem number?_head {negative : Bool} {cs : List Char} {r : Token F × List Char}
    (h : number? negative cs = some r) : ∃ c rest, cs = c :: rest ∧ c.isDigit = true := by
  cases cs with
  | nil => cases h
  | cons c rest =>
    refine ⟨c, rest, rfl, ?_⟩
    by_contra hc
    have hwhole : whole? (c :: rest) = none := by
      have hne : c ≠ '0' := by
        rintro rfl
        exact hc rfl
      simp [whole?, digits, hne, hc]
    unfold number? at h
    rw [hwhole] at h
    cases h

theorem mem_of_isDigit {c : Char} (hc : c.isDigit = true) :
    c ∈ ['0', '1', '2', '3', '4', '5', '6', '7', '8', '9'] := by
  have hall : ∀ n < 58, 48 ≤ n →
      Char.ofNat n ∈ ['0', '1', '2', '3', '4', '5', '6', '7', '8', '9'] := by decide
  obtain ⟨hlow, hhigh⟩ := Char.isDigit_iff_toNat.mp hc
  change 48 ≤ c.toNat at hlow
  change c.toNat ≤ 57 at hhigh
  rw [← Char.ofNat_toNat c]
  exact hall c.toNat (by omega) hlow

/-- Characters that are no marks start a word or a number. -/
theorem token?_other {c : Char} {rest : List Char}
    (hc : c ∉ ['[', ']', '\x7b', '\x7d', ',', ':', '"']) :
    token? (F := F) (c :: rest) = match word? (c :: rest) with
      | some found => some found
      | none => if c = '-' then number? true rest else number? false (c :: rest) := by
  unfold token?
  split
  · rename_i heq
    cases heq
  · rename_i heq
    cases heq
    split <;> first | rfl | exact absurd (by simp) hc

/-- No word starts with a digit, and none but the negative infinity with a sign. -/
theorem word?_of_isDigit {c : Char} (hc : c.isDigit = true) (cs : List Char) :
    word? (F := F) (c :: cs) = none ∧ word? (F := F) ('-' :: c :: cs) = none := by
  have hmem := mem_of_isDigit hc
  simp only [List.mem_cons, List.not_mem_nil, or_false] at hmem
  rcases hmem with rfl | rfl | rfl | rfl | rfl | rfl | rfl | rfl | rfl | rfl <;> exact ⟨rfl, rfl⟩

/-- A number that is read behind a sign is the token at the sign. -/
theorem token?_signed {negative : Bool} {s : String} {rest : List Char} {r : Token F × List Char}
    (h : number? negative (s.toList ++ rest) = some r) :
    token? ((signed negative s).toList ++ rest) = some r := by
  obtain ⟨c, cs, hcs, hc⟩ := number?_head h
  obtain ⟨hword, hsigned⟩ := word?_of_isDigit (F := F) hc cs
  rw [hcs] at h
  cases negative with
  | true =>
    have htext : (signed true s).toList ++ rest = '-' :: (c :: cs) := by
      rw [← hcs]
      simp [signed]
    rw [htext, token?_other (by decide), hsigned]
    exact h
  | false =>
    have htext : (signed false s).toList ++ rest = c :: cs := by
      rw [← hcs]
      simp [signed]
    have hmark : c ∉ ['[', ']', '\x7b', '\x7d', ',', ':', '"', '-'] := by
      intro hmem
      have hnone : (['[', ']', '\x7b', '\x7d', ',', ':',
          '"', '-'].all fun b => !b.isDigit) = true :=
        rfl
      have hdigit := List.all_eq_true.mp hnone c hmem
      rw [hc] at hdigit
      cases hdigit
    rw [htext, token?_other (fun hmem => hmark (by simp at hmem ⊢; tauto)), hword]
    dsimp only
    rw [if_neg (fun heq => hmark (by simp [heq]))]
    exact h

/-- An integer with a written form reads back. -/
theorem token?_integer {n : Int} (hn : Json.Short n) {rest : List Char} (hrest : Ends rest) :
    token? (F := F) ((toString n).toList ++ rest) = some (.integer n, rest) := by
  have hread : ∀ (negative : Bool) {m : Nat}, decimalLength m ≤ Json.mostDigits →
      number? (F := F) negative ((toString m).toList ++ rest)
        = some (.integer (if negative then -(m : Int) else m), rest) := by
    intro negative m hm
    rw [Nat.toString_eq_ofList_toDigits, String.toList_ofList]
    exact number?_natural negative hm hrest
  cases n with
  | ofNat m =>
    change token? ((signed false (toString m)).toList ++ rest) = _
    exact token?_signed (hread false hn)
  | negSucc m =>
    change token? ((signed true (toString (m + 1))).toList ++ rest) = _
    exact token?_signed (hread true hn)

/-- A word is its token. -/
theorem word?_word {w : String} {t : Token F} (h : (w, t) ∈ words) (rest : List Char) :
    word? (w.toList ++ rest) = some (t, rest) := by
  unfold words at h
  simp only [List.mem_cons, Prod.mk.injEq, List.not_mem_nil, or_false] at h
  rcases h with ⟨rfl, rfl⟩ | ⟨rfl, rfl⟩ | ⟨rfl, rfl⟩ | ⟨rfl, rfl⟩ | ⟨rfl, rfl⟩ | ⟨rfl, rfl⟩ <;> rfl

theorem token?_word {w : String} {t : Token F} (h : (w, t) ∈ words) (rest : List Char) :
    token? (w.toList ++ rest) = some (t, rest) := by
  have hword := word?_word h rest
  have hfirst : ∃ c cs, w.toList ++ rest = c :: cs ∧
      c ∉ ['[', ']', '\x7b', '\x7d', ',', ':', '"'] := by
    unfold words at h
    simp only [List.mem_cons, Prod.mk.injEq, List.not_mem_nil, or_false] at h
    rcases h with ⟨rfl, -⟩ | ⟨rfl, -⟩ | ⟨rfl, -⟩ | ⟨rfl, -⟩ | ⟨rfl, -⟩ | ⟨rfl, -⟩ <;>
      exact ⟨_, _, rfl, by decide⟩
  obtain ⟨c, cs, hcs, hc⟩ := hfirst
  rw [hcs] at hword ⊢
  rw [token?_other hc, hword]

end Lexer

/-! ### Real numbers -/

section

variable {F : Type} [Interchange F]

/-- The number is the one of its own pattern, which is the canonical one if it is no number. -/
structure IsDouble (x : F) : Prop where
  /-- The number of its pattern. -/
  ofBits_toBits : Interchange.ofBits (Interchange.toBits x) = x
  /-- There is one pattern of what is no number. -/
  canonical : BinaryFormat.double.decode (pattern x) = .nan →
    pattern x = BinaryFormat.double.quietNaN

/-- The number of a sign and the magnitude of its pattern. -/
theorem IsDouble.ofBits_signedBits {x : F} (hx : IsDouble x) {negative : Bool} {n : Nat}
    (hn : pattern x % BinaryFormat.double.signBit = n)
    (hsign : negative = (pattern x / BinaryFormat.double.signBit % 2 == 1)) :
    Interchange.ofBits (Numeral.signedBits negative n).toUInt64 = x := by
  have hlt : pattern x < 2 ^ 64 := (Interchange.toBits x).toNat_lt
  have hbit : BinaryFormat.double.signBit = 2 ^ 63 := rfl
  have hbits : Numeral.signedBits negative n = pattern x := by
    unfold Numeral.signedBits
    rw [hbit] at hn hsign ⊢
    rw [hsign, ← hn]
    have hdiv := Nat.div_add_mod (pattern x) (2 ^ 63)
    split_ifs with h
    · rw [beq_iff_eq] at h
      omega
    · rw [beq_iff_eq] at h
      omega
  rw [hbits]
  have hword : (pattern x).toUInt64 = Interchange.toBits x := by
    unfold pattern
    simp
  rw [hword, hx.ofBits_toBits]

/-- **A real number reads back.**  The shortest numeral of a double is the token of the double,
whatever follows that cannot belong to a number. -/
theorem Lexer.token?_numberText {x : F} (hx : IsDouble x) {rest : List Char}
    (hrest : Lexer.Ends rest) :
    Lexer.token? ((Json.numberText x).toList ++ rest) = some (.real x, rest) := by
  obtain ⟨hinfinite, hfinite⟩ := BinaryFormat.double.decode_parts (pattern x)
  unfold Json.numberText Numeral.shortest
  cases hdecode : BinaryFormat.double.decode (pattern x) with
  | nan =>
    unfold Numeral.shortestIn
    rw [hdecode]
    have hreal : Interchange.ofBits (BinaryFormat.double.quietNaN).toUInt64 = x := by
      rw [← hx.canonical hdecode]
      unfold pattern
      simpa using hx.ofBits_toBits
    rw [← hreal]
    exact Lexer.token?_word (w := "NaN") (by simp [Lexer.words]) rest
  -- The other two words: an infinity with its sign.
  | infinite negative =>
    obtain ⟨hsign, hmagnitude⟩ := hinfinite negative hdecode
    unfold Numeral.shortestIn
    rw [hdecode, ← hx.ofBits_signedBits hmagnitude hsign]
    cases negative with
    | false =>
      apply Lexer.token?_word (w := "Infinity")
      simp [Lexer.words, Numeral.signedBits]
    | true => exact Lexer.token?_word (w := "-Infinity") (by simp [Lexer.words]) rest
  | finite negative m q =>
    obtain ⟨hsign, hlt, sign, hmagnitude⟩ := hfinite negative m q hdecode
    have hreal := hx.ofBits_signedBits rfl hsign
    generalize hn : pattern x % BinaryFormat.double.signBit = n at hlt hmagnitude hreal
    rcases Nat.eq_zero_or_pos m with rfl | hm
    · -- Zero is written with a point.
      have hzero : n = 0 := by
        rcases BinaryFormat.decode_magnitude _ hlt hmagnitude with ⟨h, -⟩ | ⟨k, -, hle, -⟩
        · exact h
        · exact absurd hle (by decide)
      subst hzero
      unfold Numeral.shortestIn
      rw [hdecode, ← hreal]
      apply Lexer.token?_signed (s := "0.0")
      exact Lexer.number?_parts (F := F) negative [] rest (.inl rfl)
        (show ∀ c ∈ ['0'], c.isDigit = true by simp)
        (fun c hc => ⟨(hrest c hc).1, (hrest c hc).2.1⟩) (Lexer.exponent_of_ends hrest)
        (.inl (by simp))
    · obtain ⟨hpos, hratio⟩ := BinaryFormat.unscale_ratio m Nat.one_pos (-q)
      have hvalue : ((BinaryFormat.unscale m 1 (-q)).1 : ℚ) / (BinaryFormat.unscale m 1 (-q)).2
          = m * 2 ^ q := by
        rw [hratio, Nat.cast_one, div_one, zpow_neg, div_inv_eq_mul]
      -- The shortest decimal rounds to the pattern, so whatever layout it is shown in reads as
      -- it.
      have hbits := Decimal.shortest_toBits hlt hmagnitude hm hpos hvalue
      generalize hd : Decimal.shortest .double n (BinaryFormat.unscale m 1 (-q)).1
        (BinaryFormat.unscale m 1 (-q)).2 = d at hbits
      have hdigits : 0 < d.digits := by
        apply Nat.pos_of_ne_zero
        intro hzero
        have hn : n = 0 := by
          rw [← hbits]
          unfold Decimal.toBits
          rw [if_pos hzero]
        rw [hn] at hmagnitude
        cases hmagnitude
        exact absurd hm (by decide)
      obtain ⟨ds, k, hds, hlayout, hproduct⟩ := Decimal.layout_eq hdigits
      rw [Numeral.shortestIn_eq hdecode hm (by rw [hn, hd]) hlayout, ← hreal, ← hbits]
      apply Lexer.token?_signed
      split_ifs
      · exact Lexer.number?_positional negative hds rfl hproduct hrest
      · exact Lexer.number?_withExponent negative hds rfl hproduct hrest

end

end Saved
end SlotGrad
