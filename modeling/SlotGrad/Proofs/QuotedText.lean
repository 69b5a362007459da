import SlotGrad.Proofs.NumeralText

/-!
# Texts in quotation marks read back

A text is written in ASCII: a character that is not plain stands as an escape of one letter or
as the hexadecimal code of its one or two UTF-16 units.  Each of these forms reads back as the
character, so the whole text is the token of itself.

## Main results

* `toList_hex` — a unit in four hexadecimal digits.
* `Lexer.text?_escape` — a character inside quotation marks reads back.
* `Lexer.token?_quoted` — a text in quotation marks reads back, whatever follows.
-/

namespace SlotGrad

/-! ### Hexadecimal digits -/

theorem hexDigit?_digitChar : ∀ d < 16, Saved.Lexer.hexDigit? (Nat.digitChar d) = some d := by
  decide

/-- A number of sixteen bits in four hexadecimal digits. -/
theorem toList_hex {n : Nat} (hn : n < 0x10000) : (Text.hex 4 n).toList
    = [Nat.digitChar (n / 4096), Nat.digitChar (n / 256 % 16), Nat.digitChar (n / 16 % 16),
      Nat.digitChar (n % 16)] := by
  have hdiv₂ : n / 16 / 16 = n / 256 := Nat.div_div_eq_div_mul n 16 16
  have hdiv₃ : n / 256 / 16 = n / 4096 := Nat.div_div_eq_div_mul n 256 16
  have hstep : ∀ m, 16 ≤ m → Nat.toDigits 16 m = Nat.toDigits 16 (m / 16)
      ++ [Nat.digitChar (m % 16)] :=
    fun m hm => Nat.toDigits_of_base_le (by decide) hm
  have hlast : ∀ m, m < 16 → Nat.toDigits 16 m = [Nat.digitChar m] :=
    fun m hm => Nat.toDigits_of_lt_base hm
  unfold Text.hex
  dsimp only
  rw [String.toList_ofList]
  rcases Nat.lt_or_ge n 16 with h₁ | h₁
  · rw [hlast n h₁, show n / 4096 = 0 by omega, show n / 256 % 16 = 0 by omega,
      show n / 16 % 16 = 0 by omega, Nat.mod_eq_of_lt h₁]
    rfl
  · rw [hstep n h₁]
    rcases Nat.lt_or_ge (n / 16) 16 with h₂ | h₂
    · rw [hlast _ h₂, show n / 4096 = 0 by omega, show n / 256 % 16 = 0 by omega,
        Nat.mod_eq_of_lt h₂]
      rfl
    · rw [hstep _ h₂, hdiv₂]
      rcases Nat.lt_or_ge (n / 256) 16 with h₃ | h₃
      · rw [hlast _ h₃, show n / 4096 = 0 by omega, Nat.mod_eq_of_lt h₃]
        rfl
      · rw [hstep _ h₃, hdiv₃, hlast _ (by omega)]
        rfl

namespace Saved
namespace Lexer

/-! ### Texts -/

/-- The four digits of a unit read back. -/
theorem unit?_hex {n : Nat} (hn : n < 0x10000) :
    unit? (Nat.digitChar (n / 4096)) (Nat.digitChar (n / 256 % 16)) (Nat.digitChar (n / 16 % 16))
      (Nat.digitChar (n % 16)) = some n := by
  unfold unit?
  rw [hexDigit?_digitChar _ (by omega), hexDigit?_digitChar _ (by omega),
    hexDigit?_digitChar _ (by omega), hexDigit?_digitChar _ (by omega)]
  simp only [bind, Option.bind, pure, Option.some.injEq]
  omega

/-- A unit that is no first half stands for its character, whatever follows. -/
theorem text?_unit {a b c d : Char} {n : Nat} (hn : unit? a b c d = some n)
    (hhigh : isHigh n = false)
    (rest : List Char) : text? ('\\' :: 'u' :: a :: b :: c :: d :: rest)
      = (text? rest).map fun p => (single n :: p.1, p.2) := by
  rw [text?.eq_def]
  split
  · rename_i heq
    simp at heq
  · rename_i heq
    simp only [List.cons.injEq, true_and] at heq
    obtain ⟨rfl, rfl, rfl, rfl, rfl⟩ := heq
    rw [hn]
    simp only [bind, Option.bind, hhigh]
    rename_i a' b' c' d' rest'
    cases text? ('\\' :: 'u' :: a' :: b' :: c' :: d' :: rest') <;> rfl
  · rename_i heq
    simp only [List.cons.injEq, true_and] at heq
    obtain ⟨rfl, rfl, rfl, rfl, rfl⟩ := heq
    rw [hn]
    simp only [bind, Option.bind]
    cases text? rest <;> rfl
  · rename_i hnone heq
    simp only [List.cons.injEq, true_and] at heq
    exact (hnone _ _ _ _ _ heq.1.symm heq.2.symm).elim
  · rename_i hnone _ heq
    simp only [List.cons.injEq] at heq
    exact (hnone _ _ _ _ _ heq.1.symm heq.2.symm).elim
  · rename_i heq
    cases heq

/-- Two halves stand for their character. -/
theorem text?_pair {a b c d a' b' c' d' : Char} {high low : Nat} (hh : unit? a b c d = some high)
    (hl : unit? a' b' c' d' = some low) (hhigh : isHigh high = true) (hlow : isLow low = true)
    (rest : List Char) :
    text? ('\\' :: 'u' :: a :: b :: c :: d :: '\\' :: 'u' :: a' :: b' :: c' :: d' :: rest)
      = (text? rest).map fun p => (joined high low :: p.1, p.2) := by
  rw [text?]
  simp only [hh, hl, hhigh, hlow, bind, Option.bind, if_true]
  cases text? rest <;> rfl

/-- A one-letter escape stands for its character. -/
theorem text?_short {c e : Char} (he : shortEscape? c = some e) (rest : List Char) :
    text? ('\\' :: c :: rest) = (text? rest).map fun p => (e :: p.1, p.2) := by
  have hu : c ≠ 'u' := by
    rintro rfl
    cases he
  rw [text?.eq_def]
  split
  · rename_i heq
    cases heq
  · rename_i heq
    simp only [List.cons.injEq, true_and] at heq
    exact absurd heq.1 hu
  · rename_i heq
    simp only [List.cons.injEq, true_and] at heq
    exact absurd heq.1 hu
  · rename_i heq
    simp only [List.cons.injEq, true_and] at heq
    obtain ⟨rfl, rfl⟩ := heq
    simp only [he, bind, Option.bind]
    cases text? rest <;> rfl
  · rename_i hnone heq
    simp only [List.cons.injEq] at heq
    exact (hnone _ _ heq.1.symm heq.2.symm).elim
  · rename_i heq
    cases heq

/-- A character that needs no escape stands for itself. -/
theorem text?_plain {c : Char} (hquote : c ≠ '"') (hslash : c ≠ '\\') (hc : 0x20 ≤ c.toNat)
    (rest : List Char) : text? (c :: rest) = (text? rest).map fun p => (c :: p.1, p.2) := by
  rw [text?.eq_def]
  split
  · rename_i heq
    exact absurd (List.cons.inj heq).1 hquote
  · rename_i heq
    exact absurd (List.cons.inj heq).1 hslash
  · rename_i heq
    exact absurd (List.cons.inj heq).1 hslash
  · rename_i heq
    exact absurd (List.cons.inj heq).1 hslash
  · rename_i heq
    obtain ⟨rfl, rfl⟩ := List.cons.inj heq
    simp only [if_neg (Nat.not_lt.mpr hc), bind, Option.bind]
    cases text? rest <;> rfl
  · rename_i heq
    cases heq

/-- The code of a character stands for it. -/
theorem text?_charCode (c : Char) (rest : List Char) :
    text? ((Json.charCode c).toList ++ rest) = (text? rest).map fun p => (c :: p.1, p.2) := by
  have hvalid : c.toNat < 0xd800 ∨ 0xdfff < c.toNat ∧ c.toNat < 0x110000 := c.valid
  have hunit : ∀ n, n < 0x10000 → (Json.unitCode n).toList
      = ['\\', 'u', Nat.digitChar (n / 4096), Nat.digitChar (n / 256 % 16),
        Nat.digitChar (n / 16 % 16), Nat.digitChar (n % 16)] := by
    intro n hn
    unfold Json.unitCode
    rw [String.toList_append, toList_hex hn]
    rfl
  unfold Json.charCode
  dsimp only
  split_ifs with hplane
  -- A character of the first plane is one unit, and not half of a pair.
  · have hhalf : isHigh c.toNat = false ∧ isLow c.toNat = false := by
      unfold isHigh isLow
      simp only [Bool.and_eq_false_iff, decide_eq_false_iff_not]
      omega
    have hsingle : single c.toNat = c := by
      unfold single
      rw [hhalf.1, hhalf.2]
      exact Char.ofNat_toNat c
    have hread := text?_unit (unit?_hex hplane) hhalf.1 rest
    rw [hsingle] at hread
    rw [hunit _ hplane]
    exact hread
  -- All others are written as a pair.
  · generalize hhigh : 0xd800 + (c.toNat - 0x10000) / 0x400 = high
    generalize hlow : 0xdc00 + (c.toNat - 0x10000) % 0x400 = low
    have hjoined : joined high low = c := by
      unfold joined
      rw [show 0x10000 + 0x400 * (high - 0xd800) + (low - 0xdc00) = c.toNat by omega]
      exact Char.ofNat_toNat c
    have hread := text?_pair (unit?_hex (n := high) (by omega)) (unit?_hex (n := low) (by omega))
      (by unfold isHigh; simp only [Bool.and_eq_true, decide_eq_true_eq]; omega)
      (by unfold isLow; simp only [Bool.and_eq_true, decide_eq_true_eq]; omega) rest
    rw [hjoined] at hread
    rw [String.toList_append, hunit high (by omega), hunit low (by omega)]
    exact hread

/-- A character inside quotation marks reads back. -/
theorem text?_escape (c : Char) (rest : List Char) :
    text? ((Json.escape c).toList ++ rest) = (text? rest).map fun p => (c :: p.1, p.2) := by
  have hshort : ∀ b e, shortEscape? b = some e →
      text? ('\\' :: b :: rest) = (text? rest).map fun p => (e :: p.1, p.2) :=
    fun b e he => text?_short he rest
  unfold Json.escape
  split_ifs with h₁ h₂ h₃ h₄ h₅ h₆ h₇ hplain
  · rw [h₁]
    exact hshort '"' '"' rfl
  · rw [h₂]
    exact hshort '\\' '\\' rfl
  · rw [h₃]
    exact hshort 'n' '\n' rfl
  · rw [h₄]
    exact hshort 'r' '\r' rfl
  · rw [h₅]
    exact hshort 't' '\t' rfl
  · rw [h₆]
    exact hshort 'f' '\x0c' rfl
  · rw [h₇]
    exact hshort 'b' '\x08' rfl
  · unfold isPlainAscii at hplain
    simp only [Bool.and_eq_true, decide_eq_true_eq] at hplain
    rw [String.toList_singleton]
    exact text?_plain h₁ h₂ hplain.1 rest
  · exact text?_charCode c rest

/-- Text in quotation marks reads back. -/
theorem token?_quoted {F : Type} [Interchange F] (s : String) (rest : List Char) :
    token? (F := F) ((Json.quoted s).toList ++ rest) = some (.text s, rest) := by
  have hread : ∀ cs : List Char,
      text? (cs.flatMap (fun c => (Json.escape c).toList) ++ '"' :: rest) = some (cs, rest) := by
    intro cs
    induction cs with
    | nil => rw [List.flatMap_nil, List.nil_append, text?]
    | cons c cs ih =>
      rw [List.flatMap_cons, List.append_assoc, text?_escape, ih]
      rfl
  have htext : (Json.quoted s).toList ++ rest
      = '"' :: (s.toList.flatMap (fun c => (Json.escape c).toList) ++ '"' :: rest) := by
    unfold Json.quoted
    simp [List.flatMap_map]
  rw [htext]
  simp only [token?, hread, Option.map_some, String.ofList_toList]

end Lexer
end Saved
end SlotGrad
