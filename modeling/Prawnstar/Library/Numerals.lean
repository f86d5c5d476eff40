import Mathlib.Algebra.Group.Nat.Defs
import Mathlib.Tactic.Common

/-!
# Decimal numerals with leading zeros

A numeral is a text of decimal digits. It is the decimal expansion of its value
after some zeros, so the numerals of one width are the texts that padding makes
of the numbers that fit the width.
-/

namespace Library

/-- A text of decimal digits. -/
structure IsNumeral (cs : List Char) : Prop where
  /-- There is a digit. -/
  ne_nil : cs ≠ []
  /-- Every character is one. -/
  digits : ∀ c ∈ cs, c.isDigit = true

/-- The value of a numeral. -/
def numeralValue (cs : List Char) : ℕ := Nat.ofDigitChars 10 cs 0

/-- The decimal expansion of a number after as many zeros as fill a width. -/
def numeral (width n : ℕ) : List Char :=
  List.replicate (width - (Nat.toDigits 10 n).length) '0' ++ Nat.toDigits 10 n

/-- The codes of the digits. -/
theorem digit_range {c : Char} (h : c.isDigit = true) : 48 ≤ c.toNat ∧ c.toNat ≤ 57 := by
  simpa [Char.isDigit, Char.le_def, UInt32.le_iff_toNat_le] using h

/-- A digit is the digit of a number below ten. -/
theorem exists_digitChar {c : Char} (h : c.isDigit = true) : ∃ d < 10, c = Nat.digitChar d := by
  have hrange := digit_range h
  refine ⟨c.toNat - 48, by omega, Char.toNat_inj.mp ?_⟩
  rw [Nat.toNat_digitChar_of_lt_ten (by omega)]
  omega

/-- Digits after a positive number continue its decimal expansion. -/
theorem toDigits_append {cs : List Char} (h : ∀ c ∈ cs, c.isDigit = true) {n : ℕ} (hn : 0 < n) :
    Nat.toDigits 10 n ++ cs = Nat.toDigits 10 (Nat.ofDigitChars 10 cs n) := by
  induction cs generalizing n with
  | nil => rw [List.append_nil, Nat.ofDigitChars_nil]
  | cons c cs ih =>
    obtain ⟨d, hd, rfl⟩ := exists_digitChar (h c List.mem_cons_self)
    have hstep := Nat.toDigits_append_toDigits (b := 10) (by decide) hn hd
    rw [Nat.toDigits_of_lt_base hd] at hstep
    rw [Nat.ofDigitChars_cons_digitChar_of_lt_ten hd,
      ← ih (fun b hb => h b (List.mem_cons_of_mem _ hb)) (by omega), ← hstep,
      List.append_assoc, List.singleton_append]

/-- **Numerals** are decimal expansions after zeros. -/
theorem IsNumeral.eq_zeros_append {cs : List Char} (h : IsNumeral cs) :
    ∃ k, cs = List.replicate k '0' ++ Nat.toDigits 10 (numeralValue cs) := by
  obtain ⟨hne, hdigits⟩ := h
  unfold numeralValue
  induction cs with
  | nil => exact absurd rfl hne
  | cons c cs ih =>
    have hrest : ∀ b ∈ cs, b.isDigit = true := fun b hb => hdigits b (List.mem_cons_of_mem _ hb)
    obtain ⟨d, hd, rfl⟩ := exists_digitChar (hdigits c List.mem_cons_self)
    rw [Nat.ofDigitChars_cons_digitChar_of_lt_ten hd, Nat.mul_zero, Nat.zero_add]
    rcases Nat.eq_zero_or_pos d with rfl | hpos
    · by_cases hnil : cs = []
      · exact ⟨0, by simp [hnil]⟩
      · obtain ⟨k, hk⟩ := ih hnil hrest
        refine ⟨k + 1, ?_⟩
        rw [List.replicate_succ, List.cons_append, ← hk]
        rfl
    · refine ⟨0, ?_⟩
      have happend := toDigits_append hrest hpos
      rwa [Nat.toDigits_of_lt_base hd, List.singleton_append] at happend

/-- A decimal expansion is a numeral. -/
theorem isNumeral_toDigits (n : ℕ) : IsNumeral (Nat.toDigits 10 n) :=
  ⟨Nat.toDigits_ne_nil, fun _ hc => Nat.isDigit_of_mem_toDigits (by decide) (by decide) hc⟩

/-- The value of a decimal expansion is the number. -/
@[simp] theorem numeralValue_toDigits (n : ℕ) : numeralValue (Nat.toDigits 10 n) = n :=
  Nat.ofDigitChars_ten_toDigits

/-- Zeros before a numeral do not count. -/
theorem numeralValue_zeros_append (k : ℕ) (cs : List Char) :
    numeralValue (List.replicate k '0' ++ cs) = numeralValue cs := by
  unfold numeralValue
  rw [Nat.ofDigitChars_append, Nat.ofDigitChars_replicate_zero, Nat.mul_zero]

/-- A padded number is a numeral. -/
theorem isNumeral_numeral (width n : ℕ) : IsNumeral (numeral width n) := by
  have hexpansion := isNumeral_toDigits n
  refine ⟨fun h => hexpansion.ne_nil (List.append_eq_nil_iff.mp h).2, fun c hc => ?_⟩
  rcases List.mem_append.mp hc with hzero | hdigit
  · rw [(List.mem_replicate.mp hzero).2]
    rfl
  · exact hexpansion.digits c hdigit

/-- The value of a padded number is the number. -/
theorem numeralValue_numeral (width n : ℕ) : numeralValue (numeral width n) = n := by
  rw [numeral, numeralValue_zeros_append, numeralValue_toDigits]

/-- A number that fits is padded to the width. -/
theorem length_numeral {width n : ℕ} (hwidth : 0 < width) (hfits : n < 10 ^ width) :
    (numeral width n).length = width := by
  have hle := (Nat.length_toDigits_le_iff (by decide) hwidth).mpr hfits
  rw [numeral, List.length_append, List.length_replicate]
  omega

/-- **The numerals of a value** are its decimal expansions after zeros. -/
theorem IsNumeral.value_eq_iff {cs : List Char} (h : IsNumeral cs) {v : ℕ} :
    numeralValue cs = v ↔ ∃ k, cs = List.replicate k '0' ++ Nat.toDigits 10 v := by
  constructor
  · rintro rfl
    exact h.eq_zeros_append
  · rintro ⟨k, rfl⟩
    rw [numeralValue_zeros_append, numeralValue_toDigits]

end Library
