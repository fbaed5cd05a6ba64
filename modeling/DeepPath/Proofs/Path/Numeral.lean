import DeepPath.Path.Parse
import Mathlib.Data.List.Induction

/-!
# Numerals

How a position may be written, and how it is written by default.  A numeral is one or more decimal digits
whose value fits a 64-bit word; zeros may stand in front.  It is the default way to write its value behind
some zeros (`exists_zeros_append_toDigits`), so a numeral without a leading zero is the default one
(`IsNumeral.eq_toDigits_iff`).
-/

namespace DeepPath

/-- One or more decimal digits, with this value. -/
structure IsNumeral (digits : List Char) (index : UInt64) : Prop where
  ne_nil : digits ≠ []
  isDigit : ∀ c ∈ digits, c.isDigit
  value : Nat.ofDigitChars 10 digits 0 = index.toNat

/-- Whether digits start with a zero that is not the only digit. -/
def LeadingZero (digits : List Char) : Prop :=
  ∃ rest, rest ≠ [] ∧ digits = '0' :: rest

variable {digits : List Char} {index : UInt64}

/-- Positions are read from numerals, and from nothing else. -/
theorem readPosition_eq_ok_iff : readPosition digits = .ok index ↔ IsNumeral digits index := by
  unfold readPosition
  split_ifs with hbad hfits
  · refine ⟨nofun, fun h => ?_⟩
    simp only [Bool.or_eq_true, List.isEmpty_iff, Bool.not_eq_true', Bool.eq_false_iff,
      ne_eq, List.all_eq_true] at hbad
    rcases hbad with hnil | hdigit
    · exact absurd hnil h.ne_nil
    · exact absurd h.isDigit hdigit
  · simp only [Bool.or_eq_true, List.isEmpty_iff, Bool.not_eq_true', not_or,
      Bool.not_eq_false, List.all_eq_true] at hbad
    constructor
    · rintro ⟨⟩
      exact ⟨hbad.1, hbad.2, by simp⟩
    · intro h
      simp [h.value]
  · refine ⟨nofun, fun h => ?_⟩
    rw [h.value] at hfits
    exact absurd index.toNat_lt_size hfits

theorem isNumeral_toDigits (index : UInt64) :
    IsNumeral (Nat.toDigits 10 index.toNat) index :=
  readPosition_eq_ok_iff.mp (readPosition_toDigits index)

/-! ## Leading zeros -/

theorem digitChar_of_isDigit {c : Char} (h : c.isDigit) :
    c.toNat - '0'.toNat < 10 ∧ Nat.digitChar (c.toNat - '0'.toNat) = c := by
  obtain ⟨hlo, hhi⟩ := Char.isDigit_iff_toNat.mp h
  have hzero : '0'.toNat = 48 := rfl
  have hnine : '9'.toNat = 57 := rfl
  have hlt : c.toNat - '0'.toNat < 10 := by omega
  refine ⟨hlt, Char.toNat_inj.mp ?_⟩
  rw [Nat.toNat_digitChar_of_lt_ten hlt]
  omega

/-- Digits are zeros in front of the default way to write their value. -/
theorem exists_zeros_append_toDigits (hne : digits ≠ []) (hd : ∀ c ∈ digits, c.isDigit) :
    ∃ k, digits = List.replicate k '0' ++ Nat.toDigits 10 (Nat.ofDigitChars 10 digits 0) := by
  induction digits using List.reverseRecOn with
  | nil => exact absurd rfl hne
  | append_singleton ds c ih =>
    obtain ⟨hlt, hc⟩ := digitChar_of_isDigit (hd c (by simp))
    have hvalue : Nat.ofDigitChars 10 (ds ++ [c]) 0 =
        10 * Nat.ofDigitChars 10 ds 0 + (c.toNat - '0'.toNat) := by
      simp [Nat.ofDigitChars_append, Nat.ofDigitChars_cons]
    have hlast : Nat.toDigits 10 (c.toNat - '0'.toNat) = [c] := by
      rw [Nat.toDigits_of_lt_base hlt, hc]
    rw [hvalue]
    by_cases hds : ds = []
    · subst hds
      refine ⟨0, ?_⟩
      rw [Nat.ofDigitChars_nil, Nat.mul_zero, Nat.zero_add, hlast]
      rfl
    · obtain ⟨k, hk⟩ := ih hds fun c' hc' => hd c' (List.mem_append_left _ hc')
      by_cases hzero : Nat.ofDigitChars 10 ds 0 = 0
      · -- so far there are only zeros: the last digit is the number
        rw [hzero, Nat.toDigits_zero] at hk
        refine ⟨k + 1, ?_⟩
        rw [hzero, Nat.mul_zero, Nat.zero_add, hlast, hk, List.replicate_succ']
      · refine ⟨k, ?_⟩
        rw [← Nat.toDigits_append_toDigits (by omega) (by omega) hlt, hlast, ← List.append_assoc,
          ← hk]

theorem not_leadingZero_toDigits (n : Nat) : ¬ LeadingZero (Nat.toDigits 10 n) := by
  induction n using Nat.strongRecOn with
  | ind n ih =>
    rintro ⟨rest, hrest, h⟩
    by_cases hn : n < 10
    · rw [Nat.toDigits_of_lt_base hn] at h
      exact hrest (List.cons.inj h).2.symm
    · rw [Nat.toDigits_of_base_le (by omega) (by omega)] at h
      rcases hfront : Nat.toDigits 10 (n / 10) with _ | ⟨c, cs⟩
      · exact Nat.toDigits_ne_nil hfront
      · rw [hfront] at h
        obtain rfl : c = '0' := (List.cons.inj h).1
        by_cases hcs : cs = []
        · -- the digits in front of the last one are those of zero
          have hvalue := congrArg (Nat.ofDigitChars 10 · 0) hfront
          simp only [hcs, Nat.ofDigitChars_ten_toDigits] at hvalue
          have : n / 10 = 0 := hvalue
          omega
        · exact ih (n / 10) (by omega) ⟨cs, hcs, hfront⟩

theorem IsNumeral.exists_zeros (h : IsNumeral digits index) :
    ∃ k, digits = List.replicate k '0' ++ Nat.toDigits 10 index.toNat := by
  rw [← h.value]
  exact exists_zeros_append_toDigits h.ne_nil h.isDigit

/-- A numeral is the default one unless it has a leading zero. -/
theorem IsNumeral.eq_toDigits_iff (h : IsNumeral digits index) :
    digits = Nat.toDigits 10 index.toNat ↔ ¬ LeadingZero digits := by
  constructor
  · rintro rfl
    exact not_leadingZero_toDigits _
  · intro hlead
    obtain ⟨k, hk⟩ := h.exists_zeros
    cases k with
    | zero => exact hk
    | succ k =>
      refine absurd ⟨_, ?_, hk⟩ hlead
      simp [Nat.toDigits_ne_nil]

/-- The default way to write a position uses only digits that are in all its numerals. -/
theorem IsNumeral.toDigits_subset (h : IsNumeral digits index) :
    Nat.toDigits 10 index.toNat ⊆ digits := by
  obtain ⟨k, hk⟩ := h.exists_zeros
  rw [hk]
  exact List.subset_append_right _ _

end DeepPath
