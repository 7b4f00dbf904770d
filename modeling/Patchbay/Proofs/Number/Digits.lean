import Mathlib.Algebra.Group.Nat.Defs
import Mathlib.Data.List.Lex

/-!
# Decimal digits

Digits of one width are in the order of the numbers that they write (`ofDigitChars_lt`), and the
digits of a positive number do not begin with a zero (`head?_toDigits_ne_zero`).
-/

namespace Patchbay

/-- The digits are next to each other among the characters. -/
theorem toNat_of_isDigit {c : Char} (h : c.isDigit) : 48 ≤ c.toNat ∧ c.toNat ≤ 57 := by
  simpa [Char.isDigit, UInt32.le_iff_toNat_le] using h

/-- Digits write a number below the power of their number. -/
theorem ofDigitChars_lt_pow {text : List Char} (h : ∀ c ∈ text, c.isDigit) :
    Nat.ofDigitChars 10 text 0 < 10 ^ text.length := by
  induction text with
  | nil => exact Nat.one_pos
  | cons c rest ih =>
    obtain ⟨hc, hrest⟩ := List.forall_mem_cons.mp h
    have hdigit := toNat_of_isDigit hc
    have hzero : '0'.toNat = 48 := rfl
    rw [Nat.ofDigitChars_cons, Nat.ofDigitChars_eq_ofDigitChars_zero, List.length_cons,
      Nat.pow_succ, hzero]
    have hle : 10 ^ rest.length * (10 * 0 + (c.toNat - 48)) ≤ 10 ^ rest.length * 9 :=
      Nat.mul_le_mul_left _ (by omega)
    have := ih hrest
    omega

/-- Digits that come first stand for the smaller number. -/
theorem ofDigitChars_lt {text text' : List Char} (hdigits : ∀ c ∈ text, c.isDigit)
    (hdigits' : ∀ c ∈ text', c.isDigit) (hlength : text.length = text'.length)
    (hlt : text < text') : Nat.ofDigitChars 10 text 0 < Nat.ofDigitChars 10 text' 0 := by
  induction text generalizing text' with
  | nil =>
    rw [List.length_nil, eq_comm, List.length_eq_zero_iff] at hlength
    exact absurd (hlength ▸ hlt) (List.lt_irrefl _)
  | cons c rest ih =>
    cases text' with
    | nil => exact absurd hlt (List.not_lt_nil _)
    | cons c' rest' =>
      obtain ⟨hc, hrest⟩ := List.forall_mem_cons.mp hdigits
      obtain ⟨hc', hrest'⟩ := List.forall_mem_cons.mp hdigits'
      have hrestLength : rest.length = rest'.length := Nat.succ.inj hlength
      have hzero : '0'.toNat = 48 := rfl
      rw [Nat.ofDigitChars_cons, Nat.ofDigitChars_cons, Nat.ofDigitChars_eq_ofDigitChars_zero,
        Nat.ofDigitChars_eq_ofDigitChars_zero (l := rest'), hrestLength, hzero]
      rcases List.cons_lt_cons_iff.mp hlt with hfirst | ⟨rfl, hbehind⟩
      · have hbound := hrestLength ▸ ofDigitChars_lt_pow hrest
        have hdigit := toNat_of_isDigit hc
        have hfirst : c.toNat < c'.toNat := hfirst
        -- a smaller first digit is not made good by all those behind it
        have hmul : 10 ^ rest'.length * (10 * 0 + (c.toNat - 48) + 1)
            ≤ 10 ^ rest'.length * (10 * 0 + (c'.toNat - 48)) :=
          Nat.mul_le_mul_left _ (by omega)
        rw [Nat.mul_succ] at hmul
        omega
      · exact Nat.add_lt_add_left (ih hrest hrest' hrestLength hbehind) _

/-- The digits of a positive number do not begin with a zero. -/
theorem head?_toDigits_ne_zero {n : ℕ} (hn : 0 < n) : (Nat.toDigits 10 n).head? ≠ some '0' := by
  intro hhead
  obtain ⟨text, htext⟩ : ∃ text, Nat.toDigits 10 n = '0' :: text := by
    cases h : Nat.toDigits 10 n with
    | nil => rw [h] at hhead; cases hhead
    | cons c text => rw [h] at hhead; exact ⟨text, by rw [Option.some.inj hhead]⟩
  have hdigits : ∀ c ∈ text, c.isDigit := fun c hc =>
    Nat.isDigit_of_mem_toDigits (by omega) le_rfl (htext ▸ List.mem_cons_of_mem _ hc)
  have hvalue : Nat.ofDigitChars 10 text 0 = n := by
    have hall := Nat.ofDigitChars_ten_toDigits (n := n)
    rwa [htext, Nat.ofDigitChars_cons] at hall
  -- without the zero there are as many digits as the number needs
  have hlt := hvalue ▸ ofDigitChars_lt_pow hdigits
  have hlength : (Nat.toDigits 10 n).length = text.length + 1 := by rw [htext, List.length_cons]
  by_cases hempty : text.length = 0
  · rw [hempty] at hlt
    omega
  · have hle := (Nat.length_toDigits_le_iff (by omega) (Nat.pos_of_ne_zero hempty)).mpr hlt
    omega

end Patchbay
