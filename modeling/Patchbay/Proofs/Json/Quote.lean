import Mathlib.Tactic.SplitIfs
import Patchbay.Json.Printer
import Patchbay.Json.Reader

/-!
# String literals read back

A string literal is read up to its closing quote and not further, whatever follows, and what is read
spells the text that was written (`exists_stringPieces?`); character by character this is
`readsAs_escapeChar`.  So a literal at the front of a text is told from what comes after it
(`quote_append_inj`).
-/

namespace Patchbay.Json

/-- The four digits of a control character are its code. -/
theorem hexNumber?_control {n : Nat} (h : n < 32) :
    hexNumber? ['0', '0', hexDigit (n / 16), hexDigit n] = some n := by
  -- there are only 32 of them
  have hall : ∀ n < 32, hexNumber? ['0', '0', hexDigit (n / 16), hexDigit n] = some n := by decide
  exact hall n h

/-- A control character stands for itself beside any other piece. -/
theorem joinPieces?_control {bits : Nat} (h : bits < 32) (pieces : List Piece) :
    joinPieces? (.unit bits :: pieces) = (joinPieces? pieces).map (Char.ofNat bits :: ·) := by
  have hhigh : ¬ (0xD800 ≤ bits ∧ bits < 0xDC00) := by omega
  have hlow : ¬ (0xDC00 ≤ bits ∧ bits < 0xE000) := by omega
  have hhalf : ¬ (0xD800 ≤ bits ∧ bits < 0xE000) := by omega
  cases pieces with
  | nil => simp [joinPieces?, hhalf]
  | cons piece rest =>
    cases piece with
    | char c => simp [joinPieces?, hhalf]
    | unit low => rw [joinPieces?, if_neg hhigh, if_neg hlow]

variable {c : Char}

/-- A character of a literal is read as one piece, which spells it. -/
def ReadsAs (written : List Char) (c : Char) : Prop :=
  ∃ piece, (∀ rest, stringPieces? (written ++ rest)
      = (stringPieces? rest).map fun read => (piece :: read.1, read.2)) ∧
    ∀ pieces, joinPieces? (piece :: pieces) = (joinPieces? pieces).map (c :: ·)

/-- The letter of an escape is read as its character. -/
theorem readsAs_letter {letter : Char} (hu : letter ≠ 'u') (h : unescape? letter = some c) :
    ReadsAs ['\\', letter] c := by
  refine ⟨.char c, fun rest => ?_, fun pieces => by rw [joinPieces?]⟩
  cases hrest : stringPieces? rest <;> simp [stringPieces?, hu, h, hrest]

/-- The code of a control character is read as the character. -/
theorem readsAs_control (h : c.toNat < 32) :
    ReadsAs ['\\', 'u', '0', '0', hexDigit (c.toNat / 16), hexDigit c.toNat] c := by
  refine ⟨.unit c.toNat, fun rest => ?_, fun pieces => ?_⟩
  · cases hrest : stringPieces? rest <;> simp [stringPieces?, hexNumber?_control h, hrest]
  · rw [joinPieces?_control h, Char.ofNat_toNat]

/-- A character that is not escaped is read as itself. -/
theorem readsAs_self (hquote : c ≠ '\x22') (hbackslash : c ≠ '\\') (h : ¬ c.toNat < 32) :
    ReadsAs [c] c := by
  refine ⟨.char c, fun rest => ?_, fun pieces => by rw [joinPieces?]⟩
  cases hrest : stringPieces? rest <;> simp [stringPieces?, hquote, hbackslash, h, hrest]

/-- Every character of a literal is read as itself. -/
theorem readsAs_escapeChar (c : Char) : ReadsAs (escapeChar c) c := by
  unfold escapeChar
  -- seven characters with a letter of their own, the other control characters, and the rest
  split_ifs with h₁ h₂ h₃ h₄ h₅ h₆ h₇ hcontrol
  · exact readsAs_letter (by decide) (by rw [h₁]; rfl)
  · exact readsAs_letter (by decide) (by rw [h₂]; rfl)
  · exact readsAs_letter (by decide) (by rw [h₃]; rfl)
  · exact readsAs_letter (by decide) (by rw [h₄]; rfl)
  · exact readsAs_letter (by decide) (by rw [h₅]; rfl)
  · exact readsAs_letter (by decide) (by rw [h₆]; rfl)
  · exact readsAs_letter (by decide) (by rw [h₇]; rfl)
  · exact readsAs_control hcontrol
  · exact readsAs_self h₁ h₂ hcontrol

/-- The contents of a literal are read up to the closing quote, and spell what was written. -/
theorem exists_stringPieces? (s rest : List Char) :
    ∃ pieces, stringPieces? (s.flatMap escapeChar ++ '\x22' :: rest) = some (pieces, rest) ∧
      joinPieces? pieces = some s := by
  induction s with
  | nil => exact ⟨[], by simp [stringPieces?], by simp [joinPieces?]⟩
  | cons c s ih =>
    obtain ⟨pieces, hread, hjoin⟩ := ih
    obtain ⟨piece, hpiece, hspell⟩ := readsAs_escapeChar c
    refine ⟨piece :: pieces, ?_, ?_⟩
    · rw [List.flatMap_cons, List.append_assoc, hpiece, hread, Option.map_some]
    · rw [hspell, hjoin, Option.map_some]

/-- Two texts that begin with literals are the same only if the literals are. -/
theorem quote_append_inj {s t : String} {rest rest' : List Char}
    (h : quote s ++ rest = quote t ++ rest') : s = t ∧ rest = rest' := by
  obtain ⟨pieces, hread, hjoin⟩ := exists_stringPieces? s.toList rest
  obtain ⟨pieces', hread', hjoin'⟩ := exists_stringPieces? t.toList rest'
  have hcontents : s.toList.flatMap escapeChar ++ '\x22' :: rest
      = t.toList.flatMap escapeChar ++ '\x22' :: rest' := by
    simpa [quote] using h
  -- both are read up to the closing quote of the same text
  rw [hcontents, hread'] at hread
  obtain ⟨rfl, rfl⟩ := Prod.mk.inj (Option.some.inj hread)
  exact ⟨String.toList_inj.mp (Option.some.inj (hjoin.symm.trans hjoin')), rfl⟩

end Patchbay.Json
