import Mathlib.Data.List.TakeWhile
import Mathlib.Tactic.SplitIfs
import Patchbay.Toml.Quoted

/-!
# Strings and keys read back

Whatever form the writer takes, the reader finds the string again and stops behind it
(`string?_writeString`, `key?_writeKey`).

## Shape of the proof

* One character of a basic string is read as itself, escaped or not, by each reader that takes
  characters, letters and codes as they are meant (`ReadsEscapes.escapeChar`).
* Inside a string of several lines, marks are told from the closing ones by their number: up to two
  stand in front of another character, and three to five in front of the rest of the document, of
  which the last three close the string.  Both the escaping writer and a string without three marks
  in a row keep to this (`ClosesAfter`), and marks before such a text are read one by one
  (`ReadsMarks.mark`).
-/

namespace Patchbay.Toml

variable {c : Char} {s rest : List Char}

/-! ## Characters -/

/-- The digits of a control character write its code point. -/
theorem codePoint?_control (h : isControl c) :
    codePoint? ['0', '0', upperHexDigit (c.toNat / 16), upperHexDigit c.toNat] = some c := by
  -- there are 33 control characters below 128, so each is tried
  have hall : ∀ n < 128, (n < 32 ∨ n = 127) →
      codePoint? ['0', '0', upperHexDigit (n / 16), upperHexDigit n] = some (Char.ofNat n) := by
    decide
  have hcode : c.toNat < 32 ∨ c.toNat = 127 := by
    simp only [isControl, Bool.or_eq_true, Bool.and_eq_true, decide_eq_true_eq, beq_iff_eq] at h
    exact h.imp_left And.left
  rw [hall c.toNat (by omega) hcode, Char.ofNat_toNat]

/-- The letters of escapes are none of the characters that a reader treats apart. -/
theorem unescape?_letter {letter : Char} (h : unescape? letter = some c) (rest : List Char) :
    letter ≠ 'u' ∧ letter ≠ 'U' ∧ breaksLine (letter :: rest) = false := by
  have hletter : letter ∈ ['b', 't', 'n', 'f', 'r', quotationMark, '\\'] := by
    by_contra hnot
    simp only [List.mem_cons, List.not_mem_nil, or_false, not_or] at hnot
    simp [unescape?, hnot] at h
  have hall : ['b', 't', 'n', 'f', 'r', quotationMark, '\\'].all fun l =>
      l ≠ 'u' ∧ l ≠ 'U' ∧ isSpace l = false ∧ l ≠ '\n' ∧ l ≠ '\r' := by decide
  obtain ⟨hu, hU, hspace, hn, hr⟩ := of_decide_eq_true (List.all_eq_true.mp hall letter hletter)
  exact ⟨hu, hU, by simp [breaksLine, hspace, hn, hr]⟩

/-- A reader of basic strings takes each character as it is, or the letter or code of its escape. -/
structure ReadsEscapes (read : List Char → Option (List Char × List Char)) : Prop where
  plain {c : Char} {rest : List Char} : c ≠ quotationMark → c ≠ '\\' → isControl c = false →
    read (c :: rest) = before c (read rest)
  letter {letter c : Char} {rest : List Char} : unescape? letter = some c →
    read ('\\' :: letter :: rest) = before c (read rest)
  code {a b c d e : Char} {rest : List Char} : codePoint? [a, b, c, d] = some e →
    read ('\\' :: 'u' :: a :: b :: c :: d :: rest) = before e (read rest)

/-- The reader of basic strings reads escapes. -/
theorem readsEscapes_basic : ReadsEscapes basic? where
  plain hquote hbackslash hcontrol := by simp [basic?, hquote, hbackslash, hcontrol]
  letter {letter c rest} h := by
    obtain ⟨hu, hU, -⟩ := unescape?_letter h rest
    simp [basic?, hu, hU, h]
  code h := by simp [basic?, h]

/-- So does the reader of basic strings of several lines. -/
theorem readsEscapes_multilineBasic : ReadsEscapes (multilineBasic? false) where
  plain {c rest} hquote hbackslash hcontrol := by
    have hr : c ≠ '\r' := by
      rintro rfl
      exact absurd hcontrol (by decide)
    rw [multilineBasic?]
    · simp [hbackslash, hcontrol]
    all_goals simp_all [quotationMark]
  letter {letter c rest} h := by
    obtain ⟨hu, hU, hbreak⟩ := unescape?_letter h rest
    rw [multilineBasic?]
    · simp [hbreak, h]
    · simp [hu]
    · simp [hU]
  code h := by simp [multilineBasic?, h]

/-- A character of a basic string is read as itself. -/
theorem ReadsEscapes.escapeChar {read : List Char → Option (List Char × List Char)}
    (hread : ReadsEscapes read) (hc : c ≠ quotationMark) (rest : List Char) :
    read (escapeChar c ++ rest) = before c (read rest) := by
  -- one case for each of the six letters, then a code, then the character itself
  unfold Toml.escapeChar
  split_ifs with h₁ h₂ h₃ h₄ h₅ h₆ hcontrol
  · exact hread.letter (by rw [h₁]; rfl)
  · exact hread.letter (by rw [h₂]; rfl)
  · exact hread.letter (by rw [h₃]; rfl)
  · exact hread.letter (by rw [h₄]; rfl)
  · exact hread.letter (by rw [h₅]; rfl)
  · exact hread.letter (by rw [h₆]; rfl)
  · exact hread.code (codePoint?_control hcontrol)
  · exact hread.plain hc h₆ (by simpa using hcontrol)

/-- What is written for a character begins with a backslash or with the character. -/
theorem exists_escapeChar_eq (c : Char) :
    ∃ first others, escapeChar c = first :: others ∧
      (first = '\\' ∨ first = c ∧ isControl c = false) := by
  unfold escapeChar
  split_ifs with h₁ h₂ h₃ h₄ h₅ h₆ hcontrol
  iterate 7 exact ⟨_, _, rfl, .inl rfl⟩
  exact ⟨_, _, rfl, .inr ⟨rfl, by simpa using hcontrol⟩⟩

/-- A basic string is read up to its closing mark. -/
theorem basic?_escaped (marks : ℕ) (s rest : List Char) :
    basic? (escaped false marks s ++ quotationMark :: rest) = some (s, rest) := by
  induction s generalizing marks with
  | nil => simp [escaped, basic?, quotationMark]
  | cons c s ih =>
    by_cases hc : c = quotationMark
    · have hmark : unescape? quotationMark = some quotationMark := rfl
      rw [escaped, if_pos hc, if_neg (by simp), hc, List.cons_append, List.cons_append,
        readsEscapes_basic.letter hmark, ih, before, Option.map_some]
    · rw [escaped, if_neg hc, if_neg (by simp), List.append_assoc,
        readsEscapes_basic.escapeChar hc, ih, before, Option.map_some]

/-- A literal string is read up to its closing mark. -/
theorem literal?_append (hcontrol : ∀ c ∈ s, isControl c = false) (hmark : apostrophe ∉ s)
    (rest : List Char) : literal? (s ++ apostrophe :: rest) = some (s, rest) := by
  induction s with
  | nil => simp [literal?]
  | cons c s ih =>
    obtain ⟨hc, hs⟩ := List.forall_mem_cons.mp hcontrol
    obtain ⟨hne, hmark⟩ := not_or.mp (mt List.mem_cons.mpr hmark)
    rw [List.cons_append, literal?, if_neg (Ne.symm hne), if_neg (by simp [hc]), ih hs hmark,
      before, Option.map_some]

/-! ## Marks inside strings of several lines -/

/-- The marks at the front of a text. -/
def run (mark : Char) (s : List Char) : ℕ := (s.takeWhile (· = mark)).length

@[simp] theorem run_cons_self (mark : Char) (s : List Char) :
    run mark (mark :: s) = run mark s + 1 := by
  simp [run]

/-- Another character ends the marks. -/
theorem run_cons_of_ne {mark : Char} (h : c ≠ mark) (s : List Char) : run mark (c :: s) = 0 := by
  simp [run, h]

/-- Marks at the front are too few to close a string, or they are its last ones; `marks` of the
same run came before. -/
def ClosesAfter (mark : Char) (marks : ℕ) (s : List Char) : Prop :=
  run mark s + marks ≤ 2 ∨ 3 ≤ run mark s ∧ run mark s + marks ≤ 5

/-- The closing marks of a string, before a text that does not begin with another. -/
def closing (mark : Char) (rest : List Char) : List Char := mark :: mark :: mark :: rest

/-- The closing marks of a string, after up to two marks of the string itself. -/
theorem closesAfter_closing {mark : Char} {marks : ℕ} (hmarks : marks ≤ 2)
    (h : rest.head? ≠ some mark) : ClosesAfter mark marks (closing mark rest) := by
  have hrest : run mark rest = 0 := by
    cases rest with
    | nil => rfl
    | cons c rest => exact run_cons_of_ne (fun heq => h (by rw [heq]; rfl)) rest
  unfold ClosesAfter closing
  simp only [run_cons_self, hrest]
  omega

/-- Up to two marks do not close a string if another character follows. -/
theorem closesAfter_of_ne {mark : Char} {marks : ℕ} (hmarks : marks ≤ 2) (h : c ≠ mark)
    (s : List Char) : ClosesAfter mark marks (c :: s) := by
  unfold ClosesAfter
  rw [run_cons_of_ne h]
  omega

/-- A mark may be put in front if there was room for it. -/
theorem closesAfter_mark {mark : Char} {marks : ℕ} (h : ClosesAfter mark (marks + 1) s) :
    ClosesAfter mark marks (mark :: s) := by
  unfold ClosesAfter at h ⊢
  rw [run_cons_self]
  omega

/-- After fewer marks there is more room. -/
theorem ClosesAfter.of_le {mark : Char} {marks marks' : ℕ} (h : ClosesAfter mark marks s)
    (hle : marks' ≤ marks) : ClosesAfter mark marks' s := by
  unfold ClosesAfter at h ⊢
  omega

/-- Behind one mark there are not two more, or the string ends there. -/
theorem ClosesAfter.cases {mark : Char} (h : ClosesAfter mark 1 s) :
    (∀ t, s ≠ mark :: mark :: t) ∨ ∃ t, t.head? ≠ some mark ∧
      (s = closing mark t ∨ s = mark :: closing mark t) := by
  obtain ⟨t, hs, ht⟩ : ∃ t, s = List.replicate (run mark s) mark ++ t ∧ t.head? ≠ some mark := by
    refine ⟨s.dropWhile (· = mark), ?_, fun heq => ?_⟩
    · have hmarks : s.takeWhile (· = mark) = List.replicate (run mark s) mark :=
        List.eq_replicate_of_mem fun c hc => by simpa using List.mem_takeWhile_imp hc
      rw [← hmarks, List.takeWhile_append_dropWhile]
    · have hhead := List.head?_dropWhile_not (· = mark) s
      rw [heq] at hhead
      simp at hhead
  -- up to one mark leaves another character behind; three or four are the closing ones
  obtain hn | hn | hn | hn : run mark s = 0 ∨ run mark s = 1 ∨ run mark s = 3 ∨ run mark s = 4 := by
    unfold ClosesAfter at h
    omega
  · refine .inl fun t' heq => ht ?_
    rw [hn, List.replicate_zero, List.nil_append] at hs
    rw [← hs, heq, List.head?_cons]
  · refine .inl fun t' heq => ht ?_
    rw [hn, List.replicate_one, List.singleton_append] at hs
    rw [← List.tail_eq_of_cons_eq (heq.symm.trans hs), List.head?_cons]
  · exact .inr ⟨t, ht, .inl (hs.trans (by rw [hn]; rfl))⟩
  · exact .inr ⟨t, ht, .inr (hs.trans (by rw [hn]; rfl))⟩

/-- A reader of strings of several lines takes the marks that close a string, with one or two
before them, and other marks one by one. -/
structure ReadsMarks (mark : Char) (read : List Char → Option (List Char × List Char)) : Prop where
  alone {s : List Char} : (∀ t, s ≠ mark :: mark :: t) → read (mark :: s) = before mark (read s)
  three {rest : List Char} : rest.head? ≠ some mark → read (closing mark rest) = some ([], rest)
  four {rest : List Char} :
    rest.head? ≠ some mark → read (mark :: closing mark rest) = some ([mark], rest)
  five {rest : List Char} : read (mark :: mark :: closing mark rest) = some ([mark, mark], rest)

/-- A mark in front of such a text is read as itself. -/
theorem ReadsMarks.mark {mark : Char} {read : List Char → Option (List Char × List Char)}
    (hread : ReadsMarks mark read) (h : ClosesAfter mark 1 s) :
    read (mark :: s) = before mark (read s) := by
  -- either the mark is read alone, or the string ends behind it with four or five marks
  rcases h.cases with hs | ⟨t, ht, rfl | rfl⟩
  · exact hread.alone hs
  · rw [hread.four ht, hread.three ht, before, Option.map_some]
  · rw [hread.five, hread.four ht, before, Option.map_some]

/-! ## Strings of several lines -/

/-- The reader of basic strings of several lines reads marks. -/
theorem readsMarks_multilineBasic : ReadsMarks quotationMark (multilineBasic? false) where
  alone {s} h := by
    rw [multilineBasic?]
    -- the rules for marks that close the string need two more behind the first
    case x_2 | x_3 | x_4 => rintro t - rfl; exact h _ rfl
    · rfl
    all_goals simp [quotationMark]
  three {rest} h := by
    rw [closing, quotationMark, multilineBasic?]
    all_goals rintro t rfl; exact h rfl
  four {rest} h := by
    rw [closing, quotationMark, multilineBasic?]
    · rfl
    · rintro t rfl
      exact h rfl
  five := rfl

/-- So does the reader of literal strings of several lines. -/
theorem readsMarks_multilineLiteral : ReadsMarks apostrophe multilineLiteral? where
  alone {s} h := by
    rw [multilineLiteral?]
    case x_1 | x_2 | x_3 => rintro t - rfl; exact h _ rfl
    · rfl
    all_goals simp [apostrophe]
  three {rest} h := by
    rw [closing, apostrophe, multilineLiteral?]
    all_goals rintro t rfl; exact h rfl
  four {rest} h := by
    rw [closing, apostrophe, multilineLiteral?]
    · rfl
    · rintro t rfl
      exact h rfl
  five := rfl

/-- A line break in a string of several lines is read as itself. -/
theorem multilineBasic?_break (rest : List Char) :
    multilineBasic? false ('\n' :: rest) = before '\n' (multilineBasic? false rest) := by
  simp [multilineBasic?]

/-- The writer escapes every third mark, so what it writes closes where it is to close. -/
theorem closesAfter_escaped {marks : ℕ} (hmarks : marks ≤ 2) (s : List Char)
    (hrest : rest.head? ≠ some quotationMark) :
    ClosesAfter quotationMark marks (escaped true marks s ++ closing quotationMark rest) := by
  induction s generalizing marks with
  | nil => exact closesAfter_closing hmarks hrest
  | cons c s ih =>
    rw [escaped]
    split_ifs with hc hfew hbreak
    · rw [hc]
      exact closesAfter_mark (ih hfew.2)
    · exact closesAfter_of_ne hmarks (by decide) _
    · exact closesAfter_of_ne hmarks hc _
    · obtain ⟨first, others, heq, hfirst⟩ := exists_escapeChar_eq c
      rw [heq]
      refine closesAfter_of_ne hmarks ?_ _
      rcases hfirst with rfl | ⟨rfl, -⟩
      · decide
      · exact hc

/-- A basic string of several lines is read up to its closing marks. -/
theorem multilineBasic?_escaped {marks : ℕ} (hmarks : marks ≤ 2) (s : List Char)
    (hrest : rest.head? ≠ some quotationMark) :
    multilineBasic? false (escaped true marks s ++ closing quotationMark rest)
      = some (s, rest) := by
  induction s generalizing marks with
  | nil => exact readsMarks_multilineBasic.three hrest
  | cons c s ih =>
    rw [escaped]
    split_ifs with hc hfew hbreak
    · have hcloses := (closesAfter_escaped (by omega) s hrest).of_le (Nat.le_add_left 1 marks)
      rw [List.cons_append, hc, readsMarks_multilineBasic.mark hcloses, ih (by omega), before,
        Option.map_some]
    · have hmark : unescape? c = some c := by rw [hc]; rfl
      rw [List.cons_append, List.cons_append, readsEscapes_multilineBasic.letter hmark,
        ih (by omega), before, Option.map_some]
    · rw [List.cons_append, hbreak.2, multilineBasic?_break, ih (by omega), before, Option.map_some]
    · rw [List.append_assoc, readsEscapes_multilineBasic.escapeChar hc, ih (by omega), before,
        Option.map_some]

/-- A string without three marks in a row closes where it is to close. -/
theorem closesAfter_of_longestRun {mark : Char} {marks : ℕ} (hrun : longestRun mark marks s ≤ 2)
    (hrest : rest.head? ≠ some mark) : ClosesAfter mark marks (s ++ closing mark rest) := by
  induction s generalizing marks with
  | nil => exact closesAfter_closing hrun hrest
  | cons c s ih =>
    rw [longestRun] at hrun
    split_ifs at hrun with hc
    · rw [hc]
      exact closesAfter_mark (ih hrun)
    · exact closesAfter_of_ne ((Nat.le_max_left ..).trans hrun) hc _

/-- A literal string of several lines is read up to its closing marks. -/
theorem multilineLiteral?_append {marks : ℕ} (hcontrol : ∀ c ∈ s, isControl c → c = '\n')
    (hrun : longestRun apostrophe marks s ≤ 2) (hrest : rest.head? ≠ some apostrophe) :
    multilineLiteral? (s ++ closing apostrophe rest) = some (s, rest) := by
  induction s generalizing marks with
  | nil => exact readsMarks_multilineLiteral.three hrest
  | cons c s ih =>
    obtain ⟨hplain, hothers⟩ := List.forall_mem_cons.mp hcontrol
    rw [longestRun] at hrun
    split_ifs at hrun with hc
    · have hcloses := (closesAfter_of_longestRun hrun hrest).of_le (Nat.le_add_left 1 marks)
      rw [List.cons_append, hc, readsMarks_multilineLiteral.mark hcloses, ih hothers hrun, before,
        Option.map_some]
    · have hr : c ≠ '\r' := by
        rintro rfl
        exact absurd (hplain (by decide)) (by decide)
      have hstep (t : List Char) : multilineLiteral? (c :: t) = before c (multilineLiteral? t) := by
        rw [multilineLiteral?]
        · exact if_neg fun h => h.1 (hplain h.2)
        all_goals simp_all [apostrophe]
      rw [List.cons_append, hstep, ih hothers ((Nat.le_max_right ..).trans hrun), before,
        Option.map_some]

/-- The line break that is put in front of a string, and no other, is passed over. -/
theorem skipBreak_leadingBreak {mark : Char} {written : List Char} (hmark : isControl mark = false)
    (h : ∀ c ∈ written.head?, isControl c → '\n' ∈ s) :
    skipBreak (leadingBreak s ++ (written ++ closing mark rest))
      = written ++ closing mark rest := by
  unfold leadingBreak
  split_ifs with hn
  · rfl
  · have hfirst (c : Char) (hc : isControl c) (t : List Char) :
        written ++ closing mark rest ≠ c :: t := by
      intro heq
      cases written with
      | nil =>
        rw [(List.cons.inj heq).1, hc] at hmark
        cases hmark
      | cons d written =>
        obtain ⟨rfl, -⟩ := List.cons.inj heq
        exact hn (by simpa using h d rfl hc)
    rw [List.nil_append, skipBreak.eq_3 _ (hfirst '\n' rfl) fun t => hfirst '\r' rfl _]

/-! ## Strings and keys -/

/-- A text does not begin with a mark of strings. -/
def IsClear (rest : List Char) : Prop :=
  rest.head? ≠ some quotationMark ∧ rest.head? ≠ some apostrophe

/-- What is written of a string begins with a backslash or with a character that stays. -/
theorem exists_escaped_eq (multiline : Bool) (c : Char) (s : List Char) :
    ∃ first others, escaped multiline 0 (c :: s) = first :: others ∧
      (first = '\\' ∨ first = c ∧ (c = quotationMark → multiline) ∧
        (isControl c → c = '\n')) := by
  rw [escaped]
  split_ifs with hc hfew hbreak
  · exact ⟨_, _, rfl, .inr ⟨rfl, fun _ => hfew.1, fun h => absurd h (by rw [hc]; decide)⟩⟩
  · exact ⟨_, _, rfl, .inl rfl⟩
  · exact ⟨_, _, rfl, .inr ⟨rfl, fun h => absurd h hc, fun _ => hbreak.2⟩⟩
  · obtain ⟨first, others, heq, rfl | ⟨rfl, hplain⟩⟩ := exists_escapeChar_eq c
    · exact ⟨_, _, by rw [heq]; rfl, .inl rfl⟩
    · exact ⟨_, _, by rw [heq]; rfl, .inr ⟨rfl, fun h => absurd h hc, by simp [hplain]⟩⟩

/-- A basic string is read again. -/
theorem string?_basic (s : List Char) (hrest : rest.head? ≠ some quotationMark) :
    string? (writeAs .basic s ++ rest) = some (s, rest) := by
  have hread := basic?_escaped 0 s rest
  -- behind the opening mark there are no two more, which would open a string of several lines
  have hone (t : List Char) :
      escaped false 0 s ++ quotationMark :: rest ≠ quotationMark :: quotationMark :: t := by
    intro heq
    cases s with
    | nil => exact hrest (by rw [(List.cons.inj heq).2]; rfl)
    | cons c s =>
      obtain ⟨first, others, hfirst, hcase⟩ := exists_escaped_eq false c s
      rw [hfirst] at heq
      obtain ⟨rfl, -⟩ := List.cons.inj heq
      rcases hcase with h | ⟨h, hmark, -⟩
      · exact absurd h (by decide)
      · exact absurd (hmark h.symm) (by decide)
  have htext : writeAs .basic s ++ rest
      = quotationMark :: (escaped false 0 s ++ quotationMark :: rest) := by
    simp [writeAs]
  rw [htext, quotationMark, string?]
  · exact hread
  · exact hone

/-- A literal string is read again. -/
theorem string?_literal (hcontrol : ∀ c ∈ s, isControl c = false) (hmark : apostrophe ∉ s)
    (hrest : rest.head? ≠ some apostrophe) :
    string? (writeAs .literal s ++ rest) = some (s, rest) := by
  have hread := literal?_append hcontrol hmark rest
  have hone (t : List Char) : s ++ apostrophe :: rest ≠ apostrophe :: apostrophe :: t := by
    intro heq
    cases s with
    | nil => exact hrest (by rw [(List.cons.inj heq).2]; rfl)
    | cons c s => exact hmark (by rw [(List.cons.inj heq).1]; exact List.mem_cons_self)
  have htext : writeAs .literal s ++ rest = apostrophe :: (s ++ apostrophe :: rest) := by
    simp [writeAs]
  rw [htext, apostrophe, string?]
  · exact hread
  · exact hone

/-- A basic string of several lines is read again. -/
theorem string?_multilineBasic (s : List Char) (hrest : rest.head? ≠ some quotationMark) :
    string? (writeAs .multilineBasic s ++ rest) = some (s, rest) := by
  have htext : writeAs .multilineBasic s ++ rest = closing quotationMark
      (leadingBreak s ++ (escaped true 0 s ++ closing quotationMark rest)) := by
    simp [writeAs, closing, List.replicate]
  have hread (t : List Char) :
      string? (closing quotationMark t) = multilineBasic? false (skipBreak t) := rfl
  have hfirst : ∀ c ∈ (escaped true 0 s).head?, isControl c → '\n' ∈ s := by
    intro c hc hcontrol
    cases s with
    | nil => cases hc
    | cons d s =>
      obtain ⟨first, others, hfirst, hcase⟩ := exists_escaped_eq true d s
      rw [hfirst] at hc
      obtain rfl := Option.some.inj hc
      rcases hcase with rfl | ⟨rfl, -, hbreak⟩
      · exact absurd hcontrol (by decide)
      · exact hbreak hcontrol ▸ List.mem_cons_self
  rw [htext, hread, skipBreak_leadingBreak rfl hfirst,
    multilineBasic?_escaped (Nat.zero_le 2) s hrest]

/-- A literal string of several lines is read again. -/
theorem string?_multilineLiteral (hcontrol : ∀ c ∈ s, isControl c → c = '\n')
    (hrun : longestRun apostrophe 0 s ≤ 2) (hrest : rest.head? ≠ some apostrophe) :
    string? (writeAs .multilineLiteral s ++ rest) = some (s, rest) := by
  have htext : writeAs .multilineLiteral s ++ rest = closing apostrophe
      (leadingBreak s ++ (s ++ closing apostrophe rest)) := by
    simp [writeAs, closing, List.replicate]
  have hread (t : List Char) :
      string? (closing apostrophe t) = multilineLiteral? (skipBreak t) := rfl
  have hfirst : ∀ c ∈ s.head?, isControl c → '\n' ∈ s := by
    intro c hc hcode
    have hmem := List.mem_of_mem_head? hc
    exact hcontrol c hmem hcode ▸ hmem
  rw [htext, hread, skipBreak_leadingBreak rfl hfirst,
    multilineLiteral?_append hcontrol hrun hrest]

/-- **Strings read back.**  A string that is written as a value is read again, up to what follows
it. -/
theorem string?_writeString (s : String) (hrest : IsClear rest) :
    string? (writeString s ++ rest) = some (s.toList, rest) := by
  have hbreaks (hescape : s.toList.any needsEscape = false) :
      ∀ c ∈ s.toList, isControl c → c = '\n' := by
    intro c hc hcontrol
    have hnot := List.any_eq_false.mp hescape c hc
    simpa [needsEscape, hcontrol] using hnot
  simp only [writeString, formOf]
  -- the writer prefers forms without escapes; each case is the form that it chooses
  split_ifs with h₁ h₂ h₃ h₄ h₅
  · exact string?_basic _ hrest.1
  · obtain ⟨⟨hescape, hmark⟩, hlines⟩ : (s.toList.any needsEscape = false ∧
        apostrophe ∉ s.toList) ∧ '\n' ∉ s.toList := by simpa using h₂
    refine string?_literal (fun c hc => ?_) hmark hrest.2
    rw [← Bool.not_eq_true]
    exact fun hcontrol => hlines (hbreaks hescape c hc hcontrol ▸ hc)
  · exact string?_multilineBasic _ hrest.1
  · obtain ⟨hescape, hrun⟩ : s.toList.any needsEscape = false ∧
        longestRun apostrophe 0 s.toList ≤ 2 := by simpa using h₄
    exact string?_multilineLiteral (hbreaks hescape) hrun hrest.2
  · exact string?_multilineBasic _ hrest.1
  · exact string?_basic _ hrest.1

/-- A character that may begin a key. -/
def beginsKey (c : Char) : Bool := isBare c || c == quotationMark || c == apostrophe

/-- A key begins with a character of keys or with a quote. -/
theorem exists_writeKey_eq (key : String) :
    ∃ c others, writeKey key = c :: others ∧ beginsKey c := by
  simp only [writeKey]
  split_ifs with hbare
  · cases hkey : key.toList with
    | nil => simp [hkey] at hbare
    | cons c others =>
      have hc : isBare c := by simp_all
      exact ⟨c, others, rfl, by simp [beginsKey, hc]⟩
  all_goals exact ⟨_, _, rfl, rfl⟩

/-- A key without quotes is read up to the first character that is none of keys. -/
theorem key?_bare (hne : s ≠ []) (hbare : ∀ c ∈ s, isBare c)
    (hrest : ∀ c ∈ rest.head?, isBare c = false) : key? (s ++ rest) = some (s, rest) := by
  have htake : (s ++ rest).takeWhile isBare = s := by
    rw [List.takeWhile_append_of_pos hbare]
    cases rest with
    | nil => simp
    | cons d rest => simp [hrest d rfl]
  have hdrop : (s ++ rest).dropWhile isBare = rest := by
    rw [List.dropWhile_append_of_pos hbare]
    cases rest with
    | nil => rfl
    | cons d rest => simp [hrest d rfl]
  rw [key?]
  · rw [htake, hdrop]
    cases s with
    | nil => exact absurd rfl hne
    | cons c s => rfl
  all_goals
    intro t heq
    cases s with
    | nil => exact absurd rfl hne
    | cons c s =>
      have hc := hbare c List.mem_cons_self
      obtain ⟨rfl, -⟩ := List.cons.inj heq
      exact absurd hc (by decide)

/-- **Keys read back.**  A key that is written is read again, up to what follows it. -/
theorem key?_writeKey (key : String) (hrest : ∀ c ∈ rest.head?, isBare c = false) :
    key? (writeKey key ++ rest) = some (key.toList, rest) := by
  have hbasic : key? (writeAs .basic key.toList ++ rest) = some (key.toList, rest) := by
    have hread := basic?_escaped 0 key.toList rest
    simpa [writeAs, quotationMark, key?] using hread
  simp only [writeKey]
  split_ifs with hbare _ hliteral
  · obtain ⟨hne, hall⟩ : key.toList ≠ [] ∧ ∀ c ∈ key.toList, isBare c := by simpa using hbare
    exact key?_bare hne hall hrest
  · exact hbasic
  · obtain ⟨hcontrol, hmark⟩ : (∀ c ∈ key.toList, isControl c = false) ∧
        apostrophe ∉ key.toList := by simpa using hliteral
    have hread := literal?_append hcontrol hmark rest
    simpa [writeAs, apostrophe, key?] using hread
  · exact hbasic

end Patchbay.Toml
