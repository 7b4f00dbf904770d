import Patchbay.Proofs.Toml.Quoted
import Patchbay.Proofs.Toml.Scalar
import Patchbay.Toml.Draft
import Patchbay.Toml.Statement

/-!
# Lines read back

The text of a draft is read line by line as the statements that the draft means
(`statements?_chars`): an assignment for each of its values, and a header for each of its tables.
-/

namespace Patchbay.Toml

variable {c : Char} {s rest : List Char}

/-! ## Values -/

/-- A string begins with a quote of either kind. -/
theorem exists_writeString_eq (s : String) :
    ∃ others, writeString s = quotationMark :: others ∨ writeString s = apostrophe :: others := by
  unfold writeString
  cases formOf s.toList with
  | basic => exact ⟨_, .inl rfl⟩
  | literal => exact ⟨_, .inr rfl⟩
  | multilineBasic => exact ⟨_, .inl rfl⟩
  | multilineLiteral => exact ⟨_, .inr rfl⟩

/-- What begins like a number is read as a scalar. -/
theorem value?_scalar (h : beginsNumber c) (fuel depth : ℕ) (s : List Char) :
    value? (fuel + 1) depth (c :: s) = scalar? (c :: s) := by
  rw [value?]
  all_goals
    intro t heq
    obtain ⟨rfl, -⟩ := List.cons.inj heq
    exact absurd h (by decide)

/-- A value is read up to the end of its line. -/
theorem value?_chars (v : DraftValue) (fuel depth : ℕ) (rest : List Char) :
    value? (fuel + 1) depth (v.chars ++ '\n' :: rest) = some (v.datum, '\n' :: rest) := by
  cases v with
  | text s =>
    have hread : string? (writeString s ++ '\n' :: rest) = some (s.toList, '\n' :: rest) :=
      string?_writeString s ⟨by simp [quotationMark], by simp [apostrophe]⟩
    have hvalue : value? (fuel + 1) depth (writeString s ++ '\n' :: rest)
        = (string? (writeString s ++ '\n' :: rest)).map fun read =>
            (.text (String.ofList read.1), read.2) := by
      -- either quote sends the reader to strings
      obtain ⟨others, heq | heq⟩ := exists_writeString_eq s <;> rw [heq] <;> rfl
    rw [DraftValue.chars, hvalue, hread, Option.map_some, DraftValue.datum]
    simp only [String.ofList_toList]
  | number x =>
    obtain ⟨c, others, heq, hc⟩ := exists_writeNumber_eq x
    have hread := scalar?_writeNumber x rest
    rw [heq] at hread
    rw [DraftValue.chars, DraftValue.datum, heq, List.cons_append, value?_scalar hc]
    exact hread

/-- A text begins with none of the characters that a test accepts. -/
theorem ne_of_test {test : Char → Bool} {d : Char} (hc : test c) (hd : test d = false) : c ≠ d :=
  fun heq => by simp [heq, hd] at hc

/-- What does not begin with a space has none to skip. -/
theorem skipSpaces_cons (h : isSpace c = false) (s : List Char) : skipSpaces (c :: s) = c :: s :=
  List.dropWhile_cons_of_neg (by simp [h])

/-- No value begins with a space. -/
theorem skipSpaces_chars (v : DraftValue) (rest : List Char) :
    skipSpaces (v.chars ++ rest) = v.chars ++ rest := by
  obtain ⟨c, others, heq, hc⟩ : ∃ c others, v.chars = c :: others ∧ isSpace c = false := by
    cases v with
    | text s =>
      obtain ⟨others, heq | heq⟩ := exists_writeString_eq s
      · exact ⟨_, others, heq, rfl⟩
      · exact ⟨_, others, heq, rfl⟩
    | number x =>
      obtain ⟨c, others, heq, hc⟩ := exists_writeNumber_eq x
      exact ⟨c, others, heq, by
        simp [isSpace, ne_of_test hc (d := ' ') rfl, ne_of_test hc (d := '\t') rfl]⟩
  rw [heq, List.cons_append, skipSpaces_cons hc]

/-! ## Keys -/

/-- Keys with dots between them. -/
def writePath (path : List String) : List Char := ['.'].intercalate (path.map writeKey)

/-- No key begins with a space. -/
theorem skipSpaces_writeKey (key : String) (rest : List Char) :
    skipSpaces (writeKey key ++ rest) = writeKey key ++ rest := by
  obtain ⟨c, others, heq, hc⟩ := exists_writeKey_eq key
  have hspace : isSpace c = false := by
    simp [isSpace, ne_of_test hc (d := ' ') rfl, ne_of_test hc (d := '\t') rfl]
  rw [heq, List.cons_append, skipSpaces_cons hspace]

theorem writePath_singleton (key : String) : writePath [key] = writeKey key := by
  simp [writePath]

theorem writePath_cons (key next : String) (path : List String) :
    writePath (key :: next :: path) = writeKey key ++ '.' :: writePath (next :: path) := by
  simp [writePath, List.intercalate_cons_cons]

/-- A path begins as its first key does. -/
theorem exists_writePath_eq {path : List String} (hne : path ≠ []) :
    ∃ c others, writePath path = c :: others ∧ beginsKey c := by
  obtain ⟨key, path, rfl⟩ := List.exists_cons_of_ne_nil hne
  obtain ⟨c, others, heq, hc⟩ := exists_writeKey_eq key
  cases path with
  | nil => exact ⟨c, others, by rw [writePath_singleton, heq], hc⟩
  | cons next path =>
    exact ⟨c, others ++ '.' :: writePath (next :: path), by rw [writePath_cons, heq]; rfl, hc⟩

/-- Keys are read again, and with them the spaces behind. -/
theorem path?_writePath {path : List String} (hne : path ≠ []) {fuel : ℕ}
    (hfuel : path.length ≤ fuel) (hbare : ∀ c ∈ rest.head?, isBare c = false)
    (hdot : (skipSpaces rest).head? ≠ some '.') :
    path? fuel (writePath path ++ rest) = some (path, skipSpaces rest) := by
  induction path generalizing fuel with
  | nil => exact absurd rfl hne
  | cons key path ih =>
    -- every key costs one unit of fuel
    obtain ⟨fuel, rfl⟩ : ∃ k, fuel = k + 1 := Nat.exists_eq_succ_of_ne_zero fun h => by
      rw [h] at hfuel
      exact absurd hfuel (Nat.not_succ_le_zero _)
    cases path with
    | nil =>
      rw [writePath_singleton, path?, skipSpaces_writeKey, key?_writeKey key hbare]
      simp only [Option.bind_eq_bind, Option.bind_some, String.ofList_toList]
      split
      next t heq => exact absurd (by rw [heq]; rfl) hdot
      next => rfl
    | cons next path =>
      have htext : writePath (key :: next :: path) ++ rest
          = writeKey key ++ '.' :: (writePath (next :: path) ++ rest) := by
        rw [writePath_cons, List.append_assoc, List.cons_append]
      have hkey : key? (writeKey key ++ '.' :: (writePath (next :: path) ++ rest))
          = some (key.toList, '.' :: (writePath (next :: path) ++ rest)) :=
        key?_writeKey key (by simp [isBare])
      rw [htext, path?, skipSpaces_writeKey, hkey]
      simp only [Option.bind_eq_bind, Option.bind_some, skipSpaces_cons (c := '.') rfl]
      rw [ih (List.cons_ne_nil _ _) (Nat.le_of_succ_le_succ hfuel), Option.bind_some,
        String.ofList_toList]

/-- Each key of a path has a character. -/
theorem length_le_writePath (path : List String) : path.length ≤ (writePath path).length := by
  induction path with
  | nil => exact Nat.zero_le _
  | cons key path ih =>
    obtain ⟨c, others, heq, -⟩ := exists_writeKey_eq key
    cases path with
    | nil => simp [writePath_singleton, heq]
    | cons next path =>
      simp only [writePath_cons, heq, List.length_append, List.length_cons] at ih ⊢
      omega

/-- A path that is not too deep is read again, and with it the spaces behind. -/
theorem keyPath?_writePath {path : List String} (hne : path ≠ [])
    (hlength : path.length < nestingLimit) (hbare : ∀ c ∈ rest.head?, isBare c = false)
    (hdot : (skipSpaces rest).head? ≠ some '.') :
    keyPath? (writePath path ++ rest) = some (path, skipSpaces rest) := by
  have hfuel : path.length ≤ (writePath path ++ rest).length + 1 := by
    have := length_le_writePath path
    rw [List.length_append]
    omega
  rw [keyPath?, path?_writePath hne hfuel hbare hdot]
  simp [hlength]

/-! ## Lines -/

/-- A line ends at its break. -/
theorem lineEnd?_break (rest : List Char) : lineEnd? ('\n' :: rest) = some rest := by
  rw [lineEnd?, skipSpaces_cons (c := '\n') rfl]
  rfl

/-- A key, an equals sign and a value are read as an assignment. -/
theorem assignment?_chars (key : String) (v : DraftValue) (rest : List Char) :
    assignment? (writeKey key ++ ' ' :: '=' :: ' ' :: (v.chars ++ '\n' :: rest))
      = some (.assign [key] v.datum, rest) := by
  have hpath : keyPath? (writeKey key ++ ' ' :: '=' :: ' ' :: (v.chars ++ '\n' :: rest))
      = some ([key], '=' :: ' ' :: (v.chars ++ '\n' :: rest)) := by
    rw [← writePath_singleton]
    exact keyPath?_writePath (List.cons_ne_nil _ _) (by simp [nestingLimit]) (by simp [isBare])
      (by simp [skipSpaces, isSpace])
  have hvalue : skipSpaces (' ' :: (v.chars ++ '\n' :: rest)) = v.chars ++ '\n' :: rest :=
    skipSpaces_chars v ('\n' :: rest)
  rw [assignment?, hpath]
  simp only [Option.bind_eq_bind, Option.bind_some, skip?, if_true, hvalue, value?_chars,
    lineEnd?_break]

/-- An assignment is read as one. -/
theorem line?_assignment (key : String) (v : DraftValue) (rest : List Char) :
    line? (writeKey key ++ ' ' :: '=' :: ' ' :: (v.chars ++ '\n' :: rest))
      = some (some (.assign [key] v.datum), rest) := by
  have hassign := assignment?_chars key v rest
  have hspaces := skipSpaces_writeKey key (' ' :: '=' :: ' ' :: (v.chars ++ '\n' :: rest))
  obtain ⟨c, others, heq, hc⟩ := exists_writeKey_eq key
  rw [heq, List.cons_append] at hassign hspaces ⊢
  rw [line?, hspaces]
  split
  case h_1 heq => cases heq
  case h_7 => rw [hassign, Option.map_some]
  -- the other lines begin with a character that no key begins with
  all_goals
    rename_i heq
    obtain ⟨rfl, -⟩ := List.cons.inj heq
    exact absurd hc (by decide)

/-- A header is read as one. -/
theorem line?_header {path : List String} (hne : path ≠ []) (hlength : path.length < nestingLimit)
    (rest : List Char) :
    line? ('[' :: (writePath path ++ ']' :: '\n' :: rest))
      = some (some (.openTable path), rest) := by
  have hpath : keyPath? (writePath path ++ ']' :: '\n' :: rest)
      = some (path, ']' :: '\n' :: rest) :=
    keyPath?_writePath hne hlength (by simp [isBare]) (by simp [skipSpaces, isSpace])
  have hfirst (t : List Char) : writePath path ++ ']' :: '\n' :: rest ≠ '[' :: t := by
    intro heq
    obtain ⟨c, others, hfirst, hc⟩ := exists_writePath_eq hne
    rw [hfirst] at heq
    exact ne_of_test hc (by decide) (List.cons.inj heq).1
  rw [line?, skipSpaces_cons (c := '[') rfl]
  split
  case h_6 heq =>
    obtain ⟨-, rfl⟩ := List.cons.inj heq
    simp only [hpath, Option.bind_eq_bind, Option.bind_some, skip?, if_true, lineEnd?_break]
  case h_5 heq => exact absurd (List.cons.inj heq).2 (hfirst _)
  case h_7 h => exact absurd rfl (h _)
  case h_1 heq => cases heq
  all_goals exact absurd (List.cons.inj ‹_›).1 (by decide)

/-! ## Texts of several lines -/

/-- A text consists of lines that are read as statements, whatever follows. -/
def Reads (text : List Char) (statements : List Statement) : Prop :=
  ∃ lines ≤ text.length, ∀ fuel rest, statements? (fuel + lines) (text ++ rest)
    = (statements? fuel rest).map (statements ++ ·)

namespace Reads

variable {text text' : List Char} {statements statements' : List Statement}

theorem nil : Reads [] [] := ⟨0, Nat.le_refl 0, fun fuel rest => by simp⟩

/-- Texts of lines may be put one behind the other. -/
theorem append (h : Reads text statements) (h' : Reads text' statements') :
    Reads (text ++ text') (statements ++ statements') := by
  obtain ⟨lines, hlines, hread⟩ := h
  obtain ⟨lines', hlines', hread'⟩ := h'
  refine ⟨lines' + lines, by rw [List.length_append]; omega, fun fuel rest => ?_⟩
  rw [← Nat.add_assoc, List.append_assoc, hread, hread', Option.map_map]
  simp only [Function.comp_def, List.append_assoc]

theorem flatMap {α : Type} {f : α → List Char} {g : α → List Statement}
    (h : ∀ a, Reads (f a) (g a)) (l : List α) : Reads (l.flatMap f) (l.flatMap g) := by
  induction l with
  | nil => exact .nil
  | cons a l ih => exact (h a).append ih

/-- A line that is read as a statement, or as nothing, is such a text. -/
theorem line {text : List Char} (statement : Option Statement) (hne : text ≠ [])
    (h : ∀ rest, line? (text ++ rest) = some (statement, rest)) : Reads text statement.toList := by
  refine ⟨1, List.length_pos_iff.mpr hne, fun fuel rest => ?_⟩
  rw [statements?]
  · simp only [h, Option.bind_eq_bind, Option.bind_some]
    cases statements? fuel rest <;> rfl
  · exact List.append_ne_nil_of_left_ne_nil hne rest

/-- A text is read as its statements. -/
theorem statements?_eq (h : Reads text statements) :
    statements? (text.length + 1) text = some statements := by
  obtain ⟨lines, hlines, hread⟩ := h
  obtain ⟨k, hk⟩ := Nat.exists_eq_add_of_le hlines
  have hall := hread (k + 1) []
  rw [List.append_nil, Nat.add_right_comm, Nat.add_comm k, ← hk] at hall
  rw [hall, statements?.eq_2 (k + 1) (Nat.succ_ne_zero k), Option.map_some, List.append_nil]

end Reads

/-! ## Drafts -/

/-- The statements of assignments. -/
def assigned (assignments : Assignments) : List Statement :=
  assignments.map fun a => .assign [a.1] a.2.datum

/-- The statements of a table. -/
def tabled (group : String) (t : String × Assignments) : List Statement :=
  .openTable [group, t.1] :: assigned t.2

/-- The statements of a group. -/
def grouped (name : String) : List (String × Assignments) → List Statement
  | [] => [.openTable [name]]
  | tables => tables.flatMap (tabled name)

/-- The statements of a draft. -/
def Draft.statements (d : Draft) : List Statement :=
  assigned d.assignments ++ d.groups.flatMap fun g => grouped g.1 g.2

/-- The lines of assignments are read as these. -/
theorem reads_assignmentLines (assignments : Assignments) :
    Reads (assignmentLines assignments) (assigned assignments) := by
  have hline (a : String × DraftValue) :
      Reads (writeKey a.1 ++ [' ', '=', ' '] ++ a.2.chars ++ ['\n']) [.assign [a.1] a.2.datum] := by
    refine .line (some _) (List.append_ne_nil_of_right_ne_nil _ (List.cons_ne_nil _ _))
      fun rest => ?_
    simpa using line?_assignment a.1 a.2 rest
  have hassigned : assigned assignments
      = assignments.flatMap fun a => [.assign [a.1] a.2.datum] := List.map_eq_flatMap
  rw [hassigned]
  exact .flatMap hline assignments

/-- A blank line and a header are read as the opening of a table. -/
theorem reads_headerLines {path : List String} (hne : path ≠ [])
    (hlength : path.length < nestingLimit) : Reads (headerLines path) [.openTable path] := by
  have hempty : Reads ['\n'] [] :=
    .line none (List.cons_ne_nil _ _) fun rest => rfl
  have hheader : Reads ('[' :: (writePath path ++ [']', '\n'])) [.openTable path] := by
    refine .line (some _) (List.cons_ne_nil _ _) fun rest => ?_
    simpa using line?_header hne hlength rest
  simpa [headerLines, writePath] using hempty.append hheader

/-- The lines of a group are read as its statements. -/
theorem reads_groupLines (name : String) (tables : List (String × Assignments)) :
    Reads (groupLines name tables) (grouped name tables) := by
  have htable (t : String × Assignments) :
      Reads (headerLines [name, t.1] ++ assignmentLines t.2) (tabled name t) :=
    (reads_headerLines (List.cons_ne_nil _ _) (by simp [nestingLimit])).append
      (reads_assignmentLines t.2)
  cases tables with
  | nil => exact reads_headerLines (List.cons_ne_nil _ _) (by simp [nestingLimit])
  | cons t tables => exact .flatMap htable (t :: tables)

/-- **Drafts read line by line.**  The text of a draft is read as the statements of the draft. -/
theorem statements?_chars (d : Draft) :
    statements? (d.chars.length + 1) d.chars = some d.statements := by
  have hgroups : Reads (d.groups.flatMap fun g => groupLines g.1 g.2)
      (d.groups.flatMap fun g => grouped g.1 g.2) :=
    .flatMap (fun g => reads_groupLines g.1 g.2) d.groups
  exact ((reads_assignmentLines d.assignments).append hgroups).statements?_eq

end Patchbay.Toml
