import Mathlib.Data.Set.Insert
import Patchbay.Pattern
import Patchbay.Proofs.Json.Quote
import Patchbay.Proofs.Number.Numeral

/-!
# Code is read in one way

Different expressions have different code, and so have different lines of expressions
(`Pattern.line_injective`), as long as the names in them hold none of the characters of the grammar
and the numbers are finite.

## Shape of the proof

Each part of an expression is told from what is written after it, provided that this goes on with a
character that the part cannot go on with itself (`Delimited`):

* a name from a parenthesis (`delimited_name`);
* a literal from a parenthesis or a comma (`Value.delimited_literalChars`): a text ends at its
  quote, and other literals hold no such characters;
* a call from anything, since it ends at its parenthesis (`Pattern.delimited_callChars`);
* a list from what does not go on with its separator (`Delimited.flatMap`), which gives the
  arguments, the transforms and the line;
* an expression from a parenthesis, a comma or a space (`Pattern.delimited_chars`), by induction on
  the expression.
-/

namespace Patchbay

/-! ## Parts of a text -/

section Delimited

variable {α : Type} {f : α → List Char} {valid : α → Prop} {stops stops' : Set Char}

/-- The text ends, or goes on with one of the stops. -/
def GoesOn (stops : Set Char) (rest : List Char) : Prop := ∀ c ∈ rest.head?, c ∈ stops

/-- A text that ends goes on with anything. -/
theorem goesOn_nil (stops : Set Char) : GoesOn stops [] := fun _ h => absurd h (by simp)

theorem goesOn_cons {c : Char} {rest : List Char} (h : c ∈ stops) : GoesOn stops (c :: rest) :=
  fun d hd => by
    obtain rfl := Option.mem_some.mp hd
    exact h

/-- What is written in front of a text that goes on with one of the stops can be told from it. -/
def Delimited (stops : Set Char) (f : α → List Char) (valid : α → Prop) : Prop :=
  ∀ ⦃a b : α⦄, valid a → valid b → ∀ ⦃rest rest' : List Char⦄, GoesOn stops rest →
    GoesOn stops rest' → f a ++ rest = f b ++ rest' → a = b ∧ rest = rest'

/-- Parts without a stop in them end at the first stop. -/
theorem append_inj_of_goesOn {l l' rest rest' : List Char} (hl : ∀ c ∈ l, c ∉ stops)
    (hl' : ∀ c ∈ l', c ∉ stops) (hrest : GoesOn stops rest) (hrest' : GoesOn stops rest')
    (h : l ++ rest = l' ++ rest') : l = l' ∧ rest = rest' := by
  -- letter by letter, as long as neither part has ended
  induction l generalizing l' with
  | nil =>
    cases l' with
    | nil => exact ⟨rfl, h⟩
    | cons c l' =>
      have h : rest = c :: (l' ++ rest') := h
      exact absurd (hrest c (h ▸ rfl)) (hl' c List.mem_cons_self)
  | cons c l ih =>
    cases l' with
    | nil =>
      have h : c :: (l ++ rest) = rest' := h
      exact absurd (hrest' c (h ▸ rfl)) (hl c List.mem_cons_self)
    | cons d l' =>
      obtain ⟨rfl, htail⟩ := List.cons.inj h
      obtain ⟨rfl, rfl⟩ := ih (fun c hc => hl c (List.mem_cons_of_mem _ hc))
        (fun c hc => hl' c (List.mem_cons_of_mem _ hc)) htail
      exact ⟨rfl, rfl⟩

/-- Parts without a stop in them are delimited if different ones are written differently. -/
theorem delimited_of_notMem (hmem : ∀ a, valid a → ∀ c ∈ f a, c ∉ stops)
    (hinj : ∀ a b, valid a → valid b → f a = f b → a = b) : Delimited stops f valid := by
  intro a b ha hb rest rest' hrest hrest' h
  obtain ⟨hsame, hrest⟩ := append_inj_of_goesOn (hmem a ha) (hmem b hb) hrest hrest' h
  exact ⟨hinj a b ha hb hsame, hrest⟩

/-- A list with a separator before each item ends where no separator follows. -/
theorem Delimited.flatMap (separator : Char) (h : Delimited stops f valid)
    (hseparator : separator ∈ stops) (hstops : stops' ⊆ stops) (hnot : separator ∉ stops') :
    Delimited stops' (fun items : List α => items.flatMap fun a => separator :: f a)
      (fun items => ∀ a ∈ items, valid a) := by
  -- behind an item there is the separator or what is behind the list, either of which stops the
  -- item
  have hgoes : ∀ (items : List α) {rest : List Char}, GoesOn stops' rest →
      GoesOn stops ((items.flatMap fun a => separator :: f a) ++ rest) := by
    intro items rest hrest
    cases items with
    | nil => exact fun c hc => hstops (hrest c hc)
    | cons a items => exact goesOn_cons hseparator
  intro as bs has hbs rest rest' hrest hrest' htext
  dsimp only at htext
  induction as generalizing bs with
  | nil =>
    cases bs with
    | nil => exact ⟨rfl, htext⟩
    | cons b bs =>
      have htext : rest = separator :: _ := htext
      exact absurd (hrest separator (htext ▸ rfl)) hnot
  | cons a as ih =>
    cases bs with
    | nil =>
      have htext : separator :: _ = rest' := htext
      exact absurd (hrest' separator (htext ▸ rfl)) hnot
    | cons b bs =>
      rw [List.flatMap_cons, List.flatMap_cons, List.append_assoc, List.append_assoc,
        List.cons_append, List.cons_append] at htext
      obtain ⟨rfl, hmore⟩ := h (has a List.mem_cons_self) (hbs b List.mem_cons_self)
        (hgoes as hrest) (hgoes bs hrest') (List.cons.inj htext).2
      obtain ⟨rfl, rfl⟩ := ih (fun a ha => has a (List.mem_cons_of_mem _ ha))
        (fun b hb => hbs b (List.mem_cons_of_mem _ hb)) hmore
      exact ⟨rfl, rfl⟩

end Delimited

/-! ## Names -/

/-- A name of the pattern language: there is something in it, and none of the characters that
expressions are put together with. -/
def IsName (name : String) : Prop :=
  name ≠ "" ∧ ∀ c ∈ name.toList, c ∉ ['(', ')', '.', ',', '\x22', ' ']

-- the letters of the name are checked, and not every character there is
instance (name : String) : Decidable (IsName name) :=
  let _ : Decidable (∀ c ∈ name.toList, c ∉ ['(', ')', '.', ',', '\x22', ' ']) :=
    List.decidableBAll _ name.toList
  inferInstanceAs (Decidable (name ≠ "" ∧ ∀ c ∈ name.toList, _))

/-- A name has a first letter, and that is none of the characters of the grammar. -/
theorem IsName.exists_cons {name : String} (h : IsName name) :
    ∃ c rest, name.toList = c :: rest ∧ c ∉ ['(', ')', '.', ',', '\x22', ' '] := by
  obtain ⟨c, rest, hname⟩ := List.exists_cons_of_ne_nil (mt String.toList_eq_nil_iff.mp h.1)
  exact ⟨c, rest, hname, h.2 c (hname ▸ List.mem_cons_self)⟩

/-- A name ends at the parenthesis. -/
theorem delimited_name : Delimited {'('} String.toList IsName := by
  refine delimited_of_notMem (fun name hname c hc hstop => ?_)
    fun _ _ _ _ h => String.toList_inj.mp h
  obtain rfl := Set.mem_singleton_iff.mp hstop
  exact hname.2 _ hc (by decide)

/-! ## Literals -/

namespace Value

variable {v w : Value}

/-- A literal without quotes. -/
def Plain (v : Value) : Prop := v.isFinite ∧ ∀ s, v ≠ .text s

/-- A literal without quotes consists of letters, digits, points and signs. -/
theorem mem_literalChars (hv : v.Plain) {c : Char} (hc : c ∈ v.literalChars) :
    c.isAlphanum ∨ c = '.' ∨ c = '-' := by
  cases v with
  | flag on =>
    have hletters : (flag on).literalChars.all Char.isAlphanum := by cases on <;> rfl
    exact .inl (List.all_eq_true.mp hletters c hc)
  | number x =>
    refine (mem_text hv.1 hc).imp_left fun hdigit => ?_
    rw [Char.isAlphanum, hdigit, Bool.or_true]
  | text s => exact absurd rfl (hv.2 s)

theorem literalChars_ne_nil (hv : v.Plain) : v.literalChars ≠ [] := by
  cases v with
  | flag on => cases on <;> exact List.cons_ne_nil _ _
  | number x => exact text_ne_nil hv.1
  | text s => exact absurd rfl (hv.2 s)

/-- A word begins with a letter that is in no numeral. -/
theorem literalChars_flag_ne_number (on : Bool) {x : Binary64} (hx : x.isFinite) :
    (flag on).literalChars ≠ (number x).literalChars := by
  intro h
  cases on with
  | false =>
    have h : 'f' :: _ = numberStyle.text x := h
    exact absurd (mem_text hx (h ▸ List.mem_cons_self)) (by decide)
  | true =>
    have h : 't' :: _ = numberStyle.text x := h
    exact absurd (mem_text hx (h ▸ List.mem_cons_self)) (by decide)

/-- Different literals without quotes are written differently. -/
theorem literalChars_injective (hv : v.Plain) (hw : w.Plain)
    (h : v.literalChars = w.literalChars) : v = w := by
  cases v with
  | text s => exact absurd rfl (hv.2 s)
  | flag on =>
    cases w with
    | text t => exact absurd rfl (hw.2 t)
    | flag on' =>
      cases on <;> cases on' <;> first | rfl | exact absurd h (by decide)
    | number y => exact absurd h (literalChars_flag_ne_number on hw.1)
  | number x =>
    cases w with
    | text t => exact absurd rfl (hw.2 t)
    | flag on' => exact absurd h.symm (literalChars_flag_ne_number on' hv.1)
    | number y => rw [text_injective hv.1 hw.1 h]

/-- Characters that end a literal without quotes. -/
theorem notMem_literalChars (hv : v.Plain) :
    ∀ c ∈ v.literalChars, c ∉ ({'(', ')', ','} : Set Char) := by
  intro c hc hstop
  have hchar := mem_literalChars hv hc
  rcases hstop with rfl | rfl | rfl <;> exact absurd hchar (by decide)

/-- A quoted text is no literal without quotes. -/
theorem quote_ne_literalChars (hw : w.Plain) (s : String) (rest rest' : List Char) :
    Json.quote s ++ rest ≠ w.literalChars ++ rest' := by
  intro h
  obtain ⟨c, tail, hchars⟩ := List.exists_cons_of_ne_nil (literalChars_ne_nil hw)
  have hquote : '\x22' ∈ w.literalChars := by
    rw [hchars] at h ⊢
    exact (List.cons.inj h).1 ▸ List.mem_cons_self
  exact absurd (mem_literalChars hw hquote) (by decide)

/-- A literal has quotes or not. -/
theorem plain_or_text (hv : v.isFinite) : v.Plain ∨ ∃ s, v = .text s := by
  by_cases htext : ∃ s, v = .text s
  · exact .inr htext
  · exact .inl ⟨hv, not_exists.mp htext⟩

/-- A literal ends at a comma or a parenthesis. -/
theorem delimited_literalChars : Delimited {')', ','} literalChars (isFinite · = true) := by
  intro v w hv hw rest rest' hrest hrest' h
  -- a quote tells texts from other literals, and texts are told apart by their closing quotes
  rcases plain_or_text hv with hplain | ⟨s, rfl⟩ <;> rcases plain_or_text hw with hplain' | ⟨t, rfl⟩
  · obtain ⟨hsame, hrest⟩ := append_inj_of_goesOn
      (fun c hc hstop => notMem_literalChars hplain c hc (.inr hstop))
      (fun c hc hstop => notMem_literalChars hplain' c hc (.inr hstop)) hrest hrest' h
    exact ⟨literalChars_injective hplain hplain' hsame, hrest⟩
  · exact absurd h.symm (quote_ne_literalChars hplain t rest' rest)
  · exact absurd h (quote_ne_literalChars hplain' s rest rest')
  · obtain ⟨rfl, hrest⟩ := Json.quote_append_inj h
    exact ⟨rfl, hrest⟩

/-- A literal does not begin with a parenthesis. -/
theorem literalChars_append_ne (hv : v.isFinite) (rest rest' : List Char) :
    v.literalChars ++ rest ≠ ')' :: rest' := by
  rcases plain_or_text hv with hplain | ⟨s, rfl⟩
  · obtain ⟨c, tail, hchars⟩ := List.exists_cons_of_ne_nil (literalChars_ne_nil hplain)
    intro h
    rw [hchars, List.cons_append] at h
    refine notMem_literalChars hplain ')' ?_ (.inr (.inl rfl))
    rw [hchars, (List.cons.inj h).1]
    exact List.mem_cons_self
  · exact fun h => absurd (List.cons.inj h).1 (by decide)

end Value

/-! ## Calls -/

/-- A transform with names and numbers that can be read. -/
def Transform.WellFormed (t : Transform) : Prop := IsName t.name ∧ ∀ v ∈ t.argument, v.isFinite

instance (t : Transform) : Decidable t.WellFormed :=
  inferInstanceAs (Decidable (IsName t.name ∧ ∀ v ∈ t.argument, v.isFinite))

namespace Pattern

/-- An expression with names and numbers that can be read. -/
def WellFormed : Pattern → Prop
  | call name arguments transforms =>
    IsName name ∧ (∀ v ∈ arguments, v.isFinite) ∧ ∀ t ∈ transforms, t.WellFormed
  | wrap name inner arguments transforms =>
    IsName name ∧ inner.WellFormed ∧ (∀ v ∈ arguments, v.isFinite) ∧
      ∀ t ∈ transforms, t.WellFormed

/-- Names and numbers are checked part by part. -/
def decidableWellFormed : (p : Pattern) → Decidable p.WellFormed
  | call name arguments transforms => inferInstanceAs (Decidable (IsName name ∧
      (∀ v ∈ arguments, v.isFinite) ∧ ∀ t ∈ transforms, t.WellFormed))
  | wrap name inner arguments transforms =>
    let _ := decidableWellFormed inner
    inferInstanceAs (Decidable (IsName name ∧ inner.WellFormed ∧
      (∀ v ∈ arguments, v.isFinite) ∧ ∀ t ∈ transforms, t.WellFormed))

instance (p : Pattern) : Decidable p.WellFormed := decidableWellFormed p

/-- The arguments end at the parenthesis. -/
theorem delimited_moreArguments :
    Delimited {')'} moreArguments (fun arguments => ∀ v ∈ arguments, v.isFinite) := by
  have hspaced :
      Delimited {')', ','} (fun v : Value => ' ' :: v.literalChars) (·.isFinite = true) :=
    fun v w hv hw rest rest' hrest hrest' h =>
      Value.delimited_literalChars hv hw hrest hrest' (List.cons.inj h).2
  exact hspaced.flatMap ',' (by simp) (by simp) (by simp)

/-- The first argument has no comma before it. -/
theorem drop_moreArguments_cons (v : Value) (arguments : List Value) :
    (moreArguments (v :: arguments)).drop 2 = v.literalChars ++ moreArguments arguments := rfl

/-- Behind an argument is a comma or a parenthesis. -/
theorem goesOn_moreArguments (arguments : List Value) (rest : List Char) :
    GoesOn {')', ','} (moreArguments arguments ++ ')' :: rest) := by
  cases arguments with
  | nil => exact goesOn_cons (by simp)
  | cons v arguments => exact goesOn_cons (by simp)

/-- Arguments end at the parenthesis. -/
theorem drop_moreArguments_append_inj {arguments arguments' : List Value}
    (h : ∀ v ∈ arguments, v.isFinite) (h' : ∀ v ∈ arguments', v.isFinite) {rest rest' : List Char}
    (htext : (moreArguments arguments).drop 2 ++ ')' :: rest
      = (moreArguments arguments').drop 2 ++ ')' :: rest') :
    arguments = arguments' ∧ rest = rest' := by
  cases arguments with
  | nil =>
    cases arguments' with
    | nil => exact ⟨rfl, (List.cons.inj htext).2⟩
    | cons w more' =>
      rw [drop_moreArguments_cons, List.append_assoc] at htext
      exact absurd htext.symm (Value.literalChars_append_ne (h' w List.mem_cons_self) _ _)
  | cons v more =>
    cases arguments' with
    | nil =>
      rw [drop_moreArguments_cons, List.append_assoc] at htext
      exact absurd htext (Value.literalChars_append_ne (h v List.mem_cons_self) _ _)
    | cons w more' =>
      rw [drop_moreArguments_cons, drop_moreArguments_cons, List.append_assoc,
        List.append_assoc] at htext
      obtain ⟨rfl, hmore⟩ := Value.delimited_literalChars (h v List.mem_cons_self)
        (h' w List.mem_cons_self) (goesOn_moreArguments _ _) (goesOn_moreArguments _ _) htext
      obtain ⟨rfl, hrest⟩ := delimited_moreArguments
        (fun v hv => h v (List.mem_cons_of_mem _ hv)) (fun v hv => h' v (List.mem_cons_of_mem _ hv))
        (goesOn_cons rfl) (goesOn_cons rfl) hmore
      exact ⟨rfl, (List.cons.inj hrest).2⟩

end Pattern

namespace Transform

/-- What is written of a transform after its point. -/
def callChars (t : Transform) : List Char :=
  t.name.toList ++ '(' :: ((Pattern.moreArguments t.argument.toList).drop 2 ++ [')'])

/-- A transform is a call behind a point. -/
theorem chars_eq (t : Transform) : t.chars = '.' :: t.callChars := by
  cases h : t.argument <;> simp [chars, callChars, Pattern.moreArguments, h]

/-- A call, with the text behind it moved behind its parenthesis. -/
theorem callChars_append (name : String) (argument : Option Value) (rest : List Char) :
    (mk name argument).callChars ++ rest
      = name.toList ++ '(' :: ((Pattern.moreArguments argument.toList).drop 2 ++ ')' :: rest) := by
  simp [callChars]

/-- A call is delimited whatever is behind it. -/
theorem delimited_callChars : Delimited Set.univ callChars WellFormed := by
  rintro ⟨name, argument⟩ ⟨name', argument'⟩ h h' rest rest' - - htext
  rw [callChars_append, callChars_append] at htext
  obtain ⟨rfl, hopen⟩ := delimited_name h.1 h'.1 (goesOn_cons rfl) (goesOn_cons rfl) htext
  obtain ⟨hargument, hrest⟩ := Pattern.drop_moreArguments_append_inj
    (fun v hv => h.2 v (Option.mem_toList.mp hv)) (fun v hv => h'.2 v (Option.mem_toList.mp hv))
    (List.cons.inj hopen).2
  -- a transform has one argument at most, so the list of its arguments determines it
  obtain rfl : argument = argument' := by
    simpa only [Option.head?_toList] using congrArg List.head? hargument
  exact ⟨rfl, hrest⟩

end Transform

namespace Pattern

/-- The transforms end where no point follows. -/
theorem delimited_transforms :
    Delimited {c | c ≠ '.'} (fun transforms : List Transform => transforms.flatMap Transform.chars)
      (fun transforms => ∀ t ∈ transforms, t.WellFormed) := by
  have hpoints := Transform.delimited_callChars.flatMap '.' (Set.mem_univ _)
    (Set.subset_univ {c | c ≠ '.'}) (fun h => h rfl)
  simpa only [← Transform.chars_eq] using hpoints

/-! ## Expressions -/

section Chars

variable {name : String} {inner : Pattern} {arguments : List Value} {transforms : List Transform}

/-- The text of a call, with what is behind it moved to its end. -/
theorem chars_call_append (rest : List Char) :
    (call name arguments transforms).chars ++ rest
      = name.toList ++ '(' :: ((moreArguments arguments).drop 2
        ++ ')' :: (transforms.flatMap Transform.chars ++ rest)) := by
  simp [chars]

/-- The text of an enclosing call, with what is behind it moved to its end. -/
theorem chars_wrap_append (rest : List Char) :
    (wrap name inner arguments transforms).chars ++ rest
      = name.toList ++ '(' :: (inner.chars
        ++ (moreArguments arguments ++ ')' :: (transforms.flatMap Transform.chars ++ rest))) := by
  simp [chars]

end Chars

/-- An expression begins with a name and a parenthesis. -/
theorem exists_chars_append {p : Pattern} (h : p.WellFormed) (rest : List Char) :
    ∃ name tail, IsName name ∧ p.chars ++ rest = name.toList ++ '(' :: tail := by
  cases p with
  | call name arguments transforms => exact ⟨name, _, h.1, chars_call_append rest⟩
  | wrap name inner arguments transforms => exact ⟨name, _, h.1, chars_wrap_append rest⟩

/-- Arguments are told from an expression: a literal is not followed by a parenthesis that opens. -/
theorem drop_moreArguments_append_ne {arguments : List Value} {p : Pattern}
    (h : ∀ v ∈ arguments, v.isFinite) (hp : p.WellFormed) (rest rest' : List Char) :
    (moreArguments arguments).drop 2 ++ ')' :: rest ≠ p.chars ++ rest' := by
  intro htext
  obtain ⟨name, tail, hname, hchars⟩ := exists_chars_append hp rest'
  obtain ⟨c, letters, hletters, hc⟩ := hname.exists_cons
  rw [hchars] at htext
  cases arguments with
  | nil =>
    rw [hletters] at htext
    exact hc ((List.cons.inj htext).1 ▸ by decide)
  | cons v more =>
    rw [drop_moreArguments_cons, List.append_assoc] at htext
    rcases Value.plain_or_text (h v List.mem_cons_self) with hplain | ⟨s, rfl⟩
    -- rest) := :: a literal ends like a name, but no name is followed by what follows a literal
    · have hends : GoesOn {'(', ')', ','} (moreArguments more ++ ')' :: rest) :=
        fun c hc => .inr (goesOn_moreArguments more rest c hc)
      have hrest := (append_inj_of_goesOn (Value.notMem_literalChars hplain)
        (fun c hc hstop => hname.2 c hc (by rcases hstop with rfl | rfl | rfl <;> decide)) hends
        (goesOn_cons (.inl rfl)) htext).2
      exact absurd (goesOn_moreArguments more rest '(' (hrest ▸ rfl)) (by simp)
    · rw [hletters] at htext
      exact hc ((List.cons.inj htext).1 ▸ by decide)

/-- An expression is told from a parenthesis, a comma or a space after it. -/
theorem delimited_chars : Delimited {')', ',', ' '} chars WellFormed := by
  have hpoint : ∀ {rest : List Char}, GoesOn {')', ',', ' '} rest → GoesOn {c | c ≠ '.'} rest :=
    fun hrest c hc => by rcases hrest c hc with rfl | rfl | rfl <;> decide
  have hcomma : ∀ (arguments : List Value) (rest : List Char),
      GoesOn {')', ',', ' '} (moreArguments arguments ++ ')' :: rest) := fun arguments rest c hc =>
    (goesOn_moreArguments arguments rest c hc).imp_right .inl
  -- the induction is on the first expression, with the second and the texts behind both left free
  intro p
  induction p with
  | call name arguments transforms =>
    intro q hp hq rest rest' hrest hrest' h
    cases q with
    | call name' arguments' transforms' =>
      rw [chars_call_append, chars_call_append] at h
      obtain ⟨rfl, hopen⟩ := delimited_name hp.1 hq.1 (goesOn_cons rfl) (goesOn_cons rfl) h
      obtain ⟨rfl, htransforms⟩ :=
        drop_moreArguments_append_inj hp.2.1 hq.2.1 (List.cons.inj hopen).2
      obtain ⟨rfl, hend⟩ :=
        delimited_transforms hp.2.2 hq.2.2 (hpoint hrest) (hpoint hrest') htransforms
      exact ⟨rfl, hend⟩
    | wrap name' inner' arguments' transforms' =>
      rw [chars_call_append, chars_wrap_append] at h
      obtain ⟨-, hopen⟩ := delimited_name hp.1 hq.1 (goesOn_cons rfl) (goesOn_cons rfl) h
      exact absurd (List.cons.inj hopen).2 (drop_moreArguments_append_ne hp.2.1 hq.2.1 _ _)
  | wrap name inner arguments transforms ih =>
    intro q hp hq rest rest' hrest hrest' h
    cases q with
    | call name' arguments' transforms' =>
      rw [chars_wrap_append, chars_call_append] at h
      obtain ⟨-, hopen⟩ := delimited_name hp.1 hq.1 (goesOn_cons rfl) (goesOn_cons rfl) h
      exact absurd (List.cons.inj hopen).2.symm (drop_moreArguments_append_ne hq.2.1 hp.2.1 _ _)
    | wrap name' inner' arguments' transforms' =>
      rw [chars_wrap_append, chars_wrap_append] at h
      obtain ⟨rfl, hopen⟩ := delimited_name hp.1 hq.1 (goesOn_cons rfl) (goesOn_cons rfl) h
      obtain ⟨rfl, harguments⟩ :=
        ih hp.2.1 hq.2.1 (hcomma _ _) (hcomma _ _) (List.cons.inj hopen).2
      obtain ⟨rfl, hclose⟩ := delimited_moreArguments hp.2.2.1 hq.2.2.1 (goesOn_cons rfl)
        (goesOn_cons rfl) harguments
      obtain ⟨rfl, hend⟩ := delimited_transforms hp.2.2.2 hq.2.2.2 (hpoint hrest) (hpoint hrest')
        (List.cons.inj hclose).2
      exact ⟨rfl, hend⟩

/-! ## Lines -/

/-- The expressions after the first have a space before them. -/
theorem toList_line_cons (p : Pattern) (patterns : List Pattern) :
    (line (p :: patterns)).toList = p.chars ++ patterns.flatMap fun q => ' ' :: q.chars := by
  induction patterns generalizing p with
  | nil => simp [line, render]
  | cons q patterns ih =>
    have hline : line (p :: q :: patterns) = p.render ++ " " ++ line (q :: patterns) :=
      String.intercalate_cons_cons
    rw [hline, String.toList_append, String.toList_append, ih, List.flatMap_cons]
    simp [render]

/-- The line without expressions is the empty text, and no other one is. -/
theorem line_cons_ne_line_nil (p : Pattern) (patterns : List Pattern) :
    line (p :: patterns) ≠ line [] := by
  intro h
  have hchars := congrArg String.toList h
  rw [toList_line_cons] at hchars
  cases p <;> simp [line, chars] at hchars

variable {patterns patterns' : List Pattern}

/-- Expressions are known from their line: two lists of expressions with the same line, whatever
calls they nest and whatever texts are in them, are the same. -/
theorem line_injective (h : ∀ p ∈ patterns, p.WellFormed) (h' : ∀ p ∈ patterns', p.WellFormed)
    (hline : line patterns = line patterns') : patterns = patterns' := by
  cases patterns with
  | nil =>
    cases patterns' with
    | nil => rfl
    | cons q rest' => exact absurd hline.symm (line_cons_ne_line_nil q rest')
  | cons p rest =>
    cases patterns' with
    | nil => exact absurd hline (line_cons_ne_line_nil p rest)
    | cons q rest' =>
      -- nothing is behind a line, so its expressions end where the text does
      have hspaces : Delimited ∅
          (fun patterns : List Pattern => patterns.flatMap fun q => ' ' :: q.chars)
          (fun patterns => ∀ p ∈ patterns, p.WellFormed) :=
        delimited_chars.flatMap ' ' (by simp) (Set.empty_subset _) (Set.notMem_empty _)
      have hchars := congrArg String.toList hline
      rw [toList_line_cons, toList_line_cons] at hchars
      refine (hspaces h h' (goesOn_nil _) (goesOn_nil _) ?_).1
      rw [List.append_nil, List.append_nil]
      exact congrArg (' ' :: ·) hchars

/-- A step with no more than a call. -/
def callStep (call : String) (argument : Option String) (properties : List Property) : Step where
  id := call
  nodeType := call
  category := none
  stage := none
  wraps := false
  call := call
  argument := argument
  properties := properties

/-- A source inside a call, with a text that holds the characters of the grammar, and a lone source
with a flag. -/
def nestedArrangements : List Arrangement :=
  [.wrapped (callStep "jux" (some "way") [⟨"way", .text "rev"⟩])
    ⟨[callStep "s" (some "s") [⟨"s", .text "bd, \"sd\").gain(0.8"⟩],
      callStep "gain" none [⟨"gain", .number (.ofRatio false 4 5)⟩]]⟩
    ⟨[callStep "jux" (some "way") [⟨"way", .text "rev"⟩],
      callStep "room" none [⟨"room", .number (.ofRatio true 3 10)⟩]]⟩,
   .plain ⟨[callStep "silence" none [], callStep "mute" none [⟨"mute", .flag true⟩]]⟩]

/-- The expressions of `nestedArrangements`. -/
def nestedExpressions : List Pattern :=
  [wrap "jux"
    (call "s" [.text "bd, \"sd\").gain(0.8"] [⟨"gain", some (.number (.ofRatio false 4 5))⟩])
    [.text "rev"] [⟨"room", some (.number (.ofRatio true 3 10))⟩],
   call "silence" [] [⟨"mute", none⟩]]

/-- The two lists have the same line, so they are the same. -/
theorem line_injective_nestedExpressions :
    (∀ p ∈ nestedExpressions, p.WellFormed) ∧
    line nestedExpressions = code nestedArrangements ∧
    nestedExpressions = nestedArrangements.filterMap ofArrangement? := by
  have hcode : line nestedExpressions = code nestedArrangements := by decide +kernel
  have hread : ∀ p ∈ nestedExpressions, p.WellFormed := by decide +kernel
  have hwritten : ∀ p ∈ nestedArrangements.filterMap ofArrangement?, p.WellFormed := by
    decide +kernel
  exact ⟨hread, hcode, line_injective hread hwritten hcode⟩

end Pattern

end Patchbay
