import Mathlib.Data.List.Forall2
import Patchbay.Recorded

/-!
# Outcomes and records of sequences of steps

The outcome and the record of each building block of `Recorded`, and of sequences of them.  Proofs
about a stage take it apart with these lemmas and never unfold `Recorded.bind`.  `FailsFirst` says
of an outcome that it is the first of a list of failures, which are put in sequence as the steps
are.  `Alike` compares two runs whose records may differ in the order of their entries, and
`Mirrors` two of which one leaves more behind than the other.
-/

namespace Patchbay.Recorded

variable {ω α β : Type}

@[simp] theorem outcome_pure (a : α) : (pure a : Recorded ω α).outcome = .ok a := rfl

@[simp] theorem record_pure (a : α) : (pure a : Recorded ω α).record = [] := rfl

@[simp] theorem outcome_note (entries : List ω) : (note entries).outcome = .ok () := rfl

@[simp] theorem record_note (entries : List ω) : (note entries).record = entries := rfl

@[simp] theorem outcome_fail (e : Failure) : (fail e : Recorded ω α).outcome = .error e := rfl

@[simp] theorem record_fail (e : Failure) : (fail e : Recorded ω α).record = [] := rfl

@[simp] theorem outcome_ofExcept (x : Except Failure α) :
    (ofExcept x : Recorded ω α).outcome = x := rfl

@[simp] theorem record_ofExcept (x : Except Failure α) :
    (ofExcept x : Recorded ω α).record = [] := rfl

/-! ## One step after another -/

/-- After a success the second step goes on, and its record comes behind that of the first. -/
theorem bind_of_ok {x : Recorded ω α} {f : α → Recorded ω β} {a : α} (h : x.outcome = .ok a) :
    x >>= f = ⟨x.record ++ (f a).record, (f a).outcome⟩ := by
  show Recorded.bind x f = _
  rw [Recorded.bind, h]

/-- After a failure the second step is not taken. -/
theorem bind_of_error {x : Recorded ω α} {f : α → Recorded ω β} {e : Failure}
    (h : x.outcome = .error e) : x >>= f = ⟨x.record, .error e⟩ := by
  show Recorded.bind x f = _
  rw [Recorded.bind, h]

/-- A sequence succeeds exactly when both of its steps do. -/
theorem outcome_bind_eq_ok {x : Recorded ω α} {f : α → Recorded ω β} {b : β} :
    (x >>= f).outcome = .ok b ↔ ∃ a, x.outcome = .ok a ∧ (f a).outcome = .ok b := by
  cases hx : x.outcome with
  | ok a => simp [bind_of_ok hx]
  | error e => simp [bind_of_error hx]

/-- After a success the records are one behind the other. -/
theorem record_bind_of_ok {x : Recorded ω α} {f : α → Recorded ω β} {a : α}
    (h : x.outcome = .ok a) : (x >>= f).record = x.record ++ (f a).record := by
  rw [bind_of_ok h]

/-- A second step that records nothing leaves the record as it is. -/
theorem record_bind_of_quiet {x : Recorded ω α} {f : α → Recorded ω β}
    (hf : ∀ a, (f a).record = []) : (x >>= f).record = x.record := by
  cases hx : x.outcome with
  | ok a => rw [bind_of_ok hx, hf, List.append_nil]
  | error e => rw [bind_of_error hx]

/-- The second step is taken only where the first one succeeds. -/
theorem bind_congr {x : Recorded ω α} {f f' : α → Recorded ω β}
    (h : ∀ a, x.outcome = .ok a → f a = f' a) : x >>= f = x >>= f' := by
  cases hx : x.outcome with
  | ok a => rw [bind_of_ok hx, bind_of_ok hx, h a hx]
  | error e => rw [bind_of_error hx, bind_of_error hx]

@[simp] theorem outcome_note_bind (entries : List ω) (f : Unit → Recorded ω β) :
    (note entries >>= f).outcome = (f ()).outcome := rfl

@[simp] theorem record_note_bind (entries : List ω) (f : Unit → Recorded ω β) :
    (note entries >>= f).record = entries ++ (f ()).record := rfl

/-! ## A step for each element of a list -/

/-- A list of steps succeeds exactly when each of them does. -/
theorem outcome_mapM_eq_ok {f : α → Recorded ω β} {l : List α} {bs : List β} :
    (l.mapM f).outcome = .ok bs ↔ List.Forall₂ (fun a b => (f a).outcome = .ok b) l bs := by
  induction l generalizing bs with
  | nil =>
    rw [List.mapM_nil, outcome_pure, List.forall₂_nil_left_iff]
    exact ⟨fun h => (Except.ok.inj h).symm, fun h => congrArg _ h.symm⟩
  | cons a rest ih =>
    rw [List.mapM_cons, outcome_bind_eq_ok]
    constructor
    · rintro ⟨b, hb, h⟩
      obtain ⟨bs', hbs', h⟩ := outcome_bind_eq_ok.mp h
      obtain rfl := Except.ok.inj h
      exact .cons hb (ih.mp hbs')
    · rintro (_ | ⟨hb, hbs⟩)
      exact ⟨_, hb, outcome_bind_eq_ok.mpr ⟨_, ih.mpr hbs, rfl⟩⟩

/-- The steps for two lists, one after the other, succeed exactly when those for each do. -/
theorem outcome_mapM_append_eq_ok {f : α → Recorded ω β} {l l' : List α} {bs : List β} :
    ((l ++ l').mapM f).outcome = .ok bs ↔
      ∃ as as', (l.mapM f).outcome = .ok as ∧ (l'.mapM f).outcome = .ok as' ∧ bs = as ++ as' := by
  rw [List.mapM_append, outcome_bind_eq_ok]
  refine exists_congr fun as => ?_
  rw [outcome_bind_eq_ok]
  constructor
  · rintro ⟨has, as', has', h⟩
    exact ⟨as', has, has', (Except.ok.inj h).symm⟩
  · rintro ⟨as', has, has', rfl⟩
    exact ⟨has, as', has', rfl⟩

/-- The records of two lists of steps are one behind the other. -/
theorem record_mapM_append {f : α → Recorded ω β} {l l' : List α} {as as' : List β}
    (h : (l.mapM f).outcome = .ok as) (h' : (l'.mapM f).outcome = .ok as') :
    ((l ++ l').mapM f).record = (l.mapM f).record ++ (l'.mapM f).record := by
  rw [List.mapM_append, record_bind_of_ok h, record_bind_of_ok h', record_pure, List.append_nil]

/-- Where all steps of a list succeed, its record is theirs in order. -/
theorem record_mapM_of_ok {f : α → Recorded ω β} {l : List α} {bs : List β}
    (h : (l.mapM f).outcome = .ok bs) : (l.mapM f).record = l.flatMap fun a => (f a).record := by
  induction l generalizing bs with
  | nil => rfl
  | cons a rest ih =>
    rw [List.mapM_cons] at h ⊢
    obtain ⟨b, hb, h⟩ := outcome_bind_eq_ok.mp h
    obtain ⟨bs', hbs', -⟩ := outcome_bind_eq_ok.mp h
    rw [record_bind_of_ok hb, record_bind_of_ok hbs', record_pure, List.append_nil, ih hbs',
      List.flatMap_cons]

/-- Only what is done for the elements of the list matters. -/
theorem mapM_congr {f f' : α → Recorded ω β} {l : List α} (h : ∀ a ∈ l, f a = f' a) :
    l.mapM f = l.mapM f' := by
  induction l with
  | nil => rfl
  | cons a rest ih =>
    obtain ⟨ha, hrest⟩ := List.forall_mem_cons.mp h
    rw [List.mapM_cons, List.mapM_cons, ha, ih hrest]

/-- Each result of a list of steps is that of one of them. -/
theorem exists_of_forall₂ {R : α → β → Prop} {l : List α} {bs : List β} {b : β}
    (h : List.Forall₂ R l bs) (hb : b ∈ bs) : ∃ a ∈ l, R a b := by
  induction h with
  | nil => exact absurd hb List.not_mem_nil
  | @cons a b' rest bs' hab _ ih =>
    rcases List.mem_cons.mp hb with rfl | hb
    · exact ⟨a, List.mem_cons_self, hab⟩
    · obtain ⟨a', ha', h⟩ := ih hb
      exact ⟨a', List.mem_cons_of_mem _ ha', h⟩

/-- Every entry that a list of steps records was recorded by one of them. -/
theorem mem_record_mapM {f : α → Recorded ω β} {l : List α} {entry : ω}
    (h : entry ∈ (l.mapM f).record) : ∃ a ∈ l, entry ∈ (f a).record := by
  induction l with
  | nil => simp [List.mapM_nil] at h
  | cons a rest ih =>
    rw [List.mapM_cons] at h
    cases ha : (f a).outcome with
    | error e =>
      rw [bind_of_error ha] at h
      exact ⟨a, List.mem_cons_self, h⟩
    | ok b =>
      rw [record_bind_of_ok ha] at h
      rcases List.mem_append.mp h with h | h
      · exact ⟨a, List.mem_cons_self, h⟩
      -- collecting the results records nothing
      · have hrest : entry ∈ (rest.mapM f).record := by
          cases hr : (rest.mapM f).outcome with
          | error e => rwa [bind_of_error hr] at h
          | ok bs => rwa [record_bind_of_ok hr, record_pure, List.append_nil] at h
        obtain ⟨a', ha', hentry⟩ := ih hrest
        exact ⟨a', List.mem_cons_of_mem _ ha', hentry⟩

/-- The outcomes of a list of steps come one after another as if nothing were recorded. -/
theorem outcome_mapM (f : α → Recorded ω β) (l : List α) :
    (l.mapM f).outcome = l.mapM fun a => (f a).outcome := by
  induction l with
  | nil => rfl
  | cons a rest ih =>
    rw [List.mapM_cons, List.mapM_cons, ← ih]
    cases ha : (f a).outcome with
    | error e =>
      rw [bind_of_error ha]
      rfl
    | ok b =>
      rw [bind_of_ok ha]
      cases hrest : (rest.mapM f).outcome with
      | error e =>
        rw [bind_of_error hrest]
        rfl
      | ok bs =>
        rw [bind_of_ok hrest]
        rfl

/-- Each result of a list of outcomes is that of one of them. -/
theorem exists_of_mapM_ok {f : α → Except Failure β} {l : List α} {bs : List β} {b : β}
    (h : l.mapM f = .ok bs) (hb : b ∈ bs) : ∃ a ∈ l, f a = .ok b := by
  -- outcomes are steps that record nothing, of which this is known
  have hsteps := outcome_mapM (fun a => (ofExcept (f a) : Recorded Unit β)) l
  have hall : List.Forall₂ (fun a b => f a = .ok b) l bs := outcome_mapM_eq_ok.mp (hsteps.trans h)
  obtain ⟨a, ha, hfa⟩ := exists_of_forall₂ hall hb
  exact ⟨a, ha, hfa⟩

/-- A list of outcomes fails with the failure of one of them. -/
theorem exists_of_mapM_error {f : α → Except Failure β} {l : List α} {e : Failure}
    (h : l.mapM f = .error e) : ∃ a ∈ l, f a = .error e := by
  induction l with
  | nil => exact absurd h (by simp [pure, Except.pure])
  | cons a rest ih =>
    rw [List.mapM_cons] at h
    cases ha : f a with
    | error e' =>
      rw [ha] at h
      obtain rfl := Except.error.inj h
      exact ⟨a, List.mem_cons_self, ha⟩
    | ok b =>
      rw [ha] at h
      cases hrest : rest.mapM f with
      | error e' =>
        rw [hrest] at h
        obtain rfl := Except.error.inj h
        obtain ⟨a', ha', h'⟩ := ih hrest
        exact ⟨a', List.mem_cons_of_mem _ ha', h'⟩
      | ok bs =>
        rw [hrest] at h
        exact absurd h (by simp [bind, Except.bind, pure, Except.pure])

/-- A list of steps fails with the failure of one of them. -/
theorem exists_of_outcome_mapM_error {f : α → Recorded ω β} {l : List α} {e : Failure}
    (h : (l.mapM f).outcome = .error e) : ∃ a ∈ l, (f a).outcome = .error e :=
  exists_of_mapM_error (outcome_mapM f l ▸ h)

/-! ## The first failure -/

/-- An outcome is the first of the failures in a list, and a success if the list is empty. -/
def FailsFirst (outcome : Except Failure α) (failures : List Failure) : Prop :=
  ∀ e, outcome = .error e ↔ failures.head? = some e

/-- A success has no failures. -/
theorem failsFirst_ok (a : α) : FailsFirst (.ok a) [] := fun _ => by simp

/-- A failure is the first of its own list. -/
theorem failsFirst_error (e : Failure) : FailsFirst (.error e : Except Failure α) [e] := fun _ => by
  simp

/-- There is a success exactly if no failure is listed. -/
theorem FailsFirst.exists_ok_iff {outcome : Except Failure α} {failures : List Failure}
    (h : FailsFirst outcome failures) : (∃ a, outcome = .ok a) ↔ failures = [] := by
  cases outcome with
  | ok a => cases failures with
    | nil => simp
    | cons e rest => exact absurd ((h e).mpr rfl) (by simp)
  | error e =>
    have hhead := (h e).mp rfl
    cases failures with
    | nil => exact absurd hhead (by simp)
    | cons _ _ => simp

/-- There is a failure exactly if one is listed. -/
theorem FailsFirst.exists_error_iff {outcome : Except Failure α} {failures : List Failure}
    (h : FailsFirst outcome failures) : (∃ e, outcome = .error e) ↔ failures ≠ [] := by
  simp only [h _]
  cases failures <;> simp

/-- The failures of a second step come after those of the first. -/
theorem FailsFirst.bind {x : Recorded ω α} {f : α → Recorded ω β}
    {failures failures' : List Failure}
    (h : FailsFirst x.outcome failures)
    (hf : ∀ a, x.outcome = .ok a → FailsFirst (f a).outcome failures') :
    FailsFirst (x >>= f).outcome (failures ++ failures') := by
  cases hx : x.outcome with
  | ok a =>
    -- the first step succeeds, so the failures are all of the second
    obtain rfl := h.exists_ok_iff.mp ⟨a, hx⟩
    rw [bind_of_ok hx]
    exact hf a hx
  | error e =>
    rw [bind_of_error hx]
    intro e'
    rw [List.head?_append, (h e).mp hx, Option.some_or, Except.error.injEq, Option.some.injEq]

/-- A second step that succeeds adds no failure. -/
theorem FailsFirst.bind_ok {x : Recorded ω α} {f : α → Recorded ω β} {failures : List Failure}
    (h : FailsFirst x.outcome failures) (hf : ∀ a, ∃ b, (f a).outcome = .ok b) :
    FailsFirst (x >>= f).outcome failures := by
  have hbind : FailsFirst (x >>= f).outcome (failures ++ []) := h.bind fun a _ => by
    obtain ⟨b, hb⟩ := hf a
    exact hb ▸ failsFirst_ok b
  rwa [List.append_nil] at hbind

/-- The failures of a list of steps are those of each, one after the other. -/
theorem FailsFirst.mapM {f : α → Recorded ω β} {failures : α → List Failure} {l : List α}
    (h : ∀ a ∈ l, FailsFirst (f a).outcome (failures a)) :
    FailsFirst (l.mapM f).outcome (l.flatMap failures) := by
  induction l with
  | nil => exact failsFirst_ok []
  | cons a rest ih =>
    obtain ⟨hfirst, hrest⟩ := List.forall_mem_cons.mp h
    rw [List.mapM_cons, List.flatMap_cons]
    -- bs, rfl⟩ :: putting the results together cannot fail
    exact hfirst.bind fun b _ => (ih hrest).bind_ok fun bs => ⟨b :: bs, rfl⟩

/-- The same for a list of outcomes, which record nothing. -/
theorem FailsFirst.mapM_outcomes {f : α → Except Failure β} {failures : α → List Failure}
    {l : List α} (h : ∀ a ∈ l, FailsFirst (f a) (failures a)) :
    FailsFirst (l.mapM f) (l.flatMap failures) := by
  have hsteps := FailsFirst.mapM (f := fun a => (ofExcept (f a) : Recorded Unit β)) h
  rwa [outcome_mapM] at hsteps

/-! ## Records up to order -/

/-- Two steps have one outcome, and their records have the same entries in any order. -/
structure Alike (x y : Recorded ω α) : Prop where
  outcome : x.outcome = y.outcome
  record : x.record.Perm y.record

theorem Alike.refl (x : Recorded ω α) : x.Alike x := ⟨rfl, .rfl⟩

theorem Alike.note {entries entries' : List ω} (h : entries.Perm entries') :
    (Recorded.note entries).Alike (Recorded.note entries') := ⟨rfl, h⟩

/-- Alike steps may be followed by alike steps. -/
theorem Alike.bind {x y : Recorded ω α} {f f' : α → Recorded ω β} (h : x.Alike y)
    (hf : ∀ a, (f a).Alike (f' a)) : (x >>= f).Alike (y >>= f') := by
  cases hx : x.outcome with
  | ok a =>
    rw [bind_of_ok hx, bind_of_ok (h.outcome ▸ hx)]
    exact ⟨(hf a).outcome, h.record.append (hf a).record⟩
  | error e =>
    rw [bind_of_error hx, bind_of_error (h.outcome ▸ hx)]
    exact ⟨rfl, h.record⟩

/-! ## Records without some entries -/

/-- A step that leaves more than another: its outcome is that of the other with something forgotten,
and the entries of its record that are kept are the record of the other. -/
structure Mirrors (keep : ω → Bool) (forget : α → β) (x : Recorded ω α) (y : Recorded ω β) :
    Prop where
  outcome : y.outcome = x.outcome.map forget
  record : y.record.filter keep = x.record

namespace Mirrors

variable {γ δ : Type} {keep : ω → Bool} {forget : α → β} {forget' : γ → δ} {x : Recorded ω α}
  {y : Recorded ω β}

/-- A step all of whose entries are kept, with nothing forgotten. -/
theorem refl (h : ∀ entry ∈ x.record, keep entry) : Mirrors keep id x x where
  outcome := by cases x.outcome <;> rfl
  record := List.filter_eq_self.mpr h

/-- An outcome alone leaves nothing that could be dropped. -/
theorem ofExcept (outcome : Except Failure α) :
    Mirrors keep id (Recorded.ofExcept outcome) (Recorded.ofExcept outcome) :=
  refl fun _ h => absurd h List.not_mem_nil

/-- A result mirrors what is left of it when something is forgotten. -/
theorem pure {a : α} {b : β} (h : b = forget a) : Mirrors keep forget (Pure.pure a) (Pure.pure b) :=
  ⟨congrArg Except.ok h, rfl⟩

/-- Entries that are not kept may be left before a step. -/
theorem note_bind {entries : List ω} (hentries : entries.filter keep = [])
    (h : Mirrors keep forget x y) :
    Mirrors keep forget x (Recorded.note entries >>= fun _ => y) where
  outcome := h.outcome
  record := by rw [record_note_bind, List.filter_append, hentries, List.nil_append, h.record]

/-- The other step succeeds with what is not forgotten. -/
theorem outcome_of_ok {a : α} (h : Mirrors keep forget x y) (hx : x.outcome = .ok a) :
    y.outcome = .ok (forget a) := by
  rw [h.outcome, hx]
  rfl

/-- The other step has the same failure. -/
theorem outcome_of_error {e : Failure} (h : Mirrors keep forget x y) (hx : x.outcome = .error e) :
    y.outcome = .error e := by
  rw [h.outcome, hx]
  rfl

/-- Mirrored steps may be followed by mirrored steps. -/
theorem bind {f : α → Recorded ω γ} {f' : β → Recorded ω δ} (h : Mirrors keep forget x y)
    (hf : ∀ a, x.outcome = .ok a → Mirrors keep forget' (f a) (f' (forget a))) :
    Mirrors keep forget' (x >>= f) (y >>= f') := by
  cases hx : x.outcome with
  | ok a =>
    rw [bind_of_ok hx, bind_of_ok (h.outcome_of_ok hx)]
    exact ⟨(hf a hx).outcome, by rw [List.filter_append, h.record, (hf a hx).record]⟩
  | error e =>
    rw [bind_of_error hx, bind_of_error (h.outcome_of_error hx)]
    exact ⟨rfl, h.record⟩

/-- Steps for the elements of a list, one by one. -/
theorem mapM {f : γ → Recorded ω α} {f' : γ → Recorded ω β} {l : List γ}
    (h : ∀ c ∈ l, Mirrors keep forget (f c) (f' c)) :
    Mirrors keep (List.map forget) (l.mapM f) (l.mapM f') := by
  induction l with
  | nil => exact .pure rfl
  | cons c rest ih =>
    obtain ⟨hc, hrest⟩ := List.forall_mem_cons.mp h
    rw [List.mapM_cons, List.mapM_cons]
    exact hc.bind fun a _ => (ih hrest).bind fun as _ => .pure rfl

end Mirrors

end Patchbay.Recorded
