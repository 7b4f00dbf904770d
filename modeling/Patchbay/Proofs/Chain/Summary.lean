import Patchbay.Chain.Fold
import Patchbay.Proofs.Distinct
import Patchbay.Proofs.Recorded

/-!
# What a fold computes

The fold of a chain keeps a list of the values so far and updates it at each occurrence of a
property.  Said without that list, every name that occurs is combined on its own: its values are
taken in order and combined by its rule (`Rule.combined`).  The list of all these combinations, in
the order in which the names are first met, is the *summary* of the occurrences.

## Shape of the proof

* `Summarizes` is the invariant: the list under construction has the names met so far, each with
  the combination of its values.
* `Summarizes.combine` and `Summarizes.store`: one occurrence preserves it.
* `summarizes_of_foldlM`: so a fold that succeeds ends with the summary.
* `outcome_fold_eq_ok`: what becomes of the chain.
-/

namespace Patchbay

/-- The product of numbers from 1, rounded at each step. -/
def productOf (xs : List Binary64) : Binary64 :=
  xs.foldl (fun product x => (product * x).roundToDecimals productPlaces) (.ofNat 1)

/-- The value to which the values of one property combine.  There is no product of values that are
not all numbers. -/
def Rule.combined : Rule → List Value → Option Value
  | .last, values => values.getLast?
  | .multiply, values => (values.mapM Value.number?).map fun xs => .number (productOf xs)

/-- The values of the properties with a name, in order. -/
def valuesOf (name : String) (met : List Property) : List Value :=
  (met.filter (·.name == name)).map (·.value)

namespace Config

/-- The value to which all occurrences of a name combine by its rule. -/
def combined (config : Config) (met : List Property) (name : String) : Option Value :=
  (config.ruleOf name).combined (valuesOf name met)

/-- Every name that occurs, in the order of the first occurrences, with what it combines to. -/
def summary (config : Config) (met : List Property) : List Property :=
  (met.map (·.name)).eraseDups.filterMap fun name =>
    (config.combined met name).map fun value => ⟨name, value⟩

/-- The table has a neutral value for the property, and its value is a number no farther away from
that than the tolerance. -/
def Neutral (config : Config) (p : Property) : Prop :=
  ∃ rule neutral x, config.rules.get? p.name = some rule ∧ rule.neutral = some neutral ∧
    p.value = .number x ∧ (x - neutral).magnitude.atMost config.tolerance

end Config

/-! ## Names and values -/

/-- One property more is one value more of its name. -/
theorem valuesOf_concat_self (met : List Property) (p : Property) :
    valuesOf p.name (met ++ [p]) = valuesOf p.name met ++ [p.value] := by
  simp [valuesOf, List.filter_append]

/-- One property more is no value of another name. -/
theorem valuesOf_concat_of_ne {met : List Property} {p : Property} {name : String}
    (h : p.name ≠ name) : valuesOf name (met ++ [p]) = valuesOf name met := by
  simp [valuesOf, List.filter_append, h]

/-- A name that was not met has no values. -/
theorem valuesOf_eq_nil {met : List Property} {name : String} (h : name ∉ met.map (·.name)) :
    valuesOf name met = [] := by
  rw [valuesOf, List.map_eq_nil_iff, List.filter_eq_nil_iff]
  intro p hp heq
  exact h (List.mem_map.mpr ⟨p, hp, beq_iff_eq.mp heq⟩)

namespace Config

variable {config : Config} {folded : List Property} {name : String} {value : Value}

/-! ## The list under construction -/

/-- A value that is stored adds its name unless it is there. -/
theorem map_name_store (name : String) (value : Value) (folded : List Property) :
    (store name value folded).map (·.name) =
      if name ∈ folded.map (·.name) then folded.map (·.name)
      else folded.map (·.name) ++ [name] := by
  induction folded with
  | nil => rfl
  | cons p rest ih =>
    by_cases hp : p.name = name
    · simp [store, hp]
    · rw [store, if_neg hp, List.map_cons, ih]
      by_cases hrest : name ∈ rest.map (·.name)
      · rw [if_pos hrest, List.map_cons, if_pos (List.mem_cons_of_mem _ hrest)]
      · rw [if_neg hrest, List.map_cons,
          if_neg fun h => (List.mem_cons.mp h).elim (Ne.symm hp) hrest, List.cons_append]

/-- A value that is stored takes the place of the one under its name. -/
theorem mem_store {p : Property} (hnames : (folded.map (·.name)).Nodup)
    (h : p ∈ store name value folded) : p = ⟨name, value⟩ ∨ p ∈ folded ∧ p.name ≠ name := by
  induction folded with
  | nil => exact .inl (List.mem_singleton.mp h)
  | cons q rest ih =>
    obtain ⟨hq, hrest⟩ := List.nodup_cons.mp hnames
    by_cases hname : q.name = name
    · rw [store, if_pos hname] at h
      -- the names are distinct, so nothing behind the one that is replaced has its name
      refine (List.mem_cons.mp h).imp_right fun hp => ⟨List.mem_cons_of_mem _ hp, fun heq => hq ?_⟩
      exact List.mem_map.mpr ⟨p, hp, heq.trans hname.symm⟩
    · rw [store, if_neg hname] at h
      rcases List.mem_cons.mp h with rfl | hp
      · exact .inr ⟨List.mem_cons_self, hname⟩
      · exact (ih hrest hp).imp_right fun ⟨hp, hne⟩ => ⟨List.mem_cons_of_mem _ hp, hne⟩

/-- A value under a new name is stored at the end. -/
theorem store_of_not_mem (h : name ∉ folded.map (·.name)) :
    store name value folded = folded ++ [⟨name, value⟩] := by
  induction folded with
  | nil => rfl
  | cons p rest ih =>
    rw [List.map_cons, List.mem_cons, not_or] at h
    rw [store, if_neg (Ne.symm h.1), ih h.2, List.cons_append]

/-- The product under a name that was not met begins with 1. -/
theorem factorSoFar_of_not_mem (h : name ∉ folded.map (·.name)) :
    factorSoFar folded name = .ofNat 1 := by
  have hfind : folded.find? (·.name == name) = none := by
    refine List.find?_eq_none.mpr fun p hp heq => h (List.mem_map.mpr ⟨p, hp, beq_iff_eq.mp heq⟩)
  rw [factorSoFar, hfind]
  rfl

/-- The property has a value that a fold can have made: if its rule multiplies, a finite number
rounded to the places of products. -/
def Settled (config : Config) (p : Property) : Prop :=
  config.ruleOf p.name = .multiply →
    ∃ x : Binary64, x.isFinite ∧ p.value = .number (x.roundToDecimals productPlaces)

/-- Every value that a fold makes is settled. -/
theorem settled_of_combine {step : Step} {p : Property}
    (hvalue : config.combine folded step p = .ok value) :
    config.Settled ⟨p.name, value⟩ := by
  intro hrule
  unfold Config.combine at hvalue
  rw [hrule] at hvalue
  cases hnumber : p.value.number? with
  | none => simp [hnumber] at hvalue
  | some x =>
    simp only [hnumber] at hvalue
    split at hvalue
    next hfinite => exact ⟨_, hfinite, (Except.ok.inj hvalue).symm⟩
    next => exact absurd hvalue (by simp)

/-- The names met and what each of them combines to leave nothing open. -/
theorem eq_summary_of_values {met : List Property}
    (hnames : folded.map (·.name) = (met.map (·.name)).eraseDups)
    (hvalues : ∀ p ∈ folded, config.combined met p.name = some p.value) :
    folded = config.summary met := by
  rw [summary, ← hnames, List.filterMap_map]
  symm
  calc folded.filterMap _ = folded.filterMap some := List.filterMap_congr fun p hp => by
        rw [Function.comp_apply, hvalues p hp]
        rfl
    _ = folded := List.filterMap_some

/-- The list under construction has each name met, with what its values so far combine to. -/
structure Summarizes (config : Config) (met folded : List Property) : Prop where
  names : folded.map (·.name) = (met.map (·.name)).eraseDups
  values : ∀ p ∈ folded, config.combined met p.name = some p.value
  settled : ∀ p ∈ folded, config.Settled p

namespace Summarizes

variable {met : List Property} {step : Step} {p : Property}

theorem nodup (h : Summarizes config met folded) : (folded.map (·.name)).Nodup :=
  h.names ▸ nodup_eraseDups _

theorem mem_names (h : Summarizes config met folded) :
    name ∈ folded.map (·.name) ↔ name ∈ met.map (·.name) := by
  rw [h.names, List.mem_eraseDups]

/-- The list is the summary of what was met. -/
theorem eq_summary (h : Summarizes config met folded) : folded = config.summary met :=
  eq_summary_of_values h.names h.values

/-- The number kept for a name that multiplies is the product of its values so far. -/
theorem factorSoFar (h : Summarizes config met folded) (hrule : config.ruleOf name = .multiply) :
    ∃ xs, (valuesOf name met).mapM Value.number? = some xs ∧
      Config.factorSoFar folded name = productOf xs := by
  by_cases hname : name ∈ folded.map (·.name)
  · obtain ⟨q, hq⟩ : ∃ q, folded.find? (·.name == name) = some q := by
      obtain ⟨q, hq, rfl⟩ := List.mem_map.mp hname
      exact Option.isSome_iff_exists.mp (List.find?_isSome.mpr ⟨q, hq, beq_self_eq_true _⟩)
    have hqname : q.name = name := by simpa using List.find?_some hq
    have hvalue := h.values q (List.mem_of_find?_eq_some hq)
    rw [combined, hqname, hrule] at hvalue
    obtain ⟨xs, hxs, hproduct⟩ := Option.map_eq_some_iff.mp hvalue
    refine ⟨xs, hxs, ?_⟩
    rw [Config.factorSoFar, hq, Option.bind_some, ← hproduct]
    rfl
  · refine ⟨[], ?_, factorSoFar_of_not_mem hname⟩
    rw [valuesOf_eq_nil (mt h.mem_names.mpr hname)]
    rfl

/-- The value after one more occurrence combines all of them. -/
theorem combine (h : Summarizes config met folded)
    (hvalue : config.combine folded step p = .ok value) :
    config.combined (met ++ [p]) p.name = some value := by
  unfold Config.combine at hvalue
  rw [combined, valuesOf_concat_self]
  cases hrule : config.ruleOf p.name with
  | last =>
    rw [hrule] at hvalue
    rw [Rule.combined, List.getLast?_concat, Except.ok.inj hvalue]
  | multiply =>
    -- the number kept so far is the product of the earlier values, so one factor more is enough
    obtain ⟨xs, hxs, hfactor⟩ := h.factorSoFar hrule
    rw [hrule] at hvalue
    cases hnumber : p.value.number? with
    | none => simp [hnumber] at hvalue
    | some x =>
      simp only [hnumber, hfactor] at hvalue
      split at hvalue
      · rw [← Except.ok.inj hvalue, Rule.combined, List.mapM_append, hxs]
        simp [hnumber, productOf]
      · exact absurd hvalue (by simp)

/-- One more occurrence is summarized by storing the value that it leads to. -/
theorem store (h : Summarizes config met folded)
    (hvalue : config.combine folded step p = .ok value) :
    Summarizes config (met ++ [p]) (Config.store p.name value folded) where
  names := by
    rw [map_name_store, List.map_append, List.map_singleton, eraseDups_concat, h.names]
    exact if_congr List.mem_eraseDups rfl rfl
  values := by
    intro q hq
    rcases mem_store h.nodup hq with rfl | ⟨hq, hne⟩
    · exact h.combine hvalue
    · rw [combined, valuesOf_concat_of_ne hne.symm]
      exact h.values q hq
  settled := by
    intro q hq
    rcases mem_store h.nodup hq with rfl | ⟨hq, -⟩
    · exact settled_of_combine hvalue
    · exact h.settled q hq

end Summarizes

/-! ## Runs over the occurrences -/

/-- A property is folded by storing the value that it combines to. -/
theorem outcome_foldProperty_eq_ok {occurrence : Step × Property} {next : List Property} :
    (config.foldProperty folded occurrence).outcome = .ok next ↔
      ∃ value, config.combine folded occurrence.1 occurrence.2 = .ok value ∧
        next = store occurrence.2.name value folded := by
  rw [foldProperty, Recorded.outcome_note_bind, Recorded.outcome_bind_eq_ok]
  exact exists_congr fun value => and_congr_right fun _ =>
    ⟨fun h => (Except.ok.inj h).symm, fun h => congrArg Except.ok h.symm⟩

/-- Occurrences that are folded one after another keep the list a summary. -/
theorem Summarizes.foldlM {met : List Property} {occurrences : List (Step × Property)}
    {next : List Property} (h : Summarizes config met folded)
    (hfold : (occurrences.foldlM config.foldProperty folded).outcome = .ok next) :
    Summarizes config (met ++ occurrences.map (·.2)) next := by
  -- on the occurrences left; what was met so far and the list for it move along
  induction occurrences generalizing met folded with
  | nil =>
    obtain rfl := Except.ok.inj hfold
    simpa using h
  | cons occurrence rest ih =>
    rw [List.foldlM_cons, Recorded.outcome_bind_eq_ok] at hfold
    obtain ⟨mid, hmid, hrest⟩ := hfold
    obtain ⟨value, hvalue, rfl⟩ := outcome_foldProperty_eq_ok.mp hmid
    simpa using ih (h.store hvalue) hrest

theorem summarizes_nil : Summarizes config [] [] :=
  ⟨rfl, fun _ h => absurd h List.not_mem_nil, fun _ h => absurd h List.not_mem_nil⟩

/-- **A fold ends with the summary of its occurrences.** -/
theorem summarizes_of_foldlM {occurrences : List (Step × Property)}
    (hfold : (occurrences.foldlM config.foldProperty []).outcome = .ok folded) :
    Summarizes config (occurrences.map (·.2)) folded :=
  summarizes_nil.foldlM hfold

/-! ## Neutral properties -/

/-- The test for a neutral value finds the neutral properties. -/
theorem isNeutral_iff {p : Property} : config.isNeutral p = true ↔ config.Neutral p := by
  obtain ⟨name, value⟩ := p
  unfold isNeutral neutralOf? Neutral
  cases hrule : config.rules.get? name with
  | none => simp
  | some rule =>
    cases hneutral : rule.neutral with
    | none => simp [hneutral]
    | some neutral => cases value <;> simp [hneutral, Value.number?, Binary64.within]

instance (config : Config) (p : Property) : Decidable (config.Neutral p) :=
  decidable_of_iff _ isNeutral_iff

/-- What the test leaves are the properties that are not neutral. -/
theorem filter_not_isNeutral (config : Config) (folded : List Property) :
    folded.filter (!config.isNeutral ·) = folded.filter fun p => ¬ config.Neutral p := by
  refine List.filter_congr fun p _ => ?_
  rw [Bool.eq_iff_iff, Bool.not_eq_true', decide_eq_true_eq, ← isNeutral_iff, Bool.not_eq_true]

end Config

namespace Chain

variable {config : Config} {heldBack : Option HeldBack}

/-- A head followed by one step that stands for all effects, if it has properties. -/
def collapsed (head : Step) (last? : Option Step) (properties : List Property) : Chain :=
  ⟨head :: if properties = [] then [] else (last?.map (syntheticStep · properties)).toList⟩

/-- The occurrences of properties are folded, and what is kept of them is put into one step. -/
theorem fold_cons (config : Config) (head : Step) (effects : List Step)
    (heldBack : Option HeldBack) :
    (Chain.mk (head :: effects)).fold config heldBack =
      ((Chain.mk (head :: effects)).occurrences heldBack).foldlM config.foldProperty [] >>=
        fun folded => pure (collapsed head effects.getLast?
          (folded.filter fun p => ¬ config.Neutral p)) := by
  simp only [← Config.filter_not_isNeutral]
  unfold fold
  rw [Chain.effects, List.tail_cons]
  cases hlast : effects.getLast? with
  | none =>
    obtain rfl := List.getLast?_eq_none_iff.mp hlast
    rfl
  | some last =>
    refine Recorded.bind_congr fun folded _ => ?_
    -- the step is left out exactly if no property is kept
    cases hkept : folded.filter (!config.isNeutral ·) <;> rfl

/-- The fold of a chain succeeds with the collapse of what the occurrences fold to. -/
theorem outcome_fold_eq_ok {head : Step} {effects : List Step} {d : Chain} :
    ((Chain.mk (head :: effects)).fold config heldBack).outcome = .ok d ↔
      ∃ folded, (((Chain.mk (head :: effects)).occurrences heldBack).foldlM config.foldProperty
          []).outcome = .ok folded ∧
        d = collapsed head effects.getLast? (folded.filter fun p => ¬ config.Neutral p) := by
  rw [fold_cons, Recorded.outcome_bind_eq_ok]
  exact exists_congr fun folded => and_congr_right fun _ =>
    ⟨fun h => (Except.ok.inj h).symm, fun h => congrArg Except.ok h.symm⟩

end Chain

end Patchbay
