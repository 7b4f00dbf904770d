import Patchbay.Chain.FoldRun
import Patchbay.Proofs.Distinct
import Patchbay.Proofs.Recorded

/-!
# The list of the names that were met

A fold hands the list of the rules that have been applied from one property to the next, and puts a
name at the end of it unless the list has the name already.  Carried out with a list, a sequence of
steps hands the list on from step to step, also where it fails (`Recorded.carry_bind`), so it makes
no difference whether the names are put into the list when they are met or behind the whole fold.

One name more keeps the list as a beginning (`extends_addName`) and keeps it without repetitions
(`nodup_addName`), so a whole run of names does.  A list to which names are put one by one has their
first occurrences in order (`foldl_addName`).
-/

namespace Patchbay

variable {names : List String}

/-! ## One name more -/

/-- One name more changes nothing in front of the end of the list. -/
theorem extends_addName (names : List String) (name : String) : names <+: addName names name := by
  unfold addName
  split
  · exact List.prefix_refl names
  · exact List.prefix_append names [name]

/-- One name more is never a repetition. -/
theorem nodup_addName (h : names.Nodup) (name : String) : (addName names name).Nodup := by
  unfold addName
  split
  next => exact h
  next hnew => exact h.append (List.nodup_singleton name) (by simpa using hnew)

/-- One name more is the next of the first occurrences, if the name is new. -/
theorem addName_eraseDups (names : List String) (name : String) :
    addName names.eraseDups name = (names ++ [name]).eraseDups := by
  rw [addName, eraseDups_concat]
  exact if_congr (by simp [List.mem_eraseDups]) rfl rfl

/-! ## Names one after another -/

/-- Whatever names are met, the list is extended at its end only. -/
theorem extends_foldl_addName (names met : List String) : names <+: met.foldl addName names := by
  -- on the names that are met; the list moves along
  induction met generalizing names with
  | nil => exact List.prefix_refl names
  | cons name rest ih => exact (extends_addName names name).trans (ih (addName names name))

/-- Whatever names are met, none is in the list twice. -/
theorem nodup_foldl_addName (h : names.Nodup) (met : List String) :
    (met.foldl addName names).Nodup := by
  induction met generalizing names with
  | nil => exact h
  | cons name rest ih => exact ih (nodup_addName h name)

/-- The list has the first occurrences of all names, those from before and those that are met. -/
theorem foldl_addName (names met : List String) :
    met.foldl addName names.eraseDups = (names ++ met).eraseDups := by
  induction met generalizing names with
  | nil => rw [List.foldl_nil, List.append_nil]
  | cons name rest ih =>
    rw [List.foldl_cons, addName_eraseDups, ih, List.append_assoc, List.singleton_append]

/-- The list that begins without a name has the first occurrences of those that are met. -/
theorem firstMeetings_eq_eraseDups (met : List String) : firstMeetings met = met.eraseDups :=
  foldl_addName [] met

/-- Names met later are new unless they are among those met before. -/
theorem firstMeetings_append (met met' : List String) :
    firstMeetings (met ++ met') =
      firstMeetings met ++ (firstMeetings met').filter (!(firstMeetings met).contains ·) := by
  simp only [firstMeetings_eq_eraseDups]
  -- on the names met later, from their end
  induction met' using List.reverseRecOn with
  | nil => simp
  | append_singleton met' name ih =>
    rw [← List.append_assoc, eraseDups_concat, eraseDups_concat, ih]
    by_cases hmet : name ∈ met <;> by_cases hmet' : name ∈ met' <;>
      simp [hmet, hmet', List.filter_append, List.mem_eraseDups]

/-! ## Steps that hand the list on -/

namespace Recorded

variable {α β : Type}

/-- A sequence hands the list on: the second step is carried out with the list that the first one
leaves, and a failure of the first one leaves the list as it is then. -/
theorem carry_bind (x : Recorded String α) (f : α → Recorded String β) (applied : List String) :
    (x >>= f).carry applied = match x.carry applied with
      | (.ok a, applied) => (f a).carry applied
      | (.error e, applied) => (.error e, applied) := by
  cases hx : x.outcome with
  | ok a => simp only [carry, bind_of_ok hx, hx, List.foldl_append]
  | error e => simp only [carry, bind_of_error hx, hx]

end Recorded

/-- One property that is folded puts its name into the list, if the table has a rule for it, before
its value is looked at. -/
theorem Config.carry_foldProperty (config : Config) (folded : List Property) (step : Step)
    (p : Property) (applied : List String) :
    (config.foldProperty folded (step, p)).carry applied =
      ((config.combine folded step p).map (store p.name · folded),
        if config.rules.contains p.name then addName applied p.name else applied) := by
  simp only [foldProperty, Recorded.carry_bind]
  unfold Recorded.carry
  -- the name is put into the list before the value is combined, so a failure keeps it
  cases config.combine folded step p <;>
    cases config.rules.contains p.name <;> simp [Except.map]

end Patchbay
