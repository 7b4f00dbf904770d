import Patchbay.Proofs.Chain.Fragment
import Patchbay.Proofs.Number.Places

/-!
# Properties that cannot be folded

A fold fails at the first property that cannot be combined with those before it.  Said without the
list that the fold keeps, a property has a flaw if its rule multiplies and either it is no number or
the rounded product of the numbers under its name leaves the range of numbers (`Unfoldable`).  The
flaws of a chain are listed half by half, each half in the order of the fold (`Chain.flaws`), and
arranging and folding the chain fails with the first of them (`Chain.Drawn.failsFirst_fold`).

## Shape of the proof

* the number that a fold has kept is the product of those before (`Summarizes.factorSoFar`), so one
  step fails exactly with the flaw of its property (`Summarizes.failsFirst_combine`);
* the invariant `Summarizes` is preserved by a step, so the run fails with the first flaw
  (`Summarizes.failsFirst_foldlM`);
* the halves of a chain are what its arrangement folds (`failsFirst_fold_inner`,
  `failsFirst_fold_none`), one after the other.
-/

namespace Patchbay

/-! ## The reference -/

/-- The numbers among the values under a name, in order. -/
def numbersOf (name : String) (met : List Property) : List Binary64 :=
  (valuesOf name met).filterMap Value.number?

namespace Config

/-- What is wrong with a property after those met before it: it is to be multiplied and is no
number, or the product with it leaves the range of numbers. -/
def flaw? (config : Config) (met : List Property) (p : Property) : Option Flaw :=
  match config.ruleOf p.name, p.value.number? with
  | .last, _ => none
  | .multiply, none => some (.notNumber p.value)
  | .multiply, some x =>
    if (productOf (numbersOf p.name met ++ [x])).isFinite then none
    else some (.boundless (productOf (numbersOf p.name met)) x)

/-- The flaws of properties at the steps with the given ids, in their order. -/
def flaws (config : Config) : (met : List Property) → List (String × Property) → List Failure
  | _, [] => []
  | met, (id, p) :: rest =>
    ((config.flaw? met p).map (.malformed id p.name)).toList ++ config.flaws (met ++ [p]) rest

/-- A property cannot be folded after those met before it: its rule multiplies, and it is no number
or makes the rounded product of the numbers under its name one that is not finite. -/
def Unfoldable (config : Config) (met : List Property) (p : Property) : Prop :=
  config.ruleOf p.name = .multiply ∧
    (p.value.number? = none ∨ ¬ (productOf (numbersOf p.name (met ++ [p]))).isFinite)

end Config

/-- The properties of a step, each with the id of the step. -/
def Step.listed (s : Step) (properties : List Property) : List (String × Property) :=
  properties.map (s.id, ·)

/-- The properties of effects that are folded together: of all effects, or of those up to the last
one that wraps, without the argument of that one, and of those after it. -/
def Step.halves (effects : List Step) : List (List (String × Property)) :=
  let ordered := effects.mergeSort fun a b => a.priority ≤ b.priority
  let enclosed := ordered.rdropWhile (!·.wraps)
  let after := ordered.rtakeWhile (!·.wraps)
  match enclosed.getLast? with
  | none => [ordered.flatMap fun s => s.listed s.properties]
  | some wrapper =>
    [(enclosed.dropLast.flatMap fun s => s.listed s.properties)
        ++ wrapper.listed wrapper.ownProperties,
      after.flatMap fun s => s.listed s.properties]

namespace Chain

/-- The properties of a chain that are folded together. -/
def halves (c : Chain) : List (List (String × Property)) := Step.halves c.effects

/-- The flaws of a chain, the inner half first. -/
def flaws (config : Config) (c : Chain) : List Failure := c.halves.flatMap (config.flaws [])

end Chain

/-! ## One step -/

/-- One value more of a name is one number more, if it is one. -/
theorem numbersOf_concat_self (met : List Property) (p : Property) :
    numbersOf p.name (met ++ [p]) = numbersOf p.name met ++ p.value.number?.toList := by
  rw [numbersOf, valuesOf_concat_self, List.filterMap_append, ← numbersOf]
  cases hnumber : p.value.number? <;> simp [hnumber]

/-- Where all values under a name are numbers, these are they. -/
theorem numbersOf_of_mapM {name : String} {met : List Property} {xs : List Binary64}
    (h : (valuesOf name met).mapM Value.number? = some xs) : numbersOf name met = xs := by
  rw [numbersOf]
  generalize valuesOf name met = values at h
  induction values generalizing xs with
  | nil => exact Option.some.inj h
  | cons value rest ih =>
    rw [List.mapM_cons] at h
    obtain ⟨x, hx, h⟩ := Option.bind_eq_some_iff.mp h
    obtain ⟨xs', hxs', h⟩ := Option.bind_eq_some_iff.mp h
    rw [List.filterMap_cons_some hx, ih hxs', Option.some.inj h]

/-- One factor more is multiplied and rounded. -/
theorem productOf_concat (xs : List Binary64) (x : Binary64) :
    productOf (xs ++ [x]) = (productOf xs * x).roundToDecimals productPlaces := by
  rw [productOf, List.foldl_append]
  rfl

namespace Config

variable {config : Config} {met folded : List Property}

/-- A property has a flaw if it cannot be folded after those before it. -/
theorem isSome_flaw?_iff {p : Property} :
    (config.flaw? met p).isSome ↔ config.Unfoldable met p := by
  rw [Unfoldable, numbersOf_concat_self]
  unfold flaw?
  cases config.ruleOf p.name with
  | last => simp
  | multiply =>
    cases p.value.number? with
    | none => simp
    | some x => by_cases h : (productOf (numbersOf p.name met ++ [x])).isFinite <;> simp [h]

/-- One more occurrence fails to be combined exactly with its flaw. -/
theorem Summarizes.failsFirst_combine (h : Summarizes config met folded) (step : Step)
    (p : Property) :
    Recorded.FailsFirst (config.combine folded step p)
      ((config.flaw? met p).map (.malformed step.id p.name)).toList := by
  unfold Config.combine flaw?
  cases hrule : config.ruleOf p.name with
  | last => exact Recorded.failsFirst_ok _
  | multiply =>
    cases hnumber : p.value.number? with
    | none => exact Recorded.failsFirst_error _
    | some x =>
      obtain ⟨xs, hxs, hfactor⟩ := h.factorSoFar hrule
      -- what was met is all numbers, and their product is the factor that the fold has kept
      simp only [numbersOf_of_mapM hxs, hfactor, productOf_concat, productPlaces,
        Binary64.isFinite_roundToDecimals]
      split
      · exact Recorded.failsFirst_ok _
      · exact Recorded.failsFirst_error _

/-- A step of a fold fails exactly with the flaw of its property. -/
theorem Summarizes.failsFirst_foldProperty (h : Summarizes config met folded) (step : Step)
    (p : Property) :
    Recorded.FailsFirst (config.foldProperty folded (step, p)).outcome
      ((config.flaw? met p).map (.malformed step.id p.name)).toList :=
  .bind_ok (x := .ofExcept (config.combine folded step p)) (h.failsFirst_combine step p)
    fun _ => ⟨_, rfl⟩

/-! ## Runs over the occurrences -/

/-- **A fold fails with the first flaw of its occurrences.** -/
theorem Summarizes.failsFirst_foldlM (h : Summarizes config met folded)
    (occurrences : List (Step × Property)) :
    Recorded.FailsFirst (occurrences.foldlM config.foldProperty folded).outcome
      (config.flaws met (occurrences.map fun o => (o.1.id, o.2))) := by
  -- on the occurrences left; what was met so far and the list for it move along
  induction occurrences generalizing met folded with
  | nil => exact Recorded.failsFirst_ok folded
  | cons occurrence rest ih =>
    obtain ⟨step, p⟩ := occurrence
    rw [List.foldlM_cons, List.map_cons, flaws]
    refine (h.failsFirst_foldProperty step p).bind fun next hnext => ?_
    obtain ⟨value, hvalue, rfl⟩ := outcome_foldProperty_eq_ok.mp hnext
    exact ih (h.store hvalue)

/-- The flaws of properties are those of each after the ones before it. -/
theorem mem_flaws_iff {properties : List (String × Property)} {e : Failure} :
    e ∈ config.flaws met properties ↔ ∃ before id p after flaw,
      properties = before ++ (id, p) :: after ∧
        config.flaw? (met ++ before.map (·.2)) p = some flaw ∧ e = .malformed id p.name flaw := by
  induction properties generalizing met with
  | nil => simp [flaws]
  | cons first rest ih =>
    obtain ⟨id, p⟩ := first
    rw [flaws, List.mem_append, ih]
    constructor
    · rintro (h | ⟨before, id', q, after, flaw, rfl, hflaw, he⟩)
      · obtain ⟨flaw, hflaw, rfl⟩ := Option.map_eq_some_iff.mp (Option.mem_toList.mp h)
        exact ⟨[], id, p, rest, flaw, rfl, by simpa using hflaw, rfl⟩
      · exact ⟨(id, p) :: before, id', q, after, flaw, rfl, by simpa using hflaw, he⟩
    · rintro ⟨_ | ⟨first, before⟩, id', q, after, flaw, hsplit, hflaw, he⟩
      · obtain ⟨⟨rfl, rfl⟩, rfl⟩ := List.cons_eq_cons.mp hsplit
        refine .inl (Option.mem_toList.mpr (Option.map_eq_some_iff.mpr ⟨flaw, ?_, he.symm⟩))
        simpa using hflaw
      · obtain ⟨rfl, rfl⟩ := List.cons_eq_cons.mp hsplit
        exact .inr ⟨before, id', q, after, flaw, rfl, by simpa using hflaw, he⟩

end Config

/-! ## The halves of a chain -/

namespace Chain

variable {config : Config} {head : Step} {effects before after : List Step} {wrapper : Step}

/-- The occurrences of a fold are the listed properties of the effects. -/
theorem map_occurrences (heldBack : Option HeldBack) (c : Chain) :
    (c.occurrences heldBack).map (fun o => (o.1.id, o.2)) =
      c.effects.flatMap fun s => s.listed (foldedProperties heldBack s) := by
  rw [occurrences, List.map_flatMap]
  refine List.flatMap_congr fun s _ => ?_
  rw [List.map_map]
  rfl

/-- A chain fails to be folded with the first flaw of its occurrences. -/
theorem failsFirst_fold (config : Config) (head : Step) (effects : List Step)
    (heldBack : Option HeldBack) :
    Recorded.FailsFirst ((Chain.mk (head :: effects)).fold config heldBack).outcome
      (config.flaws [] (effects.flatMap fun s => s.listed (foldedProperties heldBack s))) := by
  have hnothing : Config.Summarizes config [] [] := Config.summarizes_nil
  have hfold := hnothing.failsFirst_foldlM ((Chain.mk (head :: effects)).occurrences heldBack)
  rw [map_occurrences, Chain.effects, List.tail_cons] at hfold
  rw [fold_cons]
  exact hfold.bind_ok fun folded => ⟨_, rfl⟩

/-- A fold that holds nothing back fails with the first flaw of all properties. -/
theorem failsFirst_fold_none :
    Recorded.FailsFirst ((Chain.mk (head :: effects)).fold config none).outcome
      (config.flaws [] (effects.flatMap fun s => s.listed s.properties)) := by
  have hfold := failsFirst_fold config head effects none
  simpa only [foldedProperties_none] using hfold

/-- The fold of the inner half fails with its first flaw, and the argument of the wrapper has none.
-/
theorem failsFirst_fold_inner (hids : ∀ e ∈ before, e.id ≠ wrapper.id)
    (hdrawn : wrapper.synthetic = false) :
    Recorded.FailsFirst
      ((Chain.mk (head :: (before ++ [wrapper]))).fold config
        (Arrangement.heldBack wrapper)).outcome
      (config.flaws [] ((before.flatMap fun s => s.listed s.properties)
        ++ wrapper.listed wrapper.ownProperties)) := by
  have hfold := failsFirst_fold config head (before ++ [wrapper]) (Arrangement.heldBack wrapper)
  rwa [List.flatMap_append, List.flatMap_singleton, foldedProperties_wrapper hdrawn,
    List.flatMap_congr fun e he => by rw [foldedProperties_of_id_ne (hids e he)]] at hfold

/-- Without a wrapping effect all properties are in one half. -/
theorem halves_plain (h : ∀ e ∈ byStage effects, e.wraps = false) :
    Step.halves effects = [(byStage effects).flatMap fun s => s.listed s.properties] := by
  have henclosed : (byStage effects).rdropWhile (!·.wraps) = [] :=
    List.rdropWhile_eq_nil_iff.mpr fun e he => by simp [h e he]
  rw [byStage_eq_mergeSort] at henclosed
  simp only [Step.halves, henclosed, List.getLast?_nil, byStage_eq_mergeSort]

/-- The last wrapping effect ends the inner half, and what comes behind it is the outer one. -/
theorem halves_wrapped (h : byStage effects = before ++ wrapper :: after) (hwraps : wrapper.wraps)
    (hafter : ∀ e ∈ after, e.wraps = false) :
    Step.halves effects =
      [(before.flatMap fun s => s.listed s.properties) ++ wrapper.listed wrapper.ownProperties,
        after.flatMap fun s => s.listed s.properties] := by
  have henclosed : (before ++ wrapper :: after).rdropWhile (!·.wraps) = before ++ [wrapper] :=
    rdropWhile_not_append hwraps hafter
  have hbehind : (before ++ wrapper :: after).rtakeWhile (!·.wraps) = after :=
    rtakeWhile_not_append hwraps hafter
  rw [byStage_eq_mergeSort] at h
  simp only [Step.halves, h, henclosed, hbehind, List.getLast?_concat, List.dropLast_concat]

/-- **A chain fails with its first flaw.**  A chain as it is found in a patch that is arranged and
folded fails with the first of its flaws, and succeeds if it has none. -/
theorem Drawn.failsFirst_fold {c : Chain} (h : c.Drawn) (config : Config) :
    Recorded.FailsFirst (c.arrange.fold config).outcome (c.flaws config) := by
  obtain ⟨_ | ⟨head, effects⟩⟩ := c
  · exact absurd rfl h.nonempty
  rw [flaws, halves, Chain.effects, List.tail_cons]
  rcases exists_last_or_forall_not Step.wraps (byStage effects) with
    hwraps | ⟨before, wrapper, after, hsplit, hwraps, hafter⟩
  · rw [arrange_plain hwraps, halves_plain hwraps, List.flatMap_singleton]
    exact failsFirst_fold_none.bind_ok fun d => ⟨_, rfl⟩
  · obtain ⟨hids, hdrawn⟩ := h.wrapper_apart hsplit
    rw [arrange_wrapped hsplit hwraps hafter, halves_wrapped hsplit hwraps hafter,
      List.flatMap_cons, List.flatMap_singleton]
    -- the outer half is folded only if the inner one is, so its flaws come second
    refine (failsFirst_fold_inner hids hdrawn).bind fun inner _ => ?_
    exact failsFirst_fold_none.bind_ok fun outer => ⟨_, rfl⟩

/-- The properties that are folded are at the effects. -/
theorem exists_of_mem_halves {half : List (String × Property)} (hhalf : half ∈ Step.halves effects)
    {id : String} {p : Property} (hp : (id, p) ∈ half) :
    ∃ s ∈ effects, s.id = id ∧ p ∈ s.properties := by
  -- whatever half it is, its entries come from steps of the sorted list
  have hlisted : ∀ {s : Step} {properties : List Property}, (id, p) ∈ s.listed properties →
      s.id = id ∧ p ∈ properties := fun h => by
    obtain ⟨q, hq, heq⟩ := List.mem_map.mp h
    obtain ⟨rfl, rfl⟩ := Prod.mk.inj heq
    exact ⟨rfl, hq⟩
  have hsteps : ∀ {steps : List Step}, steps ⊆ effects →
      (id, p) ∈ (steps.flatMap fun s => s.listed s.properties) →
        ∃ s ∈ effects, s.id = id ∧ p ∈ s.properties := fun hsub h => by
    obtain ⟨s, hs, h⟩ := List.mem_flatMap.mp h
    exact ⟨s, hsub hs, hlisted h⟩
  have hsub : byStage effects ⊆ effects := fun s hs => by
    rw [byStage_eq_mergeSort] at hs
    exact List.mem_mergeSort.mp hs
  rcases exists_last_or_forall_not Step.wraps (byStage effects) with
    hwraps | ⟨before, wrapper, after, hsplit, hwraps, hafter⟩
  · rw [halves_plain hwraps, List.mem_singleton] at hhalf
    exact hsteps hsub (hhalf ▸ hp)
  · rw [halves_wrapped hsplit hwraps hafter] at hhalf
    rw [hsplit] at hsub
    obtain ⟨hbefore, hrest⟩ := List.append_subset.mp hsub
    obtain ⟨hwrapper, hafter⟩ := List.cons_subset.mp hrest
    rcases List.mem_pair.mp hhalf with rfl | rfl
    · rcases List.mem_append.mp hp with hp | hp
      · exact hsteps hbefore hp
      · obtain ⟨hid, hp⟩ := hlisted hp
        exact ⟨wrapper, hwrapper, hid, List.mem_of_mem_filter hp⟩
    · exact hsteps hafter hp

/-- The flaws of a chain are at its effects. -/
theorem exists_of_mem_flaws {c : Chain} {e : Failure} (h : e ∈ c.flaws config) :
    ∃ s ∈ c.effects, ∃ p ∈ s.properties, ∃ flaw, e = .malformed s.id p.name flaw := by
  obtain ⟨half, hhalf, h⟩ := List.mem_flatMap.mp h
  obtain ⟨before, id, p, after, flaw, rfl, -, rfl⟩ := Config.mem_flaws_iff.mp h
  have hmem : (id, p) ∈ before ++ (id, p) :: after :=
    List.mem_append_right _ List.mem_cons_self
  obtain ⟨s, hs, rfl, hp⟩ := exists_of_mem_halves hhalf hmem
  exact ⟨s, hs, p, hp, flaw, rfl⟩

end Chain

end Patchbay
