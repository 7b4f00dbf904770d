import Patchbay.Proofs.Chain.Flaws

/-!
# The outcome of a fold

What a chain folds to, said without the list that the fold keeps.  A chain without effects stays as
it is.  Of the others the properties of the effects are taken in order, without the one that is held
back (`Step.unheld`); each name among them has what all its values combine to by its rule, in the
order of the first occurrences, and the names whose value is neutral are dropped.
`outcome_fold_iff` says that a fold succeeds exactly if no occurrence spoils the product of its
name, and with exactly this chain.

## Shape of the proof

* `foldsTo_of_fold`: a fold that succeeds ends with the summary of its occurrences, and then it has
  met no flaw (`flaws_eq_nil_iff`).
* `FoldsTo.unique`: the names and what they combine to leave only one chain.
* Without flaws the fold succeeds with some chain, which therefore is this one.
-/

namespace Patchbay

/-! ## What is met and what is dropped -/

/-- The properties of a step that a fold meets: all of a step that is made by a fold, and of any
other step all but the one that is held back. -/
def Step.unheld (heldBack : Option HeldBack) (s : Step) : List Property :=
  if s.synthetic then s.properties
  else s.properties.filter fun p => heldBack ≠ some ⟨s.id, p.name⟩

/-- The properties that are folded are those that are not held back. -/
theorem Chain.foldedProperties_eq_unheld (heldBack : Option HeldBack) :
    Chain.foldedProperties heldBack = Step.unheld heldBack := by
  funext s
  unfold foldedProperties Step.unheld
  cases hmade : s.synthetic with
  | true => simp
  | false =>
    refine List.filter_congr fun p _ => ?_
    rw [Bool.false_or, Bool.eq_iff_iff, bne_iff_ne, decide_eq_true_eq]

namespace Config

variable {config : Config}

/-- There are no flaws exactly if every occurrence can be folded after those before it. -/
theorem flaws_eq_nil_iff {properties : List (String × Property)} :
    config.flaws [] properties = [] ↔ ∀ before p after,
      properties.map (·.2) = before ++ p :: after → ¬ config.Unfoldable before p := by
  rw [List.eq_nil_iff_forall_not_mem]
  constructor
  -- cut the pairs where the properties are cut: the id at the place is whatever it is
  · intro hnone before p after hsplit hunfoldable
    obtain ⟨before', rest, rfl, rfl, hrest⟩ := List.map_eq_append_iff.mp hsplit
    obtain ⟨⟨id, _⟩, after', rfl, rfl, rfl⟩ := List.map_eq_cons_iff.mp hrest
    obtain ⟨flaw, hflaw⟩ := Option.isSome_iff_exists.mp (isSome_flaw?_iff.mpr hunfoldable)
    exact hnone _ (mem_flaws_iff.mpr ⟨before', id, _, after', flaw, rfl, hflaw, rfl⟩)
  · intro hfoldable e he
    obtain ⟨before, id, p, after, flaw, rfl, hflaw, -⟩ := mem_flaws_iff.mp he
    refine hfoldable (before.map (·.2)) p (after.map (·.2)) (by simp) (isSome_flaw?_iff.mp ?_)
    exact Option.isSome_iff_exists.mpr ⟨flaw, hflaw⟩

end Config

namespace Chain

variable {config : Config} {heldBack : Option HeldBack} {head last : Step} {effects : List Step}
  {met : List Property} {d d' : Chain}

/-- What occurrences of properties fold to behind a head, at effects of which `last` is the last. -/
structure FoldsTo (config : Config) (met : List Property) (head last : Step) (d : Chain) :
    Prop where
  /-- No occurrence is one that cannot be folded after those before it. -/
  foldable : ∀ before p after, met = before ++ p :: after → ¬ config.Unfoldable before p
  /-- The head is followed by a copy of the last effect that has the names met and the values to
  which they combine, without those that are neutral; or by nothing if none is left. -/
  result : ∃ folded kept : List Property,
    folded.map (·.name) = (met.map (·.name)).eraseDups ∧
      (∀ p ∈ folded, config.combined met p.name = some p.value) ∧
      (kept = folded.filter fun p => ¬ config.Neutral p) ∧
      d.steps = head :: if kept = [] then [] else
        [{ last with properties := kept, synthetic := true }]

/-! ## The fold of a chain with effects -/

/-- The properties of a list with ids are those of its steps. -/
theorem map_snd_listed (f : Step → List Property) :
    (effects.flatMap fun s => s.listed (f s)).map (·.2) = effects.flatMap f := by
  rw [List.map_flatMap]
  refine List.flatMap_congr fun s _ => ?_
  rw [Step.listed, List.map_map]
  exact List.map_id _

/-- A fold succeeds exactly if every occurrence can be folded after those before it. -/
theorem exists_fold_iff :
    (∃ d, ((Chain.mk (head :: effects)).fold config heldBack).outcome = .ok d) ↔
      ∀ before p after, effects.flatMap (Step.unheld heldBack) = before ++ p :: after →
        ¬ config.Unfoldable before p := by
  rw [(failsFirst_fold config head effects heldBack).exists_ok_iff, Config.flaws_eq_nil_iff,
    map_snd_listed, foldedProperties_eq_unheld]

/-- A fold that succeeds ends with the summary of its occurrences. -/
theorem foldsTo_of_fold (hlast : effects.getLast? = some last)
    (hfold : ((Chain.mk (head :: effects)).fold config heldBack).outcome = .ok d) :
    FoldsTo config (effects.flatMap (Step.unheld heldBack)) head last d := by
  refine ⟨exists_fold_iff.mp ⟨d, hfold⟩, ?_⟩
  obtain ⟨folded, hsummarizes, rfl⟩ := exists_summarizes_of_fold hfold
  rw [folding, foldedProperties_eq_unheld] at hsummarizes
  refine ⟨folded, _, hsummarizes.names, hsummarizes.values, rfl, ?_⟩
  rw [collapsed, hlast, Option.map_some, Option.toList_some]
  rfl

/-- The names and what they combine to leave only one chain. -/
theorem FoldsTo.unique (h : FoldsTo config met head last d) (h' : FoldsTo config met head last d') :
    d = d' := by
  obtain ⟨folded, kept, hnames, hvalues, rfl, hsteps⟩ := h.result
  obtain ⟨folded', kept', hnames', hvalues', rfl, hsteps'⟩ := h'.result
  -- both lists are the summary of what was met, so nothing is left to choose
  obtain rfl := Config.eq_summary_of_values hnames hvalues
  obtain rfl := Config.eq_summary_of_values hnames' hvalues'
  exact congrArg Chain.mk (hsteps.trans hsteps'.symm)

/-- **What a chain folds to.**  A chain without effects always folds to itself.  The fold of any
other chain succeeds exactly if every occurrence of a property at its effects can be folded, the one
that is held back apart, and with the chain that the occurrences fold to and with no other. -/
theorem outcome_fold_iff (config : Config) (heldBack : Option HeldBack) (c d : Chain) :
    (c.fold config heldBack).outcome = .ok d ↔
      (c.steps.length ≤ 1 → d = c) ∧
        ∀ head effects last, c.steps = head :: effects → effects.getLast? = some last →
          FoldsTo config (effects.flatMap (Step.unheld heldBack)) head last d := by
  obtain ⟨_ | ⟨head, effects⟩⟩ := c
  · exact ⟨fun h => ⟨fun _ => (Except.ok.inj h).symm, fun _ _ _ h => absurd h (by simp)⟩,
      fun h => congrArg Except.ok (h.1 (Nat.zero_le 1)).symm⟩
  cases hlast : effects.getLast? with
  | none =>
    obtain rfl := List.getLast?_eq_none_iff.mp hlast
    refine ⟨fun h => ⟨fun _ => (Except.ok.inj h).symm, ?_⟩,
      fun h => congrArg Except.ok (h.1 le_rfl).symm⟩
    rintro _ _ _ ⟨⟩ ⟨⟩
  -- only here the fold is carried out, and the bound on the length is void
  | some last =>
    have heffects : effects ≠ [] := by
      rintro rfl
      exact absurd hlast (by simp)
    have hlong : ¬ (head :: effects).length ≤ 1 := by
      have := List.length_pos_iff.mpr heffects
      rw [List.length_cons]
      omega
    constructor
    · intro hfold
      refine ⟨fun h => absurd h hlong, ?_⟩
      rintro _ _ last' ⟨⟩ hlast'
      obtain rfl := Option.some.inj (hlast.symm.trans hlast')
      exact foldsTo_of_fold hlast hfold
    · rintro ⟨-, h⟩
      have hfoldsTo := h head effects last rfl hlast
      -- the fold succeeds with some chain, which has to be this one
      obtain ⟨d', hd'⟩ := exists_fold_iff.mpr hfoldsTo.foldable
      rw [hfoldsTo.unique (foldsTo_of_fold hlast hd'), hd']

end Chain

end Patchbay
