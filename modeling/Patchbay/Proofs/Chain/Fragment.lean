import Patchbay.Pattern
import Patchbay.Proofs.Chain.Arrange
import Patchbay.Proofs.Chain.Summary

/-!
# The fragment of a chain

A chain goes through four stages before it is text: it is sorted, its wrapper is lifted out, both
halves are folded, and an expression is rendered.  `fragment` says what comes out at the end in
terms of the head and the effects alone, as the text of a call with the summaries of its effects
behind it, and `render_fragment` says that the stages compute it.

The wrapper is a step of both halves.  What keeps its argument from being folded into the inner one
is its id, so the ids of a chain have to be distinct, and its steps must not be made by a fold;
`Chain.Drawn` holds of the chains of a patch.
-/

namespace Patchbay

/-! ## The reference -/

/-- The text of the transform that a property becomes; a flag that is not set has none. -/
def Property.transformText (p : Property) : String :=
  match p.value with
  | .flag true => "." ++ p.name ++ "()"
  | .flag false => ""
  | value => "." ++ p.name ++ "(" ++ value.literal ++ ")"

/-- The properties that occurrences of properties combine to, without those that are neutral. -/
def Config.audible (config : Config) (met : List Property) : List Property :=
  (config.summary met).filter fun p => ¬ config.Neutral p

/-- The text of the transforms that occurrences of properties amount to. -/
def Config.transformsText (config : Config) (met : List Property) : String :=
  String.join ((config.audible met).map Property.transformText)

/-- The text of the call of a step. -/
def Step.callText (s : Step) : String :=
  s.call ++ "(" ++ (s.argumentValue?.map Value.literal).getD "" ++ ")"

/-- The properties of a step other than its argument. -/
def Step.ownProperties (s : Step) : List Property :=
  s.properties.filter (s.argument != some ·.name)

/-- The text of a head and its effects.  The effects are put in the order of their stages, and the
last one that wraps encloses the call of the head and the effects before it; its own properties go
inside, without its argument. -/
def Step.fragment (config : Config) (head : Step) (effects : List Step) : String :=
  let ordered := effects.mergeSort fun a b => a.priority ≤ b.priority
  let enclosed := ordered.rdropWhile (!·.wraps)
  let after := ordered.rtakeWhile (!·.wraps)
  match enclosed.getLast? with
  | none => head.callText ++ config.transformsText (ordered.flatMap (·.properties))
  | some wrapper =>
    wrapper.call ++ "("
      ++ (head.callText ++ config.transformsText
        (enclosed.dropLast.flatMap (·.properties) ++ wrapper.ownProperties))
      ++ (wrapper.argumentValue?.map fun value => ", " ++ value.literal).getD "" ++ ")"
      ++ config.transformsText (after.flatMap (·.properties))

/-- The fragment of a chain. -/
def Chain.fragment (config : Config) (c : Chain) : String :=
  match c.steps with
  | [] => ""
  | head :: effects => head.fragment config effects

section Reference

variable {config : Config} {head : Step} {effects : List Step}

/-- Without a wrapping effect a fragment is one call with transforms. -/
theorem Step.fragment_plain (h : ∀ e ∈ Chain.byStage effects, e.wraps = false) :
    head.fragment config effects = head.callText ++
      config.transformsText ((Chain.byStage effects).flatMap (·.properties)) := by
  have henclosed : (Chain.byStage effects).rdropWhile (!·.wraps) = [] :=
    List.rdropWhile_eq_nil_iff.mpr fun e he => by simp [h e he]
  rw [Chain.byStage_eq_mergeSort] at henclosed
  simp only [Step.fragment, henclosed, List.getLast?_nil, Chain.byStage_eq_mergeSort]

/-- The last wrapping effect encloses what comes before it. -/
theorem Step.fragment_wrapped {before after : List Step} {wrapper : Step}
    (h : Chain.byStage effects = before ++ wrapper :: after) (hwraps : wrapper.wraps)
    (hafter : ∀ e ∈ after, e.wraps = false) :
    head.fragment config effects =
      wrapper.call ++ "("
        ++ (head.callText ++ config.transformsText
          (before.flatMap (·.properties) ++ wrapper.ownProperties))
        ++ (wrapper.argumentValue?.map fun value => ", " ++ value.literal).getD "" ++ ")"
        ++ config.transformsText (after.flatMap (·.properties)) := by
  have henclosed : (before ++ wrapper :: after).rdropWhile (!·.wraps) = before ++ [wrapper] :=
    rdropWhile_not_append hwraps hafter
  have hbehind : (before ++ wrapper :: after).rtakeWhile (!·.wraps) = after :=
    rtakeWhile_not_append hwraps hafter
  rw [Chain.byStage_eq_mergeSort] at h
  simp only [Step.fragment, h, henclosed, hbehind, List.getLast?_concat, List.dropLast_concat]

end Reference

/-! ## Rendering -/

/-- The text of the transform of a property, character by character. -/
theorem toList_transformText (p : Property) :
    p.transformText.toList = ((Transform.ofProperty? p).map Transform.chars).getD [] := by
  obtain ⟨name, on | x | s⟩ := p
  · cases on <;> simp [Property.transformText, Transform.ofProperty?, Transform.chars]
  · simp [Property.transformText, Transform.ofProperty?, Transform.chars, Value.literal]
  · simp [Property.transformText, Transform.ofProperty?, Transform.chars, Value.literal]

/-- The transforms of effects are rendered property by property. -/
theorem ofList_transforms (effects : List Step) :
    (Transform.ofEffects effects).flatMap Transform.chars =
      (String.join ((effects.flatMap (·.properties)).map Property.transformText)).toList := by
  rw [Transform.ofEffects, String.toList_join]
  -- property by property: one that writes nothing adds no text on either side
  induction effects.flatMap (·.properties) with
  | nil => rfl
  | cons p rest ih =>
    rw [List.map_cons, List.flatMap_cons, toList_transformText, ← ih]
    cases hp : Transform.ofProperty? p with
    | none => rw [List.filterMap_cons_none hp]; rfl
    | some t => rw [List.filterMap_cons_some hp]; rfl

/-- The expression of a chain is rendered as the call of its head with the transforms of its
effects. -/
theorem render_call {c : Chain} {head : Step} (hhead : c.head? = some head) :
    (Pattern.ofChain? c).map Pattern.chars =
      some (head.callText ++
        String.join ((c.effects.flatMap (·.properties)).map Property.transformText)).toList := by
  rw [Pattern.ofChain?, hhead, Option.map_some, Option.map_some, Pattern.chars, ofList_transforms]
  cases hargument : head.argumentValue? <;>
    simp [Step.callText, hargument, Pattern.moreArguments, Value.literal]

/-- A call around an expression is rendered around its text. -/
theorem render_wrap {inner : Pattern} {text : String} {wrapper : Step} (effects : List Step)
    (hinner : inner.chars = text.toList) :
    (Pattern.wrap wrapper.call inner wrapper.argumentValue?.toList
        (Transform.ofEffects effects)).render =
      wrapper.call ++ "(" ++ text
        ++ (wrapper.argumentValue?.map fun value => ", " ++ value.literal).getD "" ++ ")"
        ++ String.join ((effects.flatMap (·.properties)).map Property.transformText) := by
  rw [Pattern.render, Pattern.chars, ofList_transforms, hinner]
  apply String.toList_inj.mp
  cases hargument : wrapper.argumentValue? <;>
    simp [Pattern.moreArguments, Value.literal]

/-! ## Folded chains -/

namespace Chain

variable {config : Config} {heldBack : Option HeldBack} {head : Step} {effects : List Step}

/-- The properties that take part in a fold. -/
def folding (heldBack : Option HeldBack) (effects : List Step) : List Property :=
  effects.flatMap (foldedProperties heldBack)

/-- The properties of the occurrences are those that take part in the fold. -/
theorem map_snd_occurrences (heldBack : Option HeldBack) (c : Chain) :
    (c.occurrences heldBack).map (·.2) = folding heldBack c.effects := by
  rw [occurrences, folding, List.map_flatMap]
  refine List.flatMap_congr fun step _ => ?_
  rw [List.map_map]
  exact List.map_id _

/-- A fold that succeeds summarizes the properties that take part in it and drops neutral ones. -/
theorem exists_summarizes_of_fold {d : Chain}
    (hfold : ((Chain.mk (head :: effects)).fold config heldBack).outcome = .ok d) :
    ∃ folded, config.Summarizes (folding heldBack effects) folded ∧
      d = collapsed head effects.getLast? (folded.filter fun p => ¬ config.Neutral p) := by
  obtain ⟨folded, hfolded, hd⟩ := outcome_fold_eq_ok.mp hfold
  have hsummarizes := Config.summarizes_of_foldlM hfolded
  rw [map_snd_occurrences, Chain.effects, List.tail_cons] at hsummarizes
  exact ⟨folded, hsummarizes, hd⟩

/-- A folded chain keeps its head and has the audible properties that its effects amount to. -/
theorem effects_fold {d : Chain}
    (hfold : ((Chain.mk (head :: effects)).fold config heldBack).outcome = .ok d) :
    d.head? = some head ∧
      d.effects.flatMap (·.properties) = config.audible (folding heldBack effects) := by
  obtain ⟨folded, hsummarizes, rfl⟩ := exists_summarizes_of_fold hfold
  have hsummary := hsummarizes.eq_summary
  refine ⟨rfl, ?_⟩
  rw [Config.audible, ← hsummary, collapsed, Chain.effects, List.tail_cons]
  split
  next h => rw [h]; rfl
  next h =>
    cases hlast : effects.getLast? with
    | none =>
      -- a chain without effects has no properties to fold
      obtain rfl := List.getLast?_eq_none_iff.mp hlast
      rw [hsummary] at h
      exact absurd rfl h
    | some last => simp [syntheticStep]

/-- All properties of a step are folded if none is held back. -/
theorem foldedProperties_none (s : Step) : foldedProperties none s = s.properties := by
  refine List.filter_eq_self.mpr fun p _ => ?_
  rw [show ((none : Option HeldBack) != some ⟨s.id, p.name⟩) = true from rfl, Bool.or_true]

/-- Nothing is held back from a step without the id of the wrapper. -/
theorem foldedProperties_of_id_ne {s wrapper : Step} (h : s.id ≠ wrapper.id) :
    foldedProperties (Arrangement.heldBack wrapper) s = s.properties := by
  refine List.filter_eq_self.mpr fun p _ => ?_
  have hne : (Arrangement.heldBack wrapper != some ⟨s.id, p.name⟩) = true := by
    rw [bne_iff_ne]
    intro heq
    obtain ⟨argument, -, hback⟩ := Option.map_eq_some_iff.mp heq
    exact h (congrArg HeldBack.id hback).symm
  rw [hne, Bool.or_true]

/-- Of the wrapper its argument is held back. -/
theorem foldedProperties_wrapper {wrapper : Step} (h : wrapper.synthetic = false) :
    foldedProperties (Arrangement.heldBack wrapper) wrapper = wrapper.ownProperties := by
  refine List.filter_congr fun p _ => ?_
  rw [h, Bool.false_or, Arrangement.heldBack, Bool.eq_iff_iff, bne_iff_ne, bne_iff_ne]
  refine not_congr ?_
  cases wrapper.argument <;> simp

/-- All properties of the effects are folded if none is held back. -/
theorem folding_none (effects : List Step) :
    folding none effects = effects.flatMap (·.properties) :=
  List.flatMap_congr fun e _ => foldedProperties_none e

/-- Of the inner half only the argument of the wrapper is held back. -/
theorem folding_inner {before : List Step} {wrapper : Step}
    (hids : ∀ e ∈ before, e.id ≠ wrapper.id) (hdrawn : wrapper.synthetic = false) :
    folding (Arrangement.heldBack wrapper) (before ++ [wrapper]) =
      before.flatMap (·.properties) ++ wrapper.ownProperties := by
  rw [folding, List.flatMap_append, List.flatMap_singleton, foldedProperties_wrapper hdrawn,
    List.flatMap_congr fun e he => foldedProperties_of_id_ne (hids e he)]

end Chain

/-! ## Drawn chains -/

/-- A chain as it is found in a patch: it has a head, its ids are distinct, and no step is made by a
fold. -/
structure Chain.Drawn (c : Chain) : Prop where
  nonempty : c.steps ≠ []
  nodup : c.ids.Nodup
  drawn : ∀ s ∈ c.steps, s.synthetic = false

/-- The effects before the wrapper of a drawn chain have other ids than the wrapper. -/
theorem Chain.Drawn.wrapper_apart {head wrapper : Step} {effects before after : List Step}
    (h : (Chain.mk (head :: effects)).Drawn)
    (hsplit : Chain.byStage effects = before ++ wrapper :: after) :
    (∀ e ∈ before, e.id ≠ wrapper.id) ∧ wrapper.synthetic = false := by
  -- after).Perm effects := :: sorting permutes the effects, so their ids are as distinct as in the
  -- chain
  have hperm : (before ++ wrapper :: after).Perm effects :=
    hsplit ▸ Chain.byStage_eq_mergeSort effects ▸ List.mergeSort_perm _ _
  have hnodup : ((before ++ wrapper :: after).map (·.id)).Nodup :=
    (hperm.map _).nodup_iff.mpr h.nodup.of_cons
  rw [List.map_append, List.map_cons] at hnodup
  have hmem : wrapper ∈ effects := hperm.subset (by simp)
  refine ⟨fun e he => ?_, h.drawn wrapper (List.mem_cons_of_mem _ hmem)⟩
  exact (List.nodup_append.mp hnodup).2.2 _ (List.mem_map_of_mem he) _ List.mem_cons_self

/-- **The stages compute the fragment.**  A chain as it is found in a patch that is arranged and
folded has an expression, and the text of it is the fragment of the chain. -/
theorem Chain.Drawn.render_fragment {config : Config} {c : Chain} {a : Arrangement} (h : c.Drawn)
    (hfold : (c.arrange.fold config).outcome = .ok a) :
    (Pattern.ofArrangement? a).map Pattern.render = some (c.fragment config) := by
  obtain ⟨_ | ⟨head, effects⟩⟩ := c
  · exact absurd rfl h.nonempty
  show _ = some (head.fragment config effects)
  rcases exists_last_or_forall_not Step.wraps (Chain.byStage effects) with
    hwraps | ⟨before, wrapper, after, hsplit, hwraps, hafter⟩
  · -- one half: the head with all effects behind it
    rw [Chain.arrange_plain hwraps] at hfold
    obtain ⟨d, hd, hfold⟩ := Recorded.outcome_bind_eq_ok.mp hfold
    obtain rfl := Except.ok.inj hfold
    obtain ⟨hhead, heffects⟩ := Chain.effects_fold hd
    have hrender := congrArg (Option.map String.ofList) (render_call hhead)
    rw [Option.map_map, Option.map_some, String.ofList_toList, heffects, Chain.folding_none]
      at hrender
    rw [Step.fragment_plain hwraps]
    exact hrender
  · -- two halves, and the wrapper in both: an effect of the inner one, the head of the outer one
    rw [Chain.arrange_wrapped hsplit hwraps hafter] at hfold
    obtain ⟨inner, hinner, hfold⟩ := Recorded.outcome_bind_eq_ok.mp hfold
    obtain ⟨outer, houter, hfold⟩ := Recorded.outcome_bind_eq_ok.mp hfold
    obtain rfl := Except.ok.inj hfold
    obtain ⟨hids, hdrawn⟩ := h.wrapper_apart hsplit
    obtain ⟨hinnerHead, hinnerEffects⟩ := Chain.effects_fold hinner
    obtain ⟨houterHead, houterEffects⟩ := Chain.effects_fold houter
    rw [Chain.folding_inner hids hdrawn] at hinnerEffects
    rw [Chain.folding_none] at houterEffects
    have hcall := render_call hinnerHead
    obtain ⟨pattern, hpattern, hchars⟩ := Option.map_eq_some_iff.mp hcall
    rw [Pattern.ofArrangement?, hpattern, houterHead, Option.map_some, Option.map_some,
      Option.getD_some, render_wrap _ hchars, hinnerEffects, houterEffects,
      Step.fragment_wrapped hsplit hwraps hafter]
    rfl

end Patchbay
