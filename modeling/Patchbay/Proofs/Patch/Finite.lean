import Patchbay.Proofs.Compile
import Patchbay.Proofs.Dictionary
import Patchbay.Proofs.Number.Places

/-!
# The numbers of a compiled patch are finite

The numbers of a patch are those of its document, which are finite; infinities can only come from a
configuration or from a product.  A configuration is compared with and never copied from, and a
product that is not finite is refused, so no number of a compiled patch is an infinity or a
not-a-number (`compile_isFinite`).

## Shape of the proof

* a node of finite numbers has finite pattern properties (`Node.isFinite_of_patternProperties`), so
  the steps of the chains have (`isFinite_of_drawn`);
* what summarizes finite occurrences is finite (`Config.Summarizes.isFinite`), so a fold keeps steps
  finite (`Chain.isFinite_of_fold`), and the arrangements of the patch have such steps
  (`isFinite_of_compile`);
* every value in the code is that of a property of a step (`Pattern.exists_of_mem_values`).
-/

namespace Patchbay

/-! ## Finite documents -/

namespace Json

mutual

/-- Every number of the value is finite, and every integer has 64 bits. -/
def isFinite : Json → Bool
  | .integer n => decide (-2 ^ 63 ≤ n ∧ n < 2 ^ 64)
  | .number x => x.isFinite
  | .array items => areFinite items
  | .object members => membersAreFinite members
  | _ => true

/-- Every item is finite. -/
def areFinite : List Json → Bool
  | [] => true
  | item :: rest => isFinite item && areFinite rest

/-- Every member's value is finite. -/
def membersAreFinite : List (String × Json) → Bool
  | [] => true
  | (_, value) :: rest => isFinite value && membersAreFinite rest

end

/-- Members are finite if the value of each of them is. -/
theorem membersAreFinite_iff {members : List (String × Json)} :
    membersAreFinite members ↔ ∀ m ∈ members, m.2.isFinite := by
  induction members with
  | nil => simp [membersAreFinite]
  | cons m rest ih => simp [membersAreFinite, ih]

end Json

/-- An integer of 64 bits is within the range of numbers. -/
theorem Binary64.isFinite_ofInt {n : ℤ} (h : -2 ^ 63 ≤ n ∧ n < 2 ^ 64) : (ofInt n).isFinite := by
  refine isFinite_ofRatio _ one_pos ?_
  have hbound : n.natAbs < 2 ^ 65 := by omega
  have hcast : (n.natAbs : ℚ) < 2 ^ 65 := by exact_mod_cast hbound
  rw [Nat.cast_one, div_one]
  exact hcast.trans (pow_lt_pow_right₀ one_lt_two (by norm_num))

/-- A value that is read is finite if its document is. -/
theorem Value.isFinite_ofJson? {raw : Json} {value : Value} (hraw : raw.isFinite)
    (h : ofJson? raw = some value) : value.isFinite := by
  cases raw with
  | integer n =>
    obtain rfl := Option.some.inj h
    exact Binary64.isFinite_ofInt (of_decide_eq_true hraw)
  | number x =>
    obtain rfl := Option.some.inj h
    exact hraw
  | bool on =>
    obtain rfl := Option.some.inj h
    rfl
  | text s =>
    obtain rfl := Option.some.inj h
    rfl
  | _ => exact absurd h (by simp [ofJson?])

/-- The numbers among the properties of a step are finite. -/
def Step.IsFinite (s : Step) : Prop := ∀ p ∈ s.properties, p.value.isFinite

namespace Node

variable {node : Node} {key : String} {properties : List Property}

/-- The numbers of a node are finite. -/
def isFinite (node : Node) : Bool := Json.membersAreFinite node.properties.entries

/-- The pattern properties of a node are finite if its numbers are. -/
theorem isFinite_of_patternProperties (hnode : node.isFinite)
    (h : node.patternProperties key = .ok properties) : ∀ p ∈ properties, p.value.isFinite := by
  -- nothing stored, an object, or something else, which is refused
  unfold patternProperties at h
  split at h
  next =>
    obtain rfl := Except.ok.inj h
    exact fun _ hp => absurd hp List.not_mem_nil
  next members hstored =>
    have hmembers : (Json.object members).isFinite :=
      Json.membersAreFinite_iff.mp hnode _ (Dictionary.mem_of_get? hstored)
    rw [Json.isFinite, Json.membersAreFinite_iff] at hmembers
    intro p hp
    obtain ⟨⟨name, raw⟩, hmem, hread⟩ := Recorded.exists_of_mapM_ok h hp
    have hraw := hmembers _ (Dictionary.mem_of_mem_ofList hmem)
    dsimp only at hread
    cases hvalue : Value.ofJson? raw with
    | none => simp [hvalue] at hread
    | some value =>
      rw [hvalue] at hread
      obtain rfl := Except.ok.inj hread
      exact Value.isFinite_ofJson? hraw hvalue
  next => exact absurd h (by simp)

end Node

namespace Graph

variable {g : Graph} {schema : Schema} {config : Config} {chains : List Chain}

/-- The numbers of a patch are finite. -/
def isFinite (g : Graph) : Bool := g.nodes.all Node.isFinite

/-- The steps of the chains are nodes of the patch, so their properties are finite. -/
theorem isFinite_of_drawn (hg : g.isFinite) (h : (g.drawn schema config).outcome = .ok chains)
    {c : Chain} (hc : c ∈ chains) : ∀ s ∈ c.steps, s.IsFinite := by
  intro s hs
  obtain ⟨w, hwire, hchains⟩ := outcome_drawn_eq_ok.mp h
  obtain rfl := (outcome_wire_eq_ok hwire).2.1
  obtain ⟨route, -, node, hnode, hresolve⟩ := Wiring.exists_resolve_of_mem hchains hc hs
  obtain ⟨p, -, hnode⟩ := List.mem_filterMap.mp hnode
  obtain ⟨index, -, hindex⟩ := Option.bind_eq_some_iff.mp hnode
  exact Node.isFinite_of_patternProperties
    (List.all_eq_true.mp hg node (List.mem_of_getElem? hindex)) (Step.outcome_resolve hresolve).2.2

end Graph

/-! ## Finite folds -/

namespace Config

variable {config : Config} {met folded : List Property}

/-- A settled property that multiplies is a finite number. -/
theorem Settled.exists_number {p : Property} (h : config.Settled p)
    (hrule : config.ruleOf p.name = .multiply) :
    ∃ x : Binary64, p.value = .number x ∧ x.isFinite := by
  obtain ⟨x, hx, hvalue⟩ := h hrule
  exact ⟨_, hvalue, (Binary64.isFinite_roundToDecimals x).trans hx⟩

/-- **Finite occurrences are summarized by finite properties.**  A product is kept only if it is
finite, and rounding leaves it so; a last value is one of those met. -/
theorem Summarizes.isFinite (h : Summarizes config met folded)
    (hmet : ∀ p ∈ met, p.value.isFinite) : ∀ p ∈ folded, p.value.isFinite := by
  intro p hp
  -- the rules differ in where the value comes from: it is computed or one that was met
  cases hrule : config.ruleOf p.name with
  | multiply =>
    obtain ⟨x, hvalue, hx⟩ := (h.settled p hp).exists_number hrule
    rw [hvalue]
    exact hx
  | last =>
    have hvalue := h.values p hp
    rw [combined, hrule] at hvalue
    obtain ⟨q, hq, hsame⟩ := List.mem_map.mp (List.mem_of_getLast? hvalue)
    exact hsame ▸ hmet q (List.mem_of_mem_filter hq)

end Config

namespace Chain

variable {config : Config} {heldBack : Option HeldBack}

/-- A fold of finite steps leaves finite steps. -/
theorem isFinite_of_fold {c d : Chain} (hc : ∀ s ∈ c.steps, s.IsFinite)
    (h : (c.fold config heldBack).outcome = .ok d) : ∀ s ∈ d.steps, s.IsFinite := by
  obtain ⟨_ | ⟨head, effects⟩⟩ := c
  · obtain rfl := Except.ok.inj h
    exact hc
  obtain ⟨hhead, heffects⟩ := List.forall_mem_cons.mp hc
  obtain ⟨folded, hsummarizes, rfl⟩ := exists_summarizes_of_fold h
  have hfinite : ∀ p ∈ folded, p.value.isFinite := by
    refine hsummarizes.isFinite fun p hp => ?_
    obtain ⟨s, hs, hp⟩ := List.mem_flatMap.mp hp
    exact heffects s hs p (List.mem_of_mem_filter hp)
  unfold collapsed
  refine List.forall_mem_cons.mpr ⟨hhead, fun s hs => ?_⟩
  split at hs
  · exact absurd hs List.not_mem_nil
  · obtain ⟨last, -, rfl⟩ := Option.map_eq_some_iff.mp (Option.mem_toList.mp hs)
    exact fun p hp => hfinite p (List.mem_of_mem_filter hp)

end Chain

/-! ## The steps of an arrangement and the values in its code -/

namespace Arrangement

/-- All steps of an arrangement; the wrapper is one of them. -/
def steps : Arrangement → List Step
  | plain chain => chain.steps
  | wrapped wrapper inner outer => wrapper :: inner.steps ++ outer.steps

end Arrangement

/-- Arranging a chain adds no steps to it. -/
theorem Chain.mem_of_mem_arrange {head : Step} {effects : List Step} :
    ∀ s ∈ (Chain.mk (head :: effects)).arrange.steps, s ∈ head :: effects := by
  have hsorted : ∀ s ∈ byStage effects, s ∈ head :: effects := fun s hs => by
    rw [byStage_eq_mergeSort, List.mem_mergeSort] at hs
    exact List.mem_cons_of_mem _ hs
  rcases exists_last_or_forall_not Step.wraps (byStage effects) with
    hwraps | ⟨before, wrapper, after, hsplit, hwraps, hafter⟩
  · rw [arrange_plain hwraps]
    exact List.forall_mem_cons.mpr ⟨List.mem_cons_self, hsorted⟩
  -- the wrapper is counted twice here, once in each half
  · rw [arrange_wrapped hsplit hwraps hafter]
    rw [hsplit] at hsorted
    intro s hs
    simp only [Arrangement.steps, List.mem_append, List.mem_cons, List.not_mem_nil, or_false] at hs
    by_cases hhead : s = head
    · exact hhead ▸ List.mem_cons_self
    · exact hsorted s (by simp only [List.mem_append, List.mem_cons]; tauto)

/-- An arrangement of finite steps is folded to finite steps. -/
theorem Arrangement.isFinite_of_fold {config : Config} {a b : Arrangement}
    (ha : ∀ s ∈ a.steps, s.IsFinite) (h : (a.fold config).outcome = .ok b) :
    ∀ s ∈ b.steps, s.IsFinite := by
  cases a with
  | plain chain =>
    obtain ⟨d, hd, h⟩ := Recorded.outcome_bind_eq_ok.mp h
    obtain rfl := Except.ok.inj h
    exact Chain.isFinite_of_fold ha hd
  | wrapped wrapper inner outer =>
    obtain ⟨i, hi, h⟩ := Recorded.outcome_bind_eq_ok.mp h
    obtain ⟨o, ho, h⟩ := Recorded.outcome_bind_eq_ok.mp h
    obtain rfl := Except.ok.inj h
    rw [steps, List.cons_append, List.forall_mem_cons, List.forall_mem_append] at ha ⊢
    exact ⟨ha.1, Chain.isFinite_of_fold ha.2.1 hi, Chain.isFinite_of_fold ha.2.2 ho⟩

namespace Pattern

/-- The values in the text of an expression. -/
def values : Pattern → List Value
  | call _ arguments transforms => arguments ++ transforms.filterMap (·.argument)
  | wrap _ inner arguments transforms =>
    inner.values ++ arguments ++ transforms.filterMap (·.argument)

/-- The values of transforms are those of the properties that they were made from. -/
theorem exists_of_mem_transforms {effects : List Step} {value : Value}
    (h : value ∈ (Transform.ofEffects effects).filterMap (·.argument)) :
    ∃ s ∈ effects, ∃ p ∈ s.properties, p.value = value := by
  obtain ⟨t, ht, hargument⟩ := List.mem_filterMap.mp h
  obtain ⟨p, hp, hmade⟩ := List.mem_filterMap.mp ht
  obtain ⟨s, hs, hp⟩ := List.mem_flatMap.mp hp
  refine ⟨s, hs, p, hp, ?_⟩
  unfold Transform.ofProperty? at hmade
  split at hmade
  · obtain rfl := Option.some.inj hmade
    exact absurd hargument (by simp)
  · exact absurd hmade (by simp)
  · obtain rfl := Option.some.inj hmade
    exact Option.some.inj hargument

/-- The argument of a call is the value of a property. -/
theorem exists_of_argumentValue? {s : Step} {value : Value} (h : s.argumentValue? = some value) :
    ∃ p ∈ s.properties, p.value = value := by
  obtain ⟨name, -, hfound⟩ := Option.bind_eq_some_iff.mp h
  obtain ⟨p, hp, hvalue⟩ := Option.map_eq_some_iff.mp hfound
  exact ⟨p, List.mem_of_find?_eq_some hp, hvalue⟩

/-- Every value in the expression of a chain is that of a property. -/
theorem exists_of_mem_ofChain? {c : Chain} {pattern : Pattern} (h : ofChain? c = some pattern)
    {value : Value} (hvalue : value ∈ pattern.values) :
    ∃ s ∈ c.steps, ∃ p ∈ s.properties, p.value = value := by
  obtain ⟨head, hhead, rfl⟩ := Option.map_eq_some_iff.mp h
  rcases List.mem_append.mp hvalue with hvalue | hvalue
  · exact ⟨head, List.mem_of_mem_head? hhead,
      exists_of_argumentValue? (Option.mem_toList.mp hvalue)⟩
  · obtain ⟨s, hs, hp⟩ := exists_of_mem_transforms hvalue
    exact ⟨s, List.mem_of_mem_tail hs, hp⟩

/-- **Every value in the code is that of a property.** -/
theorem exists_of_mem_values {a : Arrangement} {pattern : Pattern}
    (h : ofArrangement? a = some pattern) {value : Value} (hvalue : value ∈ pattern.values) :
    ∃ s ∈ a.steps, ∃ p ∈ s.properties, p.value = value := by
  cases a with
  | plain chain => exact exists_of_mem_ofChain? h hvalue
  | wrapped wrapper inner outer =>
    obtain ⟨pattern, hpattern, rfl⟩ := Option.map_eq_some_iff.mp h
    rw [values, List.mem_append, List.mem_append] at hvalue
    obtain (hinner | hargument) | htransform := hvalue
    · obtain ⟨s, hs, hp⟩ := exists_of_mem_ofChain? hpattern hinner
      exact ⟨s, List.mem_cons_of_mem _ (List.mem_append_left _ hs), hp⟩
    · have hhead : outer.head?.getD wrapper ∈ wrapper :: inner.steps ++ outer.steps := by
        cases hfirst : outer.head? with
        | none => exact List.mem_append_left _ List.mem_cons_self
        | some first => exact List.mem_append_right _ (List.mem_of_mem_head? hfirst)
      exact ⟨_, hhead, exists_of_argumentValue? (Option.mem_toList.mp hargument)⟩
    · obtain ⟨s, hs, hp⟩ := exists_of_mem_transforms htransform
      exact ⟨s, List.mem_append_right _ (List.mem_of_mem_tail hs), hp⟩

end Pattern

/-! ## Compiled patches -/

namespace Graph

variable {g : Graph} {schema : Schema} {config : Config} {compiled : Compiled}

/-- The steps in the arrangements of a compiled patch have finite properties. -/
theorem isFinite_of_compile (hg : g.isFinite) (h : g.compile schema config = .ok compiled) :
    ∀ a ∈ compiled.chains, ∀ s ∈ a.steps, s.IsFinite := by
  intro a ha
  obtain ⟨chains, hdrawn, hfolded, -⟩ := exists_of_compile h
  obtain ⟨c, hc, hchain, hfold⟩ := Recorded.exists_of_forall₂ (forall₂_drawn hdrawn hfolded) ha
  have hfinite := isFinite_of_drawn hg hdrawn hc
  obtain ⟨_ | ⟨head, effects⟩⟩ := c
  · exact absurd rfl hchain.nonempty
  · exact Arrangement.isFinite_of_fold (fun s hs => hfinite s (Chain.mem_of_mem_arrange s hs))
      hfold

/-- What is finite in a compiled patch. -/
structure FiniteSpec (compiled : Compiled) : Prop where
  /-- The numbers of all chains. -/
  steps : ∀ a ∈ compiled.chains, ∀ s ∈ a.steps, s.IsFinite
  /-- The code is that of the chains: the line of their expressions. -/
  code : compiled.code = Pattern.code compiled.chains
  /-- The numbers in the expressions of all chains. -/
  values : ∀ a ∈ compiled.chains, ∀ pattern, Pattern.ofArrangement? a = some pattern →
    ∀ value ∈ pattern.values, value.isFinite

/-- **No number of a compiled patch is an infinity or a not-a-number.**  Whatever the schema and the
configuration are, a patch of finite numbers that compiles has finite numbers in its chains and in
its code.  And whenever the fold of a chain meets a property that multiplies under a name that has a
value already, that value is a number, and it is the factor that is taken. -/
theorem compile_isFinite (schema : Schema) (config : Config) (g : Graph) :
    (g.isFinite → ∀ compiled, g.compile schema config = .ok compiled → FiniteSpec compiled) ∧
      ∀ (c : Chain) (heldBack : Option HeldBack) (before after : List (Step × Property)) (s : Step)
        (p : Property), c.occurrences heldBack = before ++ (s, p) :: after →
        config.ruleOf p.name = .multiply →
        ∀ folded, (before.foldlM config.foldProperty []).outcome = .ok folded →
          ∀ stored, folded.find? (·.name == p.name) = some stored →
            ∃ x, stored.value = .number x ∧ Config.factorSoFar folded p.name = x := by
  constructor
  · intro hg compiled hcompile
    have hsteps := isFinite_of_compile hg hcompile
    obtain ⟨-, -, -, hcode⟩ := exists_of_compile hcompile
    -- every value in the code is a property of some step, so no case split is needed here
    refine ⟨hsteps, hcode, fun a ha pattern hpattern value hvalue => ?_⟩
    obtain ⟨s, hs, p, hp, rfl⟩ := Pattern.exists_of_mem_values hpattern hvalue
    exact hsteps a ha s hs p hp
  · intro c heldBack before after s p _ hrule folded hfolded stored hstored
    have hname : stored.name = p.name := by simpa using List.find?_some hstored
    have hsettled := (Config.summarizes_of_foldlM hfolded).settled stored
      (List.mem_of_find?_eq_some hstored)
    obtain ⟨x, hvalue, -⟩ := hsettled.exists_number (hname ▸ hrule)
    refine ⟨x, hvalue, ?_⟩
    rw [Config.factorSoFar, hstored, Option.bind_some, hvalue]
    rfl

/-- A gain of `2 ^ exponent`. -/
def gainStep (exponent : ℤ) : Step where
  id := "loud"
  nodeType := "gain"
  category := some .modulation
  stage := some (.standard .modulation)
  wraps := false
  call := "gain"
  properties := [⟨"gain", .number (.ofScaled false 1 exponent)⟩]

/-- Two gains with a product that is in the range of numbers only as long as it is not scaled to be
rounded. -/
def hugePatch : Graph where
  nodes := [
    { id := "kick", type := "drums", properties := wrappedPatch.pattern "s" (.text "bd") },
    { id := "loud", type := "gain",
      properties := wrappedPatch.pattern "gain" (.number (.ofScaled false 1 1000)) },
    { id := "louder", type := "gain", properties := wrappedPatch.pattern "gain" (.integer 4096) }]
  connections := [⟨"kick", "loud"⟩, ⟨"loud", "louder"⟩]

/-- Everything multiplies, gain has an infinite neutral value, and no distance is within the
tolerance. -/
def boundlessConfig : Config :=
  { Config.standard with
    defaultRule := .multiply
    tolerance := .nan
    rules := .ofList [("gain", ⟨.multiply, some (.infinite false)⟩)] }

/-- A product near the end of the range, and a neutral value that is infinite. -/
theorem compile_isFinite_hugePatch :
    (hugePatch.isFinite ∧ ∃ compiled,
      hugePatch.compile wrappedSchema boundlessConfig = .ok compiled ∧ FiniteSpec compiled) ∧
    Config.factorSoFar [⟨"gain", .number (.ofScaled false 1 1000)⟩] "gain" =
      .ofScaled false 1 1000 := by
  obtain ⟨hfinite, hstored⟩ := compile_isFinite wrappedSchema boundlessConfig hugePatch
  have hg : hugePatch.isFinite := by decide +kernel
  have hok : (hugePatch.compile wrappedSchema boundlessConfig).toOption.isSome := by decide +kernel
  obtain ⟨compiled, hcompiled⟩ := Option.isSome_iff_exists.mp hok
  have hcompile : hugePatch.compile wrappedSchema boundlessConfig = .ok compiled := by
    cases houtcome : hugePatch.compile wrappedSchema boundlessConfig with
    | error e => simp [houtcome, Except.toOption] at hcompiled
    | ok c => simpa [houtcome, Except.toOption] using hcompiled
  refine ⟨⟨hg, compiled, hcompile, hfinite hg compiled hcompile⟩, ?_⟩
  obtain ⟨x, hx, hfactor⟩ := hstored ⟨[gainStep 0, gainStep 1000, gainStep 12]⟩ none
    [(gainStep 1000, ⟨"gain", .number (.ofScaled false 1 1000)⟩)] [] (gainStep 12)
    ⟨"gain", .number (.ofScaled false 1 12)⟩ rfl (by decide +kernel)
    [⟨"gain", .number (.ofScaled false 1 1000)⟩] (by decide +kernel) _ rfl
  exact hfactor.trans (Value.number.inj hx).symm

end Graph

end Patchbay
