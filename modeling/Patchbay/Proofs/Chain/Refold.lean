import Patchbay.Proofs.Chain.Summary
import Patchbay.Proofs.Number.Places

/-!
# Folding what has been folded

A folded chain is a head and at most one synthetic step, whose properties have distinct names, are
not neutral and are settled (`Chain.Folded`).  Folding it again meets every name once: a value that
is kept stays as it is, and a product is multiplied by 1 and rounded once more.  So a second fold
succeeds, and it changes something exactly if one of the products drifts (`fold_again`).

A synthetic step may have the id of the wrapper.  Nothing of it is held back, so for the second fold
it does not matter what the first one held back.
-/

namespace Patchbay

namespace Config

variable {config : Config}

/-! ## Names that are met once -/

/-- What a property becomes when its name is met once, by itself. -/
def refolded (config : Config) (p : Property) : Property :=
  match config.ruleOf p.name, p.value with
  | .multiply, .number x => ⟨p.name, .number (x.roundToDecimals productPlaces)⟩
  | _, _ => p

/-- Folding a property again keeps its name. -/
@[simp] theorem name_refolded (p : Property) : (config.refolded p).name = p.name := by
  unfold refolded
  split <;> rfl

/-- The number of a property that multiplies. -/
def product? (config : Config) (p : Property) : Option Binary64 :=
  match config.ruleOf p.name with
  | .multiply => p.value.number?
  | .last => none

/-- A settled property is changed exactly if it is a product that drifts. -/
theorem Settled.refolded_eq_iff {p : Property} (h : config.Settled p) :
    config.refolded p = p ↔ ∀ x, config.product? p = some x → ¬ x.Drifts := by
  obtain ⟨name, value⟩ := p
  unfold refolded product?
  cases hrule : config.ruleOf name with
  | last => exact iff_of_true rfl fun _ h => absurd h (by simp)
  | multiply =>
    obtain ⟨x, hx, rfl⟩ := h hrule
    have hround := (Binary64.roundToDecimals_roundToDecimals hx).2
    show Property.mk name (.number _) = ⟨name, .number _⟩ ↔ _
    rw [Property.mk.injEq, Value.number.injEq, and_iff_right rfl]
    exact hround.trans ⟨fun h y hy => Option.some.inj hy ▸ h, fun h => h _ rfl⟩

/-- A fold that meets a settled property under a new name puts it at the end. -/
theorem outcome_foldProperty_of_settled {folded : List Property} (step : Step) {p : Property}
    (h : config.Settled p) (hnew : p.name ∉ folded.map (·.name)) :
    (config.foldProperty folded (step, p)).outcome = .ok (folded ++ [config.refolded p]) := by
  rw [outcome_foldProperty_eq_ok]
  refine ⟨(config.refolded p).value, ?_, ?_⟩
  · unfold combine refolded
    cases hrule : config.ruleOf p.name with
    | last => rfl
    | multiply =>
      obtain ⟨x, hx, hvalue⟩ := h hrule
      have hfinite : (x.roundToDecimals productPlaces).isFinite :=
        (Binary64.roundToDecimals_roundToDecimals hx).1
      simp only [hvalue, Value.number?, factorSoFar_of_not_mem hnew,
        Binary64.ofNat_one_mul hfinite, if_pos hfinite]
  · rw [store_of_not_mem hnew]
    unfold refolded
    split <;> rfl

/-- A fold that meets settled properties under distinct names takes them one by one. -/
theorem outcome_foldlM_of_settled (step : Step) {met : List Property} (folded : List Property)
    (hsettled : ∀ p ∈ met, config.Settled p) (hnames : ((folded ++ met).map (·.name)).Nodup) :
    ((met.map (step, ·)).foldlM config.foldProperty folded).outcome =
      .ok (folded ++ met.map config.refolded) := by
  -- each property moves from what is to be met to the end of what is folded, under the same name
  induction met generalizing folded with
  | nil => simp
  | cons p rest ih =>
    have hsame : ((folded ++ [config.refolded p] ++ rest).map (·.name)) =
        (folded ++ p :: rest).map (·.name) := by simp
    have hnew : p.name ∉ folded.map (·.name) := by
      rw [List.map_append, List.map_cons] at hnames
      exact fun h => (List.nodup_append.mp hnames).2.2 _ h _ List.mem_cons_self rfl
    have hfirst := outcome_foldProperty_of_settled step (hsettled p List.mem_cons_self) hnew
    have hrest := ih _ (fun q hq => hsettled q (List.mem_cons_of_mem _ hq)) (hsame ▸ hnames)
    rw [List.map_cons, List.foldlM_cons, Recorded.bind_of_ok hfirst]
    simpa using hrest

end Config

/-! ## Folded chains -/

namespace Chain

variable {config : Config} {heldBack : Option HeldBack} {d : Chain}

/-- A chain as a fold leaves it. -/
inductive Folded (config : Config) : Chain → Prop
  | empty : Folded config ⟨[]⟩
  | bare (head : Step) : Folded config ⟨[head]⟩
  | summed (head step : Step) (made : step.synthetic = true) (nonempty : step.properties ≠ [])
      (names : (step.properties.map (·.name)).Nodup)
      (audible : ∀ p ∈ step.properties, ¬ config.Neutral p)
      (settled : ∀ p ∈ step.properties, config.Settled p) : Folded config ⟨[head, step]⟩

/-- A fold leaves a folded chain. -/
theorem folded_of_fold {c : Chain} (hfold : (c.fold config heldBack).outcome = .ok d) :
    d.Folded config := by
  obtain ⟨_ | ⟨head, effects⟩⟩ := c
  · obtain rfl := Except.ok.inj hfold
    exact .empty
  -- what the fold ends with is a summary; the chain has some of its properties
  obtain ⟨folded, hfolded, rfl⟩ := outcome_fold_eq_ok.mp hfold
  have hsummarizes := Config.summarizes_of_foldlM hfolded
  unfold collapsed
  split
  next => exact .bare head
  next hkept =>
    cases hlast : effects.getLast? with
    | none => exact .bare head
    | some last =>
      have hsublist : (folded.filter fun p => ¬ config.Neutral p).Sublist folded :=
        List.filter_sublist
      refine .summed head _ rfl hkept (hsummarizes.nodup.sublist (hsublist.map _)) ?_ ?_
      · intro p hp
        simpa using (List.mem_filter.mp hp).2
      · exact fun p hp => hsummarizes.settled p (hsublist.subset hp)

/-- The numbers of a chain that a fold multiplies. -/
def products (config : Config) (c : Chain) : List Binary64 :=
  (c.effects.flatMap (·.properties)).filterMap config.product?

/-- Audible properties are all kept if none of them changes, and only then. -/
theorem filter_refolded_eq_iff {properties : List Property}
    (audible : ∀ p ∈ properties, ¬ config.Neutral p) :
    ((properties.map config.refolded).filter fun p => ¬ config.Neutral p) = properties ↔
      ∀ p ∈ properties, config.refolded p = p := by
  have hsame : properties.map config.refolded = properties ↔
      ∀ p ∈ properties, config.refolded p = p := by
    conv_lhs => rhs; rw [← List.map_id properties]
    exact List.map_inj_left
  rw [← hsame]
  constructor
  · intro h
    -- what is as long as before has lost nothing
    have hall : ((properties.map config.refolded).filter fun p => ¬ config.Neutral p) =
        properties.map config.refolded := by
      apply List.filter_sublist.eq_of_length
      rw [h, List.length_map]
    exact hall.symm.trans h
  · intro h
    rw [h]
    exact List.filter_eq_self.mpr fun p hp => decide_eq_true (audible p hp)

/-- A folded chain of two steps is built again exactly from the properties of its second step. -/
theorem collapsed_eq_iff {head step : Step} {properties : List Property}
    (made : step.synthetic = true) (nonempty : step.properties ≠ []) :
    collapsed head (some step) properties = ⟨[head, step]⟩ ↔ properties = step.properties := by
  have hstep : syntheticStep step step.properties = step := by
    unfold syntheticStep
    rw [← made]
  unfold collapsed
  split
  next h =>
    subst h
    exact iff_of_false (by simp) nonempty.symm
  next =>
    constructor
    · intro h
      have hmade : syntheticStep step properties = step := by simpa using h
      exact congrArg Step.properties hmade
    · rintro rfl
      rw [Option.map_some, hstep, Option.toList_some]

/-- **A second fold succeeds and changes what drifts.** -/
theorem Folded.refold (h : d.Folded config) (heldBack : Option HeldBack) :
    ∃ d', (d.fold config heldBack).outcome = .ok d' ∧
      (d' = d ↔ ∀ x ∈ d.products config, ¬ x.Drifts) := by
  cases h with
  | empty => exact ⟨_, rfl, iff_of_true rfl fun _ h => absurd h List.not_mem_nil⟩
  | bare head => exact ⟨_, rfl, iff_of_true rfl fun _ h => absurd h List.not_mem_nil⟩
  | summed head step made nonempty names audible settled =>
    -- a synthetic step takes part with all of its properties
    have hmet : (Chain.mk [head, step]).occurrences heldBack = step.properties.map (step, ·) := by
      have hall : foldedProperties heldBack step = step.properties :=
        List.filter_eq_self.mpr fun p _ => by rw [made, Bool.true_or]
      show List.flatMap _ [step] = _
      rw [List.flatMap_singleton, hall]
    have hfolded := Config.outcome_foldlM_of_settled step [] settled names
    have hfold := outcome_fold_eq_ok.mpr ⟨_, hmet ▸ hfolded, rfl⟩
    refine ⟨_, hfold, ?_⟩
    rw [List.getLast?_singleton, collapsed_eq_iff made nonempty, List.nil_append,
      filter_refolded_eq_iff audible]
    have hproducts : products config ⟨[head, step]⟩ =
        step.properties.filterMap config.product? := by
      show (List.flatMap _ [step]).filterMap _ = _
      rw [List.flatMap_singleton]
    rw [hproducts]
    constructor
    · intro hsame x hx
      obtain ⟨p, hp, hproduct⟩ := List.mem_filterMap.mp hx
      exact (settled p hp).refolded_eq_iff.mp (hsame p hp) x hproduct
    · intro hsteady p hp
      exact (settled p hp).refolded_eq_iff.mpr fun x hx =>
        hsteady x (List.mem_filterMap.mpr ⟨p, hp, hx⟩)

end Chain

namespace Arrangement

variable {config : Config} {a d : Arrangement}

/-- The numbers of an arrangement that a fold multiplies. -/
def products (config : Config) : Arrangement → List Binary64
  | plain chain => chain.products config
  | wrapped _ inner outer => inner.products config ++ outer.products config

/-- **Folding is idempotent but for drift.**  What comes out of a fold can be folded again, and the
second fold returns it unchanged exactly if none of its products drifts. -/
theorem fold_again (hfold : (a.fold config).outcome = .ok d) :
    ∃ d', (d.fold config).outcome = .ok d' ∧ (d' = d ↔ ∀ x ∈ d.products config, ¬ x.Drifts) := by
  cases a with
  | plain chain =>
    obtain ⟨c, hc, hfold⟩ := Recorded.outcome_bind_eq_ok.mp hfold
    obtain rfl := Except.ok.inj hfold
    obtain ⟨c', hc', hagain⟩ := (Chain.folded_of_fold hc).refold none
    refine ⟨.plain c', Recorded.outcome_bind_eq_ok.mpr ⟨c', hc', rfl⟩, ?_⟩
    rw [plain.injEq]
    exact hagain
  | wrapped wrapper inner outer =>
    obtain ⟨i, hi, hfold⟩ := Recorded.outcome_bind_eq_ok.mp hfold
    obtain ⟨o, ho, hfold⟩ := Recorded.outcome_bind_eq_ok.mp hfold
    obtain rfl := Except.ok.inj hfold
    obtain ⟨i', hi', hinner⟩ := (Chain.folded_of_fold hi).refold (heldBack wrapper)
    obtain ⟨o', ho', houter⟩ := (Chain.folded_of_fold ho).refold none
    refine ⟨.wrapped wrapper i' o', ?_, ?_⟩
    · exact Recorded.outcome_bind_eq_ok.mpr
        ⟨i', hi', Recorded.outcome_bind_eq_ok.mpr ⟨o', ho', rfl⟩⟩
    · rw [wrapped.injEq, and_iff_right rfl, hinner, houter, products]
      exact List.forall_mem_append.symm

/-- A source with one gain, which a fold has made or not. -/
def ofGain (gain : Binary64) (made : Bool) : Arrangement :=
  .plain ⟨[
    { id := "kick", nodeType := "drums", category := some .source,
      stage := some (.standard .source), wraps := false, call := "s", properties := [] },
    { id := "loud", nodeType := "gain", category := some .modulation,
      stage := some (.standard .modulation), wraps := false, call := "gain",
      properties := [⟨"gain", .number gain⟩], synthetic := made }]⟩

/-- The number 4206412.007073701, or the one that comes so many places after it. -/
def neighbour (places : ℕ) : Binary64 := .ofScaled false (4516600500970817 + places) (-30)

/-- A gain of 4206412.007073701 becomes 4206412.007073702 in a fold, which drifts on in the next. -/
theorem fold_again_ofGain :
    ((ofGain (neighbour 0) false).fold .standard).outcome = .ok (ofGain (neighbour 1) true) ∧
      (neighbour 1).Drifts ∧
      ∃ d, ((ofGain (neighbour 1) true).fold .standard).outcome = .ok d ∧
        (d = ofGain (neighbour 1) true ↔
          ∀ x ∈ (ofGain (neighbour 1) true).products .standard, ¬ x.Drifts) ∧
        d = ofGain (neighbour 2) true := by
  have hfold : ((ofGain (neighbour 0) false).fold .standard).outcome =
      .ok (ofGain (neighbour 1) true) := by decide +kernel
  have hnext : ((ofGain (neighbour 1) true).fold .standard).outcome =
      .ok (ofGain (neighbour 2) true) := by decide +kernel
  obtain ⟨d, hd, hagain⟩ := fold_again hfold
  exact ⟨hfold, by decide +kernel, d, hd, hagain, Except.ok.inj (hd.symm.trans hnext)⟩

end Arrangement

end Patchbay
