import Patchbay.Proofs.Chain.Refold
import Patchbay.Proofs.Patch.Beside
import Patchbay.Proofs.Patch.Forks

/-!
# The normal form of a compiled patch

What comes out of a compilation has one form, whatever the stages and the wrappers of the schema
are.  There is an arrangement for each root of the wiring, which begins with the node of the root
(`heads_of_drawn`).  Each half of an arrangement is a head with at most one step behind it, which
stands for the effects of the half (`Chain.Reduced`), and a wrapper is the head of its outer half
and never that of the chain (`Arrangement.Reduced`).  Since a patch without cycles has a root if
anything is connected in it, only a patch without connections that count has no code
(`roots_eq_nil_iff`).
-/

open Relation

namespace Patchbay

/-! ## Folded chains -/

/-- A half of a chain as a fold leaves it: its head alone, or with a step that stands for the
effects of the half and is otherwise the last of them.  The properties of that step have distinct
names, and none of them is neutral. -/
inductive Chain.Reduced (config : Config) (half : Chain) : Chain → Prop
  | bare {head : Step} (first : half.head? = some head) : Reduced config half ⟨[head]⟩
  | summed {head last step : Step} (first : half.head? = some head)
      (final : half.effects.getLast? = some last) (made : step.synthetic = true)
      (id : step.id = last.id) (type : step.nodeType = last.nodeType)
      (nonempty : step.properties ≠ []) (names : (step.properties.map (·.name)).Nodup)
      (audible : ∀ p ∈ step.properties, ¬ config.Neutral p) :
      Reduced config half ⟨[head, step]⟩

namespace Arrangement

/-- The half that begins with the head of the chain. -/
def core : Arrangement → Chain
  | plain chain => chain
  | wrapped _ inner _ => inner

/-- An arrangement as a fold leaves it.  A wrapper wraps; it is the head of the outer half and has
another id than the head of the chain. -/
inductive Reduced (config : Config) : Arrangement → Arrangement → Prop
  | plain {half chain : Chain} (whole : half.Reduced config chain) :
      Reduced config (.plain half) (.plain chain)
  | wrapped {wrapper head : Step} {innerHalf outerHalf inner outer : Chain}
      (enclosed : innerHalf.Reduced config inner) (behind : outerHalf.Reduced config outer)
      (first : inner.head? = some head) (next : outer.head? = some wrapper)
      (wraps : wrapper.wraps = true) (apart : wrapper.id ≠ head.id) :
      Reduced config (.wrapped wrapper innerHalf outerHalf) (.wrapped wrapper inner outer)

end Arrangement

namespace Chain

variable {config : Config} {heldBack : Option HeldBack} {head : Step} {effects : List Step}

/-- A fold reduces a half. -/
theorem reduced_of_fold {d : Chain}
    (hfold : ((Chain.mk (head :: effects)).fold config heldBack).outcome = .ok d) :
    (Chain.mk (head :: effects)).Reduced config d := by
  have hform := folded_of_fold hfold
  obtain ⟨folded, -, rfl⟩ := outcome_fold_eq_ok.mp hfold
  unfold collapsed at hform ⊢
  split
  next => exact .bare rfl
  next hkept =>
    rw [if_neg hkept] at hform
    cases hlast : effects.getLast? with
    | none => exact .bare rfl
    | some last =>
      rw [hlast] at hform
      -- the fold says all there is to say about the step; only its last step is looked up here
      obtain _ | _ | ⟨_, _, made, nonempty, names, audible, -⟩ := hform
      exact .summed rfl hlast made rfl rfl nonempty names audible

/-- **Arranging and folding a chain reduces it.**  The head of the chain stays in front. -/
theorem Drawn.reduced_of_fold {a : Arrangement} (h : (Chain.mk (head :: effects)).Drawn)
    (hfold : ((Chain.mk (head :: effects)).arrange.fold config).outcome = .ok a) :
    (Chain.mk (head :: effects)).arrange.Reduced config a ∧ a.core.head? = some head := by
  rcases exists_last_or_forall_not Step.wraps (byStage effects) with
    hwraps | ⟨before, wrapper, after, hsplit, hwraps, hafter⟩
  · rw [arrange_plain hwraps] at hfold ⊢
    obtain ⟨d, hd, hfold⟩ := Recorded.outcome_bind_eq_ok.mp hfold
    obtain rfl := Except.ok.inj hfold
    exact ⟨.plain (Chain.reduced_of_fold hd), (effects_fold hd).1⟩
  · rw [arrange_wrapped hsplit hwraps hafter] at hfold ⊢
    obtain ⟨inner, hinner, hfold⟩ := Recorded.outcome_bind_eq_ok.mp hfold
    obtain ⟨outer, houter, hfold⟩ := Recorded.outcome_bind_eq_ok.mp hfold
    obtain rfl := Except.ok.inj hfold
    have hfirst := (effects_fold hinner).1
    -- the wrapper is an effect, and the ids of the chain are distinct
    have hmem : wrapper ∈ effects := by
      have hsorted : wrapper ∈ byStage effects := hsplit ▸ by simp
      rwa [byStage_eq_mergeSort, List.mem_mergeSort] at hsorted
    have hapart : wrapper.id ≠ head.id := fun heq =>
      (List.nodup_cons.mp h.nodup).1 (List.mem_map.mpr ⟨wrapper, hmem, heq⟩)
    exact ⟨.wrapped (Chain.reduced_of_fold hinner) (Chain.reduced_of_fold houter) hfirst
      (effects_fold houter).1 hwraps hapart, hfirst⟩

end Chain

/-- An arrangement with a head has an expression, so arrangements with heads have code. -/
theorem Pattern.code_eq_empty_iff {arrangements : List Arrangement}
    (h : ∀ a ∈ arrangements, ∃ head, a.core.head? = some head) :
    code arrangements = "" ↔ arrangements = [] := by
  constructor
  · intro hcode
    by_contra hne
    obtain ⟨a, ha⟩ := List.exists_mem_of_ne_nil _ hne
    obtain ⟨head, hhead⟩ := h a ha
    -- with a head there is an expression, whichever form the arrangement has
    have hpattern : (ofArrangement? a).isSome := by
      cases a <;> rw [Arrangement.core] at hhead <;> simp [ofArrangement?, ofChain?, hhead]
    obtain ⟨pattern, hpattern⟩ := Option.isSome_iff_exists.mp hpattern
    have hmem : pattern ∈ arrangements.filterMap ofArrangement? :=
      List.mem_filterMap.mpr ⟨a, ha, hpattern⟩
    exact line_ne_empty (List.ne_nil_of_mem hmem) hcode
  · rintro rfl
    exact String.intercalate_nil (s := " ")

namespace Graph

variable {g : Graph} {schema : Schema} {config : Config} {compiled : Compiled}

/-! ## Roots and heads -/

/-- An arrangement begins with the node at a position, as the schema describes it. -/
def HeadedBy (g : Graph) (schema : Schema) (config : Config) (root : ℕ) (a : Arrangement) : Prop :=
  ∃ node head, g.wiring.node? root = some node ∧
    (Step.resolve schema config.patternKey node).outcome = .ok head ∧
    a.core.head? = some head ∧ head.synthetic = false

/-- The chain of a route begins with the node at the first position. -/
theorem exists_head_of_chainOf {w : Wiring} {root : ℕ} {rest : List ℕ} {chain : Chain} {node : Node}
    (hnode : w.node? root = some node)
    (hchain : (w.chainOf schema config (root :: rest)).outcome = .ok chain) :
    ∃ head effects, chain = ⟨head :: effects⟩ ∧
      (Step.resolve schema config.patternKey node).outcome = .ok head := by
  rw [Wiring.chainOf_eq_ofNodes, List.filterMap_cons_some hnode] at hchain
  obtain ⟨steps⟩ := chain
  cases Chain.outcome_ofNodes_eq_ok.mp hchain with
  | cons hhead _ => exact ⟨_, _, rfl, hhead⟩

/-- A patch in which something is connected has a root, unless there is a cycle. -/
theorem exists_mem_rootIds (hacyclic : ¬ ∃ id, TransGen g.Joins id id) {id : String}
    (hid : id ∈ g.keptIds) : ∃ root, root ∈ g.rootIds := by
  refine kept_induction hacyclic (p := fun _ => ∃ root, root ∈ g.rootIds)
    (fun id hid ih => ?_) id hid
  rcases mem_rootIds_or_joins hid with hroot | ⟨source, hjoins⟩
  · exact ⟨id, hroot⟩
  · exact ih source hjoins

/-- Only a patch without connections that count has no root, unless there is a cycle. -/
theorem roots_eq_nil_iff (hids : g.ids.Nodup) (hacyclic : ¬ ∃ id, TransGen g.Joins id id) :
    g.wiring.roots = [] ↔ g.counted = [] := by
  rw [← List.map_eq_nil_iff (f := g.wiring.id), wiring_roots_ids hids]
  constructor
  · intro hroots
    by_contra hcounted
    obtain ⟨c, hc⟩ := List.exists_mem_of_ne_nil _ hcounted
    -- the source of a connection is kept, and behind every kept node is a root
    obtain ⟨root, hroot⟩ := exists_mem_rootIds hacyclic (source_mem_keptIds hc)
    exact absurd hroot (hroots ▸ List.not_mem_nil)
  · intro hcounted
    simp [rootIds, keptIds, hcounted]

/-! ## Compiled patches -/

/-- Lists that match a third one element by element match each other. -/
private theorem forall₂_comp {α β γ : Type} {R : α → β → Prop} {S : β → γ → Prop} {as : List α}
    {bs : List β} {cs : List γ} (hab : List.Forall₂ R as bs) (hbc : List.Forall₂ S bs cs) :
    List.Forall₂ (Comp R S) as cs := by
  induction hab generalizing cs with
  | nil =>
    obtain rfl := List.forall₂_nil_left_iff.mp hbc
    exact .nil
  | cons hab _ ih =>
    obtain ⟨c, rest, hc, hrest, rfl⟩ := List.forall₂_cons_left_iff.mp hbc
    exact .cons ⟨_, hab, hc⟩ (ih hrest)

/-- The form in which a compiled patch is. -/
structure NormalForm (g : Graph) (schema : Schema) (config : Config) (compiled : Compiled) :
    Prop where
  /-- There is an arrangement for each chain that was found. -/
  arrangements : compiled.chains.length = compiled.inputChains
  /-- There is a chain for each root. -/
  inputChains : compiled.inputChains = g.wiring.roots.length
  /-- Each arrangement begins with the node of the root at its place. -/
  heads : List.Forall₂ (g.HeadedBy schema config) g.wiring.roots compiled.chains
  /-- The chains are arranged and then reduced. -/
  reduced : ∃ chains, (g.drawn schema config).outcome = .ok chains ∧
    List.Forall₂ (fun c a => c.arrange.Reduced config a) chains compiled.chains
  /-- There is code unless nothing is connected. -/
  code : compiled.code = "" ↔ g.counted = []

/-- **There is an arrangement for each root.**  Each root begins a route, whose chain has the node
of the root for its head. -/
theorem heads_of_drawn {chains : List Chain} {arrangements : List Arrangement}
    (hdrawn : (g.drawn schema config).outcome = .ok chains)
    (hfolded : List.Forall₂ (fun c a => (c.arrange.fold config).outcome = .ok a) chains
      arrangements) :
    List.Forall₂ (g.HeadedBy schema config) g.wiring.roots arrangements := by
  obtain ⟨w, hwire, hchains⟩ := outcome_drawn_eq_ok.mp hdrawn
  obtain ⟨hids, rfl, -⟩ := outcome_wire_eq_ok hwire
  -- roots match routes, routes match chains and chains match arrangements
  have hroutes : List.Forall₂ (· = ·) (g.wiring.roots.map some) (g.wiring.routes.map List.head?) :=
    List.forall₂_eq_eq_eq ▸ Wiring.map_head?_routes.symm
  rw [List.forall₂_map_left_iff, List.forall₂_map_right_iff] at hroutes
  have hchain := (Wiring.outcome_chains_eq_ok.mp hchains).2
  have hmatched := forall₂_comp hroutes (forall₂_comp hchain (forall₂_drawn hdrawn hfolded))
  have hroots := (List.forall₂_and_left g.wiring.roots arrangements).mpr
    ⟨fun _ => Wiring.lt_size_of_mem_roots, hmatched⟩
  refine hroots.imp fun root a ⟨hlt, route, hroot, chain, hchain, hdrawn, hfold⟩ => ?_
  obtain ⟨rest, rfl⟩ := List.head?_eq_some_iff.mp hroot.symm
  -- a root is a position of the wiring, so there is a node at it
  obtain ⟨node, hnode⟩ : ∃ node, g.wiring.node? root = some node := by
    rw [wiring_size hids] at hlt
    refine Option.isSome_iff_exists.mp ?_
    rw [← Option.isSome_map, map_id_wiring_node? hids, List.getElem?_eq_getElem hlt,
      Option.isSome_some]
  obtain ⟨head, effects, rfl, hhead⟩ := exists_head_of_chainOf hnode hchain
  exact ⟨node, head, hnode, hhead, (hdrawn.reduced_of_fold hfold).2,
    hdrawn.drawn head List.mem_cons_self⟩

/-- **A compiled patch is in normal form.**  Whenever a patch compiles, there is one arrangement for
each root, beginning with its node; each half is a head with at most one synthetic step of audible
properties under distinct names, in the place of the last step of the half; a wrapper is the head of
its outer half and not that of the chain; and the code is empty only if no connection counts. -/
theorem compile_normalForm (h : g.compile schema config = .ok compiled) :
    g.NormalForm schema config compiled := by
  obtain ⟨chains, arrangements, hdrawn, hfolded, rfl⟩ := compile_eq_ok_iff.mp h
  have hfolded := Recorded.outcome_mapM_eq_ok.mp hfolded
  have hheads := heads_of_drawn hdrawn hfolded
  obtain ⟨hids, hacyclic, -⟩ := drawn_along_ids hdrawn
  refine ⟨hfolded.length_eq.symm, hfolded.length_eq.trans hheads.length_eq.symm, hheads,
    ⟨chains, hdrawn, ?reduced⟩, ?code⟩
  case reduced =>
    refine (forall₂_drawn hdrawn hfolded).imp fun c a ⟨hdrawn, hfold⟩ => ?_
    obtain ⟨head, effects, hsteps⟩ := List.exists_cons_of_ne_nil hdrawn.nonempty
    obtain rfl : c = ⟨head :: effects⟩ := by rw [← hsteps]
    exact (hdrawn.reduced_of_fold hfold).1
  case code =>
    have hlength : g.wiring.roots.length = arrangements.length := hheads.length_eq
    rw [← roots_eq_nil_iff hids hacyclic, ← List.length_eq_zero_iff, hlength,
      List.length_eq_zero_iff]
    refine Pattern.code_eq_empty_iff fun a ha => ?_
    obtain ⟨root, -, node, head, -, -, hhead, -⟩ := Recorded.exists_of_forall₂ hheads ha
    exact ⟨head, hhead⟩

/-- A patch with a wrapper between its factors: one root, so one arrangement, in normal form. -/
theorem compile_normalForm_wrappedPatch :
    ∃ compiled, wrappedPatch.compile wrappedSchema .standard = .ok compiled ∧
      compiled.inputChains = 1 ∧ wrappedPatch.NormalForm wrappedSchema .standard compiled :=
  ⟨_, rfl, rfl, compile_normalForm rfl⟩

end Graph

end Patchbay
