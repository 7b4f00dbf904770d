import Patchbay.Proofs.Patch.Rearranged
import Patchbay.Proofs.Wiring.Path

/-!
# The order of effects along a path

The effects of a chain are sorted by the ranks of their stages.  So the order in which they are
connected matters among the effects of one rank only, and types that are not in the schema, stages
outside the table and the stage of modulation all have the same rank.  `SameWithinRanks` says that
two orders of effects differ in nothing else, and `compile_path` that the paths along both compile
alike.

## Shape of the proof

* a step has the rank of the type of its node (`Step.priority_of_resolve`), so effects in either
  order are resolved to steps that are sorted to the same list (`SameWithinRanks.byStage_eq`);
* whether nodes are resolved does not depend on their order (`exists_ofNodes_iff`), and neither
  does, up to its order, what is reported of them (`SameWithinRanks.ofNodes_alike`);
* a path is drawn as the chain of its nodes (`IsPath.drawn_eq`), and a compilation looks at chains
  in their arrangement only (`sameResult_of_arranged`).
-/

namespace Patchbay

/-- The rank of the stage of a type. -/
def Schema.rankOf (schema : Schema) (type : String) : ℕ :=
  ((schema.get? type).map (·.execution.stage.priority)).getD Stage.defaultPriority

/-- The rank of a step is that of its type, whether the type is declared or not. -/
theorem Step.priority_of_resolve {schema : Schema} {key : String} {node : Node} {s : Step}
    (h : (resolve schema key node).outcome = .ok s) : s.priority = schema.rankOf node.type := by
  obtain ⟨properties, -, h⟩ := Recorded.outcome_bind_eq_ok.mp h
  rw [Schema.rankOf]
  cases htype : schema.get? node.type with
  | some type =>
    rw [htype] at h
    obtain rfl := Except.ok.inj h
    rfl
  | none =>
    rw [htype] at h
    obtain rfl := Except.ok.inj h
    rfl

/-! ## Two orders of effects -/

/-- Two orders of the same effects.  Those whose stages have one rank are in the same order. -/
structure SameWithinRanks (schema : Schema) (effects effects' : List Node) : Prop where
  perm : effects.Perm effects'
  ranks : ∀ rank, effects.filter (schema.rankOf ·.type == rank) =
    effects'.filter (schema.rankOf ·.type == rank)

namespace SameWithinRanks

variable {schema : Schema} {effects effects' : List Node}
  (h : SameWithinRanks schema effects effects')
include h

/-- The effects are resolved to steps that are sorted to the same list. -/
theorem byStage_eq {key : String} {steps steps' : List Step}
    (hsteps : List.Forall₂ (fun node s => (Step.resolve schema key node).outcome = .ok s)
      effects steps)
    (hsteps' : List.Forall₂ (fun node s => (Step.resolve schema key node).outcome = .ok s)
      effects' steps') : Chain.byStage steps = Chain.byStage steps' := by
  refine List.flatMap_congr fun rank _ => ?_
  -- choosing a rank before or after resolving makes no difference, as a step has the rank of its
  -- type
  have hrank : ∀ nodes steps,
      List.Forall₂ (fun node s => (Step.resolve schema key node).outcome = .ok s) nodes steps →
      List.Forall₂ (fun node s => (Step.resolve schema key node).outcome = .ok s)
        (nodes.filter (schema.rankOf ·.type == rank)) (steps.filter (·.priority == rank)) := by
    intro nodes steps hall
    refine List.rel_filter ?_ hall
    intro node s hs
    show schema.rankOf node.type == rank ↔ s.priority == rank
    rw [Step.priority_of_resolve hs]
  -- a node is resolved to one step at most, so the same nodes give the same steps
  have hunique : Relator.RightUnique
      fun node s => (Step.resolve schema key node).outcome = .ok s :=
    fun _ _ _ hs hs' => Except.ok.inj (hs.symm.trans hs')
  exact List.right_unique_forall₂' hunique (hrank _ _ hsteps) (h.ranks rank ▸ hrank _ _ hsteps')

/-- The chains of a head and the effects are arranged alike, and the same is reported of them. -/
theorem ofNodes_alike {config : Config} {head : Node} {c c' : Chain}
    (hc : (Chain.ofNodes schema config (head :: effects)).outcome = .ok c)
    (hc' : (Chain.ofNodes schema config (head :: effects')).outcome = .ok c') :
    c.arrange = c'.arrange ∧ (Chain.ofNodes schema config (head :: effects)).record.Perm
      (Chain.ofNodes schema config (head :: effects')).record := by
  have hrecord := Chain.record_ofNodes hc
  have hrecord' := Chain.record_ofNodes hc'
  obtain ⟨steps⟩ := c
  obtain ⟨steps'⟩ := c'
  obtain _ | ⟨hfirst, hsteps⟩ := Chain.outcome_ofNodes_eq_ok.mp hc
  obtain _ | ⟨hfirst', hsteps'⟩ := Chain.outcome_ofNodes_eq_ok.mp hc'
  obtain rfl := Except.ok.inj (hfirst.symm.trans hfirst')
  constructor
  · simp only [Chain.arrange, Chain.sorted, Chain.effects, List.tail_cons, List.take_succ_cons,
      List.take_zero, h.byStage_eq hsteps hsteps']
  · rw [hrecord, hrecord', List.flatMap_cons, List.flatMap_cons, List.append_assoc,
      List.append_assoc]
    exact ((h.perm.flatMap_right _).append_right _).append_left _

end SameWithinRanks

/-- Neighbours of different ranks may change places. -/
theorem sameWithinRanks_swap {schema : Schema} {a b : Node} (before after : List Node)
    (hne : schema.rankOf a.type ≠ schema.rankOf b.type) :
    SameWithinRanks schema (before ++ a :: b :: after) (before ++ b :: a :: after) where
  perm := (List.Perm.swap b a after).append_left before
  ranks := by
    intro rank
    rw [List.filter_append, List.filter_append]
    refine congrArg _ ?_
    by_cases ha : schema.rankOf a.type = rank
    · have hb : schema.rankOf b.type ≠ rank := fun hb => hne (ha.trans hb.symm)
      simp [ha, hb]
    · simp [List.filter_cons, ha]

/-- Results that are the same are two failures or two compiled patches. -/
theorem SameResult.both {x y : Except Failure Compiled} (h : SameResult x y) :
    (∃ e e', x = .error e ∧ y = .error e') ∨
      ∃ c c', x = .ok c ∧ y = .ok c' ∧ c.Alike c' := by
  cases x with
  | error e =>
    cases y with
    | error e' => exact .inl ⟨e, e', rfl, rfl⟩
    | ok c' => exact h.elim
  | ok c =>
    cases y with
    | error e' => exact h.elim
    | ok c' => exact .inr ⟨c, c', rfl, rfl, h⟩

namespace Graph

/-- A compilation looks at chains in their arrangement. -/
theorem sameResult_of_arranged {g g' : Graph} {schema : Schema} {config : Config}
    {chains chains' : List Chain} (hchains : (g.drawn schema config).outcome = .ok chains)
    (hchains' : (g'.drawn schema config).outcome = .ok chains')
    (harranged : chains.map Chain.arrange = chains'.map Chain.arrange)
    (hrecord : (g.drawn schema config).record.Perm (g'.drawn schema config).record) :
    SameResult (g.compile schema config) (g'.compile schema config) := by
  have hfolded : folded config chains = folded config chains' := by
    have hmap : ∀ chains, folded config chains =
        (chains.map Chain.arrange).mapM fun a => a.fold config := fun chains => by
      rw [List.mapM_map]
      rfl
    rw [hmap, harranged, ← hmap]
  have hlength : chains.length = chains'.length := by
    simpa using congrArg List.length harranged
  rw [compile_of_drawn_ok hchains, compile_of_drawn_ok hchains', hfolded]
  cases (folded config chains').outcome with
  | error e => rfl
  | ok arrangements => exact ⟨rfl, rfl, hlength, rfl, hrecord⟩

/-- A patch that is drawn as the chain of nodes fails if the properties of one cannot be read. -/
theorem exists_error_of_drawn {g : Graph} {schema : Schema} {config : Config} {nodes : List Node}
    (hdrawn : g.drawn schema config =
      (do let c ← Chain.ofNodes schema config nodes; pure [c]))
    (h : ¬ ∀ node ∈ nodes, ∃ properties,
      node.patternProperties config.patternKey = .ok properties) :
    ∃ e, g.compile schema config = .error e := by
  cases hc : (Chain.ofNodes schema config nodes).outcome with
  | ok c => exact absurd (Chain.exists_ofNodes_iff.mp ⟨c, hc⟩) h
  | error e => exact ⟨e, compile_of_drawn_error (by rw [hdrawn, Recorded.bind_of_error hc])⟩

/-- **The order of effects matters only within a stage.**  Paths along two orders of the same
effects, in which effects of one rank keep their order, both fail, or both compile to the same code,
chains and applied rules and report the same in some order.  If the pattern properties of all nodes
can be read and the paths fail, they have the same failure. -/
theorem compile_path {schema : Schema} {g g' : Graph} {head : Node} {effects effects' : List Node}
    (hpath : g.IsPath (head :: effects)) (hpath' : g'.IsPath (head :: effects'))
    (hids : ((head :: effects).map (·.id)).Nodup) (heffects : effects ≠ [])
    (hsame : SameWithinRanks schema effects effects') (config : Config) :
    ((∃ e e', g.compile schema config = .error e ∧ g'.compile schema config = .error e') ∨
      ∃ c c', g.compile schema config = .ok c ∧ g'.compile schema config = .ok c' ∧ c.Alike c') ∧
    ((∀ node ∈ head :: effects,
        ∃ properties, node.patternProperties config.patternKey = .ok properties) →
      SameResult (g.compile schema config) (g'.compile schema config)) := by
  have hperm : (head :: effects).Perm (head :: effects') := hsame.perm.cons head
  have heffects' : effects' ≠ [] := fun hnil => heffects (List.perm_nil.mp (hnil ▸ hsame.perm))
  have hdrawn := hpath.drawn_eq heffects hids schema config
  have hdrawn' := hpath'.drawn_eq heffects' ((hperm.map _).nodup_iff.mp hids) schema config
  by_cases hread : ∀ node ∈ head :: effects,
      ∃ properties, node.patternProperties config.patternKey = .ok properties
  · -- both chains are there, and they are arranged alike
    have hread' := fun node hnode => hread node (hperm.mem_iff.mpr hnode)
    obtain ⟨c, hc⟩ : ∃ c, (Chain.ofNodes schema config (head :: effects)).outcome = .ok c :=
      Chain.exists_ofNodes_iff.mpr hread
    obtain ⟨c', hc'⟩ : ∃ c, (Chain.ofNodes schema config (head :: effects')).outcome = .ok c :=
      Chain.exists_ofNodes_iff.mpr hread'
    obtain ⟨harranged, hrecord⟩ := hsame.ofNodes_alike hc hc'
    rw [Recorded.bind_of_ok hc, Recorded.record_pure, List.append_nil] at hdrawn
    rw [Recorded.bind_of_ok hc', Recorded.record_pure, List.append_nil] at hdrawn'
    have hchains : (g.drawn schema config).outcome = .ok [c] := by rw [hdrawn]; rfl
    have hchains' : (g'.drawn schema config).outcome = .ok [c'] := by rw [hdrawn']; rfl
    have hresult : SameResult (g.compile schema config) (g'.compile schema config) :=
      sameResult_of_arranged hchains hchains'
        (by rw [List.map_singleton, harranged, List.map_singleton]) (by rwa [hdrawn, hdrawn'])
    exact ⟨hresult.both, fun _ => hresult⟩
  · obtain ⟨e, he⟩ := exists_error_of_drawn hdrawn hread
    obtain ⟨e', he'⟩ := exists_error_of_drawn hdrawn' fun h =>
      hread fun node hnode => h node (hperm.mem_iff.mp hnode)
    exact ⟨.inl ⟨e, e', he, he'⟩, fun h => absurd h hread⟩

/-- The nodes of `wrappedPatch`, placed backwards and with the wrapper connected before both
factors. -/
def restagedPatch : Graph where
  nodes := wrappedPatch.nodes.reverse
  connections := [⟨"loud", "louder"⟩, ⟨"kick", "both"⟩, ⟨"both", "loud"⟩]

/-- A wrapper moved before a factor of another rank: the code stays the same. -/
theorem compile_path_wrappedPatch :
    ∃ kick loud both louder, wrappedPatch.nodes = [kick, loud, both, louder] ∧
      wrappedPatch.IsPath [kick, loud, both, louder] ∧
      restagedPatch.IsPath [kick, both, loud, louder] ∧
      SameWithinRanks wrappedSchema [loud, both, louder] [both, loud, louder] ∧
      ∃ c c', wrappedPatch.compile wrappedSchema .standard = .ok c ∧
        restagedPatch.compile wrappedSchema .standard = .ok c' ∧
        c.code = "jux(drums(\"bd\").gain(6), \"rev\")" ∧ c.Alike c' := by
  refine ⟨_, _, _, _, rfl, ?_⟩
  have hpath : wrappedPatch.IsPath wrappedPatch.nodes := ⟨.rfl, .rfl⟩
  have hsame : SameWithinRanks wrappedSchema _ _ := sameWithinRanks_swap []
    [wrappedPatch.nodes[3]] (a := wrappedPatch.nodes[1]) (b := wrappedPatch.nodes[2]) (by decide)
  have hpath' : restagedPatch.IsPath [wrappedPatch.nodes[0], wrappedPatch.nodes[2],
      wrappedPatch.nodes[1], wrappedPatch.nodes[3]] :=
    ⟨(List.reverse_perm _).trans ((List.Perm.swap _ _ _).cons _), by decide⟩
  have hresult := (compile_path hpath hpath' (by decide) (by simp) hsame .standard).2 (by
    simp only [List.forall_mem_cons]
    exact ⟨⟨_, rfl⟩, ⟨_, rfl⟩, ⟨_, rfl⟩, ⟨_, rfl⟩, by simp⟩)
  exact ⟨hpath, hpath', hsame, _, _, rfl, rfl, by decide +kernel, hresult⟩

end Graph

end Patchbay
