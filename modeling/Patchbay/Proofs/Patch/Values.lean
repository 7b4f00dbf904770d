import Patchbay.Proofs.Chain.Flaws
import Patchbay.Proofs.Compile

/-!
# Which values a patch fails with

A patch with distinct ids and without cycles, the forks of which are not refused, fails for the
values of its properties only.  They are looked at twice: the nodes with a place in a chain are read
in the order of the chains, and the properties of the effects are folded.  `compile_values` says
when a patch fails, and that it fails with the first value that is at fault.

## Shape of the proof

* both stages are sequences of steps, and each fails with the first failure of its steps
  (`Recorded.FailsFirst`);
* of drawing, which fails at none but the reading of nodes: `failsFirst_drawn`;
* of folding, chain by chain: `failsFirst_compile`.
-/

open Relation

namespace Patchbay.Graph

variable {g : Graph} {schema : Schema} {config : Config} {chains : List Chain}

/-- The nodes on the routes of a patch, route by route. -/
def placedNodes (g : Graph) : List Node :=
  g.wiring.routes.flatMap fun route => route.filterMap g.wiring.node?

/-- What decides whether a patch fails, and with what. -/
structure ValueSpec (g : Graph) (schema : Schema) (config : Config) : Prop where
  /-- The patch fails if a placed node cannot be read, or if all of them can and a property of an
  effect cannot be folded after those before it. -/
  fails :
    (∃ e, g.compile schema config = .error e) ↔
      (∃ node ∈ g.placedNodes, node.Unreadable config.patternKey) ∨
        (¬ ∃ node ∈ g.placedNodes, node.Unreadable config.patternKey) ∧
          ∃ chains, (g.drawn schema config).outcome = .ok chains ∧
            ∃ c ∈ chains, ∃ half ∈ c.halves, ∃ before id p after,
              half = before ++ (id, p) :: after ∧ config.Unfoldable (before.map (·.2)) p
  /-- There are chains if all placed nodes can be read. -/
  drawn :
    (∃ chains, (g.drawn schema config).outcome = .ok chains) ↔
      ¬ ∃ node ∈ g.placedNodes, node.Unreadable config.patternKey
  /-- If not, the failure is the first to read a placed node. -/
  unread : (∃ node ∈ g.placedNodes, node.Unreadable config.patternKey) → ∀ e,
    g.compile schema config = .error e ↔
      (g.placedNodes.flatMap (Node.misread config.patternKey)).head? = some e
  /-- If so, it is the first flaw of the chains. -/
  unfolded : ∀ chains, (g.drawn schema config).outcome = .ok chains → ∀ e,
    g.compile schema config = .error e ↔ (chains.flatMap (Chain.flaws config)).head? = some e
  /-- Then it names an effect of a chain and one of its properties, never a head. -/
  effect : ∀ chains, (g.drawn schema config).outcome = .ok chains → ∀ e,
    g.compile schema config = .error e →
      ∃ c ∈ chains, ∃ s ∈ c.effects, ∃ p ∈ s.properties, ∃ flaw, e = .malformed s.id p.name flaw
  /-- In either case it names a placed node, never an unconnected or a stranded one. -/
  placed : ∀ e, g.compile schema config = .error e →
    ∃ node ∈ g.placedNodes, ∃ property flaw, e = .malformed node.id property flaw

section Drawing

variable (hids : g.ids.Nodup) (hacyclic : ¬ ∃ id, TransGen g.Joins id id)
  (hforks : config.fanOut = .reject → ∀ id ∈ g.keptIds, ¬ g.Forks id)
include hids hacyclic hforks

/-- The forks of the patch pass. -/
theorem outcome_checkForks_eq_ok : (g.wiring.checkForks config.fanOut).outcome = .ok () := by
  have hwiring := acyclic_wiring hids hacyclic
  rw [checkForks_wiring hids hwiring, outcome_checkForksAlong_eq_ok]
  intro hreject
  exact forksAlong_eq_nil_iff.mpr fun id hid =>
    hforks hreject id ((routes_greedyCover hids hwiring).kept id hid)

/-- Drawing fails at none but the reading of placed nodes. -/
theorem failsFirst_drawn :
    Recorded.FailsFirst (g.drawn schema config).outcome
      (g.placedNodes.flatMap (Node.misread config.patternKey)) := by
  have hroutes : Recorded.FailsFirst
      (g.wiring.routes.mapM (g.wiring.chainOf schema config)).outcome
      (g.placedNodes.flatMap (Node.misread config.patternKey)) := by
    rw [placedNodes, List.flatMap_assoc]
    exact .mapM fun route _ => Chain.failsFirst_ofNodes _
  -- the check of the forks adds no failure of its own
  have hpass : Recorded.FailsFirst (g.wiring.checkForks config.fanOut).outcome [] :=
    outcome_checkForks_eq_ok hids hacyclic hforks ▸ Recorded.failsFirst_ok ()
  have hchains : Recorded.FailsFirst (g.wiring.chains schema config).outcome
      (g.placedNodes.flatMap (Node.misread config.patternKey)) :=
    hpass.bind fun _ _ => hroutes
  rw [drawn, wire_eq hids hacyclic, bind_assoc, Recorded.outcome_note_bind, pure_bind]
  exact hchains.bind_ok fun chains => ⟨chains, rfl⟩

end Drawing

/-- Once the chains are drawn, a compilation fails with the first of their flaws. -/
theorem failsFirst_compile (h : (g.drawn schema config).outcome = .ok chains) :
    Recorded.FailsFirst (g.compile schema config) (chains.flatMap (Chain.flaws config)) := by
  have hfolded : Recorded.FailsFirst (folded config chains).outcome
      (chains.flatMap (Chain.flaws config)) :=
    .mapM fun c hc => (drawn_of_mem h hc).failsFirst_fold config
  rw [compile_of_drawn_ok h]
  cases houtcome : (folded config chains).outcome with
  | error e =>
    intro e'
    rw [← hfolded e', houtcome]
    simp
  | ok arrangements =>
    rw [hfolded.exists_ok_iff.mp ⟨_, houtcome⟩]
    exact Recorded.failsFirst_ok _

/-- The steps of the chains are placed nodes. -/
theorem exists_placed_of_mem (h : (g.drawn schema config).outcome = .ok chains) {c : Chain}
    {s : Step} (hc : c ∈ chains) (hs : s ∈ c.steps) : ∃ node ∈ g.placedNodes, s.id = node.id := by
  obtain ⟨w, hwire, hchains⟩ := outcome_drawn_eq_ok.mp h
  obtain rfl := (outcome_wire_eq_ok hwire).2.1
  obtain ⟨route, hroute, node, hnode, hresolve⟩ := Wiring.exists_resolve_of_mem hchains hc hs
  exact ⟨node, List.mem_flatMap.mpr ⟨route, hroute, hnode⟩, (Step.outcome_resolve hresolve).1⟩

/-- The chains have a flaw if a property in one of their halves cannot be folded. -/
theorem flaws_ne_nil_iff :
    chains.flatMap (Chain.flaws config) ≠ [] ↔
      ∃ c ∈ chains, ∃ half ∈ c.halves, ∃ before id p after,
        half = before ++ (id, p) :: after ∧ config.Unfoldable (before.map (·.2)) p := by
  rw [ne_eq, List.eq_nil_iff_forall_not_mem, not_forall_not]
  constructor
  · rintro ⟨e, he⟩
    obtain ⟨c, hc, he⟩ := List.mem_flatMap.mp he
    obtain ⟨half, hhalf, he⟩ := List.mem_flatMap.mp he
    obtain ⟨before, id, p, after, flaw, hsplit, hflaw, -⟩ := Config.mem_flaws_iff.mp he
    exact ⟨c, hc, half, hhalf, before, id, p, after, hsplit,
      Config.isSome_flaw?_iff.mp (Option.isSome_iff_exists.mpr ⟨flaw, hflaw⟩)⟩
  · rintro ⟨c, hc, half, hhalf, before, id, p, after, hsplit, hunfoldable⟩
    obtain ⟨flaw, hflaw⟩ := Option.isSome_iff_exists.mp (Config.isSome_flaw?_iff.mpr hunfoldable)
    have he : .malformed id p.name flaw ∈ config.flaws [] half :=
      Config.mem_flaws_iff.mpr ⟨before, id, p, after, flaw, hsplit, hflaw, rfl⟩
    exact ⟨_, List.mem_flatMap.mpr ⟨c, hc, List.mem_flatMap.mpr ⟨half, hhalf, he⟩⟩⟩

/-- There is a failure to read the placed nodes if one of them is unreadable. -/
theorem misread_placedNodes_ne_nil_iff :
    g.placedNodes.flatMap (Node.misread config.patternKey) ≠ [] ↔
      ∃ node ∈ g.placedNodes, node.Unreadable config.patternKey := by
  simp only [ne_eq, List.flatMap_eq_nil_iff, not_forall, ← Node.misread_ne_nil_iff, exists_prop]

/-- **A patch fails with its first value at fault.**  With distinct ids, without cycles and without
forks that are refused, a patch fails exactly if a placed node cannot be read, or else a property of
an effect cannot be folded; it fails with the first such value, and never for a property of a head
that can be read or of a node outside the chains. -/
theorem compile_values (hids : g.ids.Nodup) (hacyclic : ¬ ∃ id, TransGen g.Joins id id)
    (hforks : config.fanOut = .reject → ∀ id ∈ g.keptIds, ¬ g.Forks id) (schema : Schema) :
    g.ValueSpec schema config := by
  -- drawing fails first at the nodes, and only then is there anything to fold
  have hread : Recorded.FailsFirst (g.drawn schema config).outcome _ :=
    failsFirst_drawn hids hacyclic hforks
  have hdrawn : (∃ chains, (g.drawn schema config).outcome = .ok chains) ↔
      ¬ ∃ node ∈ g.placedNodes, node.Unreadable config.patternKey := by
    rw [hread.exists_ok_iff, ← misread_placedNodes_ne_nil_iff, not_not]
  have hunread : (∃ node ∈ g.placedNodes, node.Unreadable config.patternKey) → ∀ e,
      g.compile schema config = .error e ↔
        (g.placedNodes.flatMap (Node.misread config.patternKey)).head? = some e := by
    intro h e
    obtain ⟨e', he'⟩ := hread.exists_error_iff.mpr (misread_placedNodes_ne_nil_iff.mpr h)
    rw [compile_of_drawn_error he', ← hread e, he']
    simp
  have heffect : ∀ chains, (g.drawn schema config).outcome = .ok chains → ∀ e,
      g.compile schema config = .error e → ∃ c ∈ chains, ∃ s ∈ c.effects, ∃ p ∈ s.properties,
        ∃ flaw, e = .malformed s.id p.name flaw := by
    intro chains hchains e he
    have hhead := (failsFirst_compile hchains e).mp he
    obtain ⟨c, hc, hflaw⟩ := List.mem_flatMap.mp (List.mem_of_mem_head? hhead)
    exact ⟨c, hc, Chain.exists_of_mem_flaws hflaw⟩
  refine ⟨?fails, hdrawn, hunread, fun chains => failsFirst_compile, heffect, ?placed⟩
  case fails =>
    by_cases h : ∃ node ∈ g.placedNodes, node.Unreadable config.patternKey
    · refine iff_of_true ?_ (.inl h)
      obtain ⟨e, he⟩ := hread.exists_error_iff.mpr (misread_placedNodes_ne_nil_iff.mpr h)
      exact ⟨e, compile_of_drawn_error he⟩
    · obtain ⟨chains, hchains⟩ := hdrawn.mpr h
      rw [(failsFirst_compile hchains).exists_error_iff, flaws_ne_nil_iff, or_iff_right h,
        and_iff_right h]
      constructor
      · exact fun hflaw => ⟨chains, hchains, hflaw⟩
      · rintro ⟨chains', hchains', hflaw⟩
        rwa [Except.ok.inj (hchains.symm.trans hchains')]
  case placed =>
    intro e he
    by_cases h : ∃ node ∈ g.placedNodes, node.Unreadable config.patternKey
    · have hhead := (hunread h e).mp he
      obtain ⟨node, hnode, hmisread⟩ := List.mem_flatMap.mp (List.mem_of_mem_head? hhead)
      exact ⟨node, hnode, Node.exists_of_mem_misread hmisread⟩
    · obtain ⟨chains, hchains⟩ := hdrawn.mpr h
      obtain ⟨c, hc, s, hs, p, -, flaw, rfl⟩ := heffect chains hchains e he
      obtain ⟨node, hnode, hid⟩ := exists_placed_of_mem hchains hc (List.mem_of_mem_tail hs)
      exact ⟨node, hnode, p.name, flaw, by rw [hid]⟩

/-- Two faults that do not matter, a factor at the head and an unconnected node that cannot be read,
and a third that does: the last factor is no number. -/
def faultyPatch : Graph where
  nodes := [
    { id := "kick", type := "drums", properties := wrappedPatch.pattern "gain" (.text "soft") },
    { id := "loud", type := "gain", properties := wrappedPatch.pattern "gain" (.integer 3) },
    { id := "both", type := "jux", properties := wrappedPatch.pattern "f" (.text "rev") },
    { id := "louder", type := "gain", properties := wrappedPatch.pattern "gain" (.text "more") },
    { id := "spare", type := "gain", properties := wrappedPatch.pattern "gain" .null }]
  connections := wrappedPatch.connections

/-- By a rule that multiplies, the argument of the wrapper would be at fault too, were it folded. -/
theorem compile_values_faultyPatch :
    faultyPatch.ids.Nodup ∧ (¬ ∃ id, TransGen faultyPatch.Joins id id) ∧
      faultyPatch.compile wrappedSchema { Config.standard with defaultRule := .multiply } =
        .error (.malformed "louder" "gain" (.notNumber (.text "more"))) ∧
      faultyPatch.ValueSpec wrappedSchema { Config.standard with defaultRule := .multiply } := by
  have hids : faultyPatch.ids.Nodup := by decide
  have hwire : faultyPatch.wire.outcome = .ok faultyPatch.wiring := rfl
  have hacyclic : ¬ ∃ id, TransGen faultyPatch.Joins id id := by
    rintro ⟨id, hcycle⟩
    exact not_acyclic_of_transGen_joins hids hcycle (outcome_wire_eq_ok hwire).2.2
  refine ⟨hids, hacyclic, rfl, compile_values hids hacyclic (fun hreject => ?_) wrappedSchema⟩
  exact absurd hreject (by decide)

end Patchbay.Graph
