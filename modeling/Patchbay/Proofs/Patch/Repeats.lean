import Patchbay.Proofs.Patch.Unmerged

/-!
# Repeated connections

A patch may connect the same two nodes several times.  `compile_withoutRepeats` says that this makes
no difference to what is compiled: of connections with the same ends all but the first may be left
out, wherever they are, and only the reports that are about single connections change.

The connections that count are kept in one list, repetitions included, and each stage reads it in a
way of its own.  So the proof goes through the readings one by one.

## Shape of the proof

* the connections that count are those of the patch without repetitions (`counted_withoutRepeats`),
  since removing repetitions commutes with the choice of connections (`filter_eraseDups`);
* which nodes are kept, which are roots and what joins what is a matter of membership alone;
* the targets of a node lose their repetitions (`targetIds_withoutRepeats`), which the greedy walk
  skips and a fork does not count, so the cover is the same
  (`GreedyCover.withoutRepeats`) and the chains along it are drawn alike
  (`chainsAlong_withoutRepeats`).
-/

open Relation

namespace Patchbay

/-- A diagnostic about single connections: one that does not count, or how many lead to a node. -/
def Diagnostic.isOfConnections : Diagnostic → Bool
  | .dangling .. | .unmerged .. => true
  | _ => false

/-- A compiled patch without the diagnostics about single connections. -/
def Compiled.apartFromConnections (c : Compiled) : Compiled :=
  { c with diagnostics := c.diagnostics.filter (!·.isOfConnections) }

namespace Graph

/-- The patch with the first one of the connections between the same two nodes only. -/
def withoutRepeats (g : Graph) : Graph := { g with connections := g.connections.eraseDups }

variable {g : Graph} {schema : Schema} {config : Config} {cover : List (List String)}

/-! ## The wires without repetitions -/

/-- The connections that count lose their repetitions. -/
theorem counted_withoutRepeats : g.withoutRepeats.counted = g.counted.eraseDups :=
  filter_eraseDups _ _

theorem joins_withoutRepeats : g.withoutRepeats.Joins = g.Joins := by
  funext source target
  rw [Joins, counted_withoutRepeats, List.mem_eraseDups, Joins]

/-- A question of membership has the same answer without repetitions. -/
theorem any_counted_withoutRepeats (p : Connection → Bool) :
    g.withoutRepeats.counted.any p = g.counted.any p := by
  rw [counted_withoutRepeats, Bool.eq_iff_iff, List.any_eq_true, List.any_eq_true]
  simp only [List.mem_eraseDups]

theorem keptIds_withoutRepeats : g.withoutRepeats.keptIds = g.keptIds :=
  List.filter_congr fun _ _ => any_counted_withoutRepeats _

theorem rootIds_withoutRepeats : g.withoutRepeats.rootIds = g.rootIds := by
  rw [rootIds, keptIds_withoutRepeats]
  exact List.filter_congr fun _ _ => congrArg _ (any_counted_withoutRepeats _)

/-- The connections out of one node are told apart by their targets. -/
theorem targetIds_withoutRepeats (id : String) :
    g.withoutRepeats.targetIds id = (g.targetIds id).eraseDups := by
  rw [targetIds, counted_withoutRepeats, filter_eraseDups, targetIds, eraseDups_map]
  intro c hc d hd htarget
  -- both were chosen by the same source, so equal targets make them equal
  have hsource : c.source = d.source := by
    rw [beq_iff_eq.mp (List.mem_filter.mp hc).2, beq_iff_eq.mp (List.mem_filter.mp hd).2]
  cases c
  cases d
  congr

theorem branches_withoutRepeats (id : String) : g.withoutRepeats.branches id = g.branches id := by
  rw [branches, targetIds_withoutRepeats, eraseDups_eraseDups, branches]

end Graph

/-- A patch is covered alike without repetitions. -/
theorem GreedyCover.withoutRepeats {g : Graph} {cover : List (List String)}
    (h : GreedyCover g cover) : GreedyCover g.withoutRepeats cover where
  heads := by rw [h.heads, Graph.rootIds_withoutRepeats]
  joined := by rw [Graph.joins_withoutRepeats]; exact h.joined
  kept := by rw [Graph.keptIds_withoutRepeats]; exact h.kept
  nodup := h.nodup
  successor := by
    intro i chain hchain k id hid
    rw [h.successor i chain hchain k id hid, Graph.targetIds_withoutRepeats,
      find?_eraseDups]

namespace Graph

variable {g : Graph} {schema : Schema} {config : Config} {cover : List (List String)}

/-! ## Drawing without repetitions -/

/-- Along one cover the chains and what is reported of them are the same. -/
theorem chainsAlong_withoutRepeats (g : Graph) (schema : Schema) (config : Config)
    (cover : List (List String)) :
    g.withoutRepeats.chainsAlong schema config cover = g.chainsAlong schema config cover := by
  have hforks : g.withoutRepeats.checkForksAlong config.fanOut cover =
      g.checkForksAlong config.fanOut cover :=
    checkForksAlong_congr (fun id _ => branches_withoutRepeats id) _
  have hchains : cover.mapM (g.withoutRepeats.chainOf schema config) =
      cover.mapM (g.chainOf schema config) :=
    mapM_chainOf_congr (fun _ _ => rfl) schema config
  have houtside : g.withoutRepeats.outside cover = g.outside cover := by
    rw [outside, keptIds_withoutRepeats, outside]
  rw [chainsAlong, hforks, houtside, hchains, chainsAlong]

/-- A drawing has the outcome of its chains. -/
theorem outcome_drawnAlong :
    (g.drawnAlong schema config cover).outcome = (g.chainsAlong schema config cover).outcome := by
  rw [drawnAlong, Recorded.outcome_note_bind]
  cases h : (g.chainsAlong schema config cover).outcome with
  | error e => rw [Recorded.bind_of_error h]
  | ok chains => rw [Recorded.bind_of_ok h, Recorded.outcome_note_bind, Recorded.outcome_pure]

/-- What a drawing reports of single connections comes before and after the report of its chains. -/
theorem filter_record_drawnAlong {chains : List Chain}
    (h : (g.chainsAlong schema config cover).outcome = .ok chains) :
    (g.drawnAlong schema config cover).record.filter (!·.isOfConnections) =
      (g.chainsAlong schema config cover).record.filter (!·.isOfConnections) := by
  -- the two parts of the report that the filter removes altogether
  have hdangling : (g.dangling.map fun c => Diagnostic.dangling c.source c.target).filter
      (!·.isOfConnections) = [] := by
    simp [Diagnostic.isOfConnections]
  have hunmerged : (chains.flatMap g.unmerged).filter (!·.isOfConnections) = [] := by
    refine List.filter_eq_nil_iff.mpr fun d hd => ?_
    obtain ⟨c, -, hd⟩ := List.mem_flatMap.mp hd
    obtain ⟨s, -, rfl⟩ := List.mem_map.mp hd
    exact Bool.false_ne_true
  rw [record_drawnAlong_eq_append h, List.filter_append, List.filter_append, hdangling, hunmerged,
    List.nil_append, List.append_nil]

/-- Along one cover a patch is drawn alike without repetitions. -/
theorem drawnAlong_withoutRepeats (g : Graph) (schema : Schema) (config : Config)
    (cover : List (List String)) :
    (g.withoutRepeats.drawnAlong schema config cover).outcome =
        (g.drawnAlong schema config cover).outcome ∧
      ∀ chains, (g.drawnAlong schema config cover).outcome = .ok chains →
        (g.withoutRepeats.drawnAlong schema config cover).record.filter (!·.isOfConnections) =
          (g.drawnAlong schema config cover).record.filter (!·.isOfConnections) := by
  have hchains := chainsAlong_withoutRepeats g schema config cover
  constructor
  · rw [outcome_drawnAlong, outcome_drawnAlong, hchains]
  · intro chains h
    rw [outcome_drawnAlong_iff] at h
    rw [filter_record_drawnAlong h, filter_record_drawnAlong (hchains ▸ h), hchains]

/-- **Repeated connections carry no meaning.**  With distinct ids and without cycles, a patch
without its repeated connections has the same failure, or the same code, chains, number of chains
and applied rules, and the same diagnostics in their order but for those about single
connections. -/
theorem compile_withoutRepeats (hids : g.ids.Nodup) (hacyclic : ¬ ∃ id, TransGen g.Joins id id)
    (schema : Schema) (config : Config) :
    (g.withoutRepeats.compile schema config).map Compiled.apartFromConnections =
      (g.compile schema config).map Compiled.apartFromConnections := by
  have hids' : g.withoutRepeats.ids.Nodup := hids
  have hacyclic' : ¬ ∃ id, TransGen g.withoutRepeats.Joins id id := by
    rwa [joins_withoutRepeats]
  obtain ⟨cover, hcover⟩ := exists_greedyCover hids hacyclic
  have hdrawn := drawn_eq_drawnAlong hids hacyclic hcover schema config
  have hdrawn' := drawn_eq_drawnAlong hids' hacyclic' hcover.withoutRepeats schema config
  obtain ⟨houtcome, hrecord⟩ := drawnAlong_withoutRepeats g schema config cover
  rw [← hdrawn, ← hdrawn'] at houtcome hrecord
  cases hchains : (g.drawn schema config).outcome with
  | error e => rw [compile_of_drawn_error hchains, compile_of_drawn_error (houtcome.trans hchains)]
  | ok chains =>
    rw [compile_of_drawn_ok hchains, compile_of_drawn_ok (houtcome.trans hchains)]
    -- folding looks at the chains alone, and these are equal
    cases (folded config chains).outcome with
    | error e => rfl
    | ok arrangements =>
      refine congrArg Except.ok ?_
      simp only [Compiled.apartFromConnections, hrecord chains hchains]

/-- A merge and a fork, of which each connection is there several times, and a repeated connection
into nothing. -/
def frayedPatch : Graph where
  nodes := [{ id := "kick", type := "drums" }, { id := "hat", type := "drums" },
    { id := "mix", type := "stack" }, { id := "side", type := "stack" }]
  connections := [⟨"kick", "mix"⟩, ⟨"side", "ghost"⟩, ⟨"kick", "mix"⟩, ⟨"hat", "mix"⟩,
    ⟨"kick", "side"⟩, ⟨"side", "ghost"⟩, ⟨"hat", "mix"⟩, ⟨"kick", "side"⟩, ⟨"kick", "mix"⟩]

/-- Without the repetitions three connections less lead to the merge, and one less into nothing. -/
theorem compile_withoutRepeats_frayedPatch :
    frayedPatch.ids.Nodup ∧ (¬ ∃ id, TransGen frayedPatch.Joins id id) ∧
      frayedPatch.withoutRepeats.connections =
        [⟨"kick", "mix"⟩, ⟨"side", "ghost"⟩, ⟨"hat", "mix"⟩, ⟨"kick", "side"⟩] ∧
      ∃ c c', frayedPatch.compile mixingSchema .standard = .ok c ∧
        frayedPatch.withoutRepeats.compile mixingSchema .standard = .ok c' ∧
        .unmerged "mix" 5 ∈ c.diagnostics ∧ .unmerged "mix" 2 ∈ c'.diagnostics ∧
        c'.apartFromConnections = c.apartFromConnections := by
  have hids : frayedPatch.ids.Nodup := by decide
  have hdrawn : ∃ chains, (frayedPatch.drawn mixingSchema .standard).outcome = .ok chains :=
    ⟨_, rfl⟩
  obtain ⟨chains, hchains⟩ := hdrawn
  have hacyclic := (drawn_along_ids hchains).2.1
  have hsame := compile_withoutRepeats hids hacyclic mixingSchema .standard
  exact ⟨hids, hacyclic, by decide, _, _, rfl, rfl, by decide +kernel, by decide +kernel,
    Except.ok.inj hsame⟩

end Graph

end Patchbay
