import Patchbay.Proofs.Compile

/-!
# Placement does not matter

A patch keeps its nodes and connections in the order of their placement.  What is compiled depends
on that order in two ways only: the connections out of one node are tried in their order, and the
roots begin the chains in theirs.  `Rearranged g g'` says that two patches differ in nothing but the
rest of the order, and `compile_rearranged` that they compile alike.

## Shape of the proof

* a rearranged patch has the same targets, input counts and nodes by id (`targetIds_eq`,
  `inputCount_eq`, `nodeOf?_eq`), and the same kept nodes in another order (`keptIds_perm`);
* so it has the same greedy cover, by `GreedyCover.eq`, and is drawn alike along it
  (`drawn_alike`);
* what follows looks at the chains alone.
-/

open Relation

namespace Patchbay

/-- Two compiled patches that differ at most in the order of their diagnostics. -/
structure Compiled.Alike (c c' : Compiled) : Prop where
  code : c.code = c'.code
  chains : c.chains = c'.chains
  inputChains : c.inputChains = c'.inputChains
  rulesApplied : c.rulesApplied = c'.rulesApplied
  diagnostics : c.diagnostics.Perm c'.diagnostics

/-- Two compilations that fail alike, or succeed up to the order of their diagnostics. -/
def SameResult : Except Failure Compiled → Except Failure Compiled → Prop
  | .ok c, .ok c' => c.Alike c'
  | .error e, .error e' => e = e'
  | _, _ => False

namespace Graph

/-- The same nodes and connections in another order, but the connections out of one node and the
roots in the same. -/
structure Rearranged (g g' : Graph) : Prop where
  nodes : g.nodes.Perm g'.nodes
  connections : g.connections.Perm g'.connections
  outgoing : ∀ source,
    g.connections.filter (·.source == source) = g'.connections.filter (·.source == source)
  roots : g.rootIds = g'.rootIds

/-- Patches that are drawn alike compile alike. -/
theorem sameResult_of_drawn {g g' : Graph} {schema : Schema} {config : Config}
    (h : (g.drawn schema config).Alike (g'.drawn schema config)) :
    SameResult (g.compile schema config) (g'.compile schema config) := by
  cases hdrawn : (g.drawn schema config).outcome with
  | error e =>
    rw [compile_of_drawn_error hdrawn, compile_of_drawn_error (h.outcome ▸ hdrawn)]
    rfl
  | ok chains =>
    rw [compile_of_drawn_ok hdrawn, compile_of_drawn_ok (h.outcome ▸ hdrawn)]
    cases (folded config chains).outcome with
    | error e => rfl
    | ok arrangements => exact ⟨rfl, rfl, rfl, rfl, h.record⟩

namespace Rearranged

variable {g g' : Graph} (h : g.Rearranged g')
include h

/-- The ids are the same in another order. -/
theorem ids_perm : g.ids.Perm g'.ids := h.nodes.map _

/-- Which connections count does not depend on the order of the ids. -/
theorem counted_eq_filter :
    g.counted =
      g.connections.filter fun c => g'.ids.contains c.source && g'.ids.contains c.target := by
  simp only [counted, h.ids_perm.contains_eq]

/-- The connections that count are the same in another order. -/
theorem counted_perm : g.counted.Perm g'.counted := by
  rw [h.counted_eq_filter]
  exact h.connections.filter _

theorem joins_iff {source target : String} : g.Joins source target ↔ g'.Joins source target :=
  h.counted_perm.mem_iff

/-- A node has the same targets, and in the same order: this is what `outgoing` is for. -/
theorem targetIds_eq (id : String) : g.targetIds id = g'.targetIds id := by
  rw [targetIds, targetIds, h.counted_eq_filter, counted, List.filter_comm, h.outgoing,
    List.filter_comm]

theorem inputCount_eq (id : String) : g.inputCount id = g'.inputCount id :=
  h.counted_perm.countP_eq _

/-- With distinct ids, the same node is found for an id. -/
theorem nodeOf?_eq (hids : g.ids.Nodup) (id : String) : g.nodeOf? id = g'.nodeOf? id := by
  refine Option.ext fun node => ?_
  rw [nodeOf?_eq_some_iff hids, nodeOf?_eq_some_iff (h.ids_perm.nodup_iff.mp hids),
    h.nodes.mem_iff]

/-- The kept nodes are the same in another order. -/
theorem keptIds_perm : g.keptIds.Perm g'.keptIds := by
  have hkept : g.keptIds =
      g.ids.filter fun id => g'.counted.any fun c => c.source == id || c.target == id :=
    List.filter_congr fun id _ => h.counted_perm.any_eq
  rw [hkept]
  exact h.ids_perm.filter _

/-- The connections that do not count are the same in another order. -/
theorem dangling_perm : g.dangling.Perm g'.dangling := by
  rw [dangling_eq_filter, dangling_eq_filter]
  simp only [h.ids_perm.contains_eq]
  exact h.connections.filter _

theorem cyclic_iff : (∃ id, TransGen g.Joins id id) ↔ ∃ id, TransGen g'.Joins id id := by
  have hjoins : g.Joins = g'.Joins := by
    funext source target
    exact propext h.joins_iff
  -- the two relations are equal, so nothing is left to prove about paths
  rw [hjoins]

/-- Along one cover, rearranged patches are drawn alike. -/
theorem drawnAlong_alike (hids : g.ids.Nodup) (cover : List (List String)) (schema : Schema)
    (config : Config) :
    (g.drawnAlong schema config cover).Alike (g'.drawnAlong schema config cover) := by
  have hforks : g.checkForksAlong config.fanOut cover = g'.checkForksAlong config.fanOut cover :=
    checkForksAlong_congr (fun id _ => by rw [branches, h.targetIds_eq, branches]) _
  have hchains : cover.mapM (g.chainOf schema config) = cover.mapM (g'.chainOf schema config) :=
    mapM_chainOf_congr (fun id _ => h.nodeOf?_eq hids id) schema config
  have hunmerged : g.unmerged = g'.unmerged :=
    funext fun c => unmerged_congr fun id _ => h.inputCount_eq id
  have houtside : (g.outside cover).Perm (g'.outside cover) := h.keptIds_perm.filter _
  rw [drawnAlong, drawnAlong, chainsAlong, chainsAlong, hforks, hchains, hunmerged]
  refine .bind (.note (h.dangling_perm.map _)) fun _ => .bind ?_ fun _ => .refl _
  exact .bind (.refl _) fun _ => .bind (.note (houtside.map _)) fun _ => .refl _

/-- Without cycles, rearranged patches are drawn alike. -/
theorem drawn_alike (hids : g.ids.Nodup) (hacyclic : ¬ ∃ id, TransGen g.Joins id id)
    (schema : Schema) (config : Config) :
    (g.drawn schema config).Alike (g'.drawn schema config) := by
  have hids' := h.ids_perm.nodup_iff.mp hids
  have hacyclic' := mt h.cyclic_iff.mpr hacyclic
  obtain ⟨cover, hcover⟩ := exists_greedyCover hids hacyclic
  obtain ⟨cover', hcover'⟩ := exists_greedyCover hids' hacyclic'
  -- each patch has a cover of its own; they are equal, as a cover is determined by roots and
  -- targets
  obtain rfl := hcover.eq hcover' h.roots h.targetIds_eq
  rw [drawn_eq_drawnAlong hids hacyclic hcover, drawn_eq_drawnAlong hids' hacyclic' hcover']
  exact h.drawnAlong_alike hids cover schema config

end Rearranged

/-- With distinct ids, a cycle of connections is what a patch fails with. -/
theorem compile_of_cyclic {g : Graph} (hids : g.ids.Nodup) (hcyclic : ∃ id, TransGen g.Joins id id)
    (schema : Schema) (config : Config) : ∃ id, g.compile schema config = .error (.cycle id) := by
  have hwire := outcome_wire_of_nodup hids
  cases hcycle : g.wiring.cycle? with
  | none =>
    obtain ⟨id, hid⟩ := hcyclic
    -- the search would have found the cycle
    exact absurd (Wiring.acyclic_of_cycle?_eq_none (wiring_inRange hids) hcycle)
      (not_acyclic_of_transGen_joins hids hid)
  | some p =>
    rw [hcycle] at hwire
    refine ⟨g.wiring.id p, compile_of_drawn_error ?_⟩
    rw [drawn, Recorded.bind_of_error hwire]

/-- **Placement does not matter.**  Rearranged patches with distinct ids both fail with a cycle if
their connections form one.  If not, they have the same failure, or the same code, chains and
applied rules, and diagnostics that differ at most in their order. -/
theorem compile_rearranged {g g' : Graph} (h : g.Rearranged g') (hids : g.ids.Nodup)
    (schema : Schema) (config : Config) :
    ((∃ id, TransGen g.Joins id id) →
      (∃ id, g.compile schema config = .error (.cycle id)) ∧
        ∃ id, g'.compile schema config = .error (.cycle id)) ∧
      ((¬ ∃ id, TransGen g.Joins id id) →
        SameResult (g.compile schema config) (g'.compile schema config)) := by
  refine ⟨fun hcyclic => ⟨?_, ?_⟩, fun hacyclic => ?_⟩
  · exact compile_of_cyclic hids hcyclic schema config
  · exact compile_of_cyclic (h.ids_perm.nodup_iff.mp hids) (h.cyclic_iff.mp hcyclic) schema config
  · exact sameResult_of_drawn (h.drawn_alike hids hacyclic schema config)

/-- A merge, a fork, a connection into nothing and an unconnected node. -/
def placedPatch : Graph where
  nodes := ["kick", "hat", "mix", "side", "spare"].map fun id => { id := id, type := "voice" }
  connections := [⟨"kick", "mix"⟩, ⟨"hat", "mix"⟩, ⟨"kick", "side"⟩, ⟨"side", "ghost"⟩]

/-- The same patch placed in another order. -/
def replacedPatch : Graph where
  nodes := ["side", "kick", "spare", "mix", "hat"].map fun id => { id := id, type := "voice" }
  connections := [⟨"side", "ghost"⟩, ⟨"hat", "mix"⟩, ⟨"kick", "mix"⟩, ⟨"kick", "side"⟩]

/-- Only the two connections out of the source and the two roots keep their order. -/
theorem rearranged_placedPatch : placedPatch.Rearranged replacedPatch where
  nodes := List.Perm.map _ (by decide)
  connections := by decide
  outgoing := by
    intro source
    -- no connection leaves any other node than these two
    by_cases hkick : "kick" = source
    · subst hkick
      rfl
    by_cases hhat : "hat" = source
    · subst hhat
      rfl
    simp [placedPatch, replacedPatch, List.filter_cons, hkick, hhat]
  roots := by decide

/-- Both orders of the patch compile, and alike. -/
theorem compile_rearranged_placedPatch :
    placedPatch.Rearranged replacedPatch ∧ placedPatch.ids.Nodup ∧
      ∃ c c', placedPatch.compile {} .standard = .ok c ∧
        replacedPatch.compile {} .standard = .ok c' ∧ c.Alike c' := by
  have hids : placedPatch.ids.Nodup := by decide
  have hdrawn : ∃ chains, (placedPatch.drawn {} .standard).outcome = .ok chains := ⟨_, rfl⟩
  obtain ⟨chains, hchains⟩ := hdrawn
  have hacyclic := (drawn_along_ids hchains).2.1
  have hsame := (compile_rearranged rearranged_placedPatch hids {} .standard).2 hacyclic
  exact ⟨rearranged_placedPatch, hids, _, _, rfl, rfl, hsame⟩

end Graph

end Patchbay
