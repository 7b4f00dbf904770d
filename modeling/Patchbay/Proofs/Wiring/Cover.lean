import Patchbay.Proofs.Wiring.Chains
import Patchbay.Proofs.Wiring.Routes
import Patchbay.Proofs.Wiring.Wire

/-!
# The chains of a patch cover it greedily

Said of the ids of a patch alone, without positions, walks or placed nodes: `GreedyCover g cover`
holds of the lists of ids `cover` when

* there is one list for each kept node that nothing leads to, in their order, beginning with it;
* neighbours in a list are joined by a connection that counts;
* no id occurs twice, and every id is that of a kept node;
* in the `i`-th list each node is followed by its first target that is in none of the lists before
  it, and the list ends only where there is none.

The chains of a wiring are such a cover (`chains_greedyCover`), and the kept nodes outside of it are
the stranded ones.
-/

namespace Patchbay

/-- Lists of ids that cover the connected part of a patch greedily. -/
structure GreedyCover (g : Graph) (cover : List (List String)) : Prop where
  heads : cover.map List.head? = g.rootIds.map some
  joined : ∀ chain ∈ cover, chain.IsChain g.Joins
  kept : ∀ id ∈ cover.flatten, id ∈ g.keptIds
  nodup : cover.flatten.Nodup
  successor : ∀ i chain, cover[i]? = some chain → ∀ k id, chain[k]? = some id →
    chain[k + 1]? = (g.targetIds id).find? fun target => !(cover.take i).flatten.contains target

namespace Graph

variable {g : Graph}

/-- The position of the last node of a route is no exception: the ids of a greedy route go on to the
first target outside the ids before. -/
theorem greedy_ids (hids : g.ids.Nodup) {before route : List ℕ}
    (hgreedy : g.wiring.Greedy before route) (hroute : ∀ p ∈ route, p < g.wiring.size)
    (hbefore : ∀ p ∈ before, p < g.wiring.size) {k : ℕ} {id : String}
    (hid : (route.map g.wiring.id)[k]? = some id) :
    (route.map g.wiring.id)[k + 1]? =
      (g.targetIds id).find? fun target => !(before.map g.wiring.id).contains target := by
  rw [List.getElem?_map] at hid
  obtain ⟨p, hp, rfl⟩ := Option.map_eq_some_iff.mp hid
  have hlt := hroute p (List.mem_of_getElem? hp)
  rw [List.getElem?_map, hgreedy k p hp, ← wiring_feeds_ids hids hlt, List.find?_map]
  refine congrArg _ (List.find?_congr fun q hq => ?_)
  have hq' := wiring_inRange hids p q hq
  rw [Function.comp_apply, Bool.eq_iff_iff]
  simp only [Bool.not_eq_true', List.contains_eq_mem, decide_eq_false_iff_not, List.mem_map]
  -- ids tell positions apart only below the size of the wiring, where all of these are
  refine not_congr ⟨fun h => ⟨q, h, rfl⟩, ?_⟩
  rintro ⟨q', hmem, heq⟩
  rwa [← wiring_id_inj hids (hbefore q' hmem) hq' heq]

/-- The ids along the routes are a greedy cover. -/
theorem routes_greedyCover (hids : g.ids.Nodup) (hacyclic : g.wiring.Acyclic) :
    GreedyCover g (g.wiring.routes.map (·.map g.wiring.id)) := by
  have hrange := wiring_inRange hids
  have hlt : ∀ route ∈ g.wiring.routes, ∀ p ∈ route, p < g.wiring.size :=
    fun _ hroute _ => Wiring.lt_size_of_mem_routes hrange hacyclic hroute
  have hflatten : (g.wiring.routes.map (·.map g.wiring.id)).flatten =
      g.wiring.routes.flatten.map g.wiring.id := List.map_flatten.symm
  refine ⟨?heads, ?joined, ?kept, ?nodup, ?successor⟩
  case heads =>
    have hhead : List.head? ∘ (·.map g.wiring.id) = Option.map g.wiring.id ∘ List.head? := by
      funext route
      simp
    rw [List.map_map, hhead, ← List.map_map, Wiring.map_head?_routes, ← wiring_roots_ids hids,
      List.map_map, List.map_map]
    rfl
  case joined =>
    intro chain hchain
    obtain ⟨route, hroute, rfl⟩ := List.mem_map.mp hchain
    obtain ⟨i, hi⟩ := List.mem_iff_getElem?.mp hroute
    have hpath := (Wiring.routes_greedy hrange hacyclic hi).path
    exact (List.isChain_map _).mpr (hpath.imp fun _ _ h => ((wiring_feeds_iff hids).mp h).2.2)
  case kept =>
    intro id hid
    rw [hflatten] at hid
    obtain ⟨p, hp, rfl⟩ := List.mem_map.mp hid
    obtain ⟨route, hroute, hp⟩ := List.mem_flatten.mp hp
    exact wiring_id_mem hids (hlt route hroute p hp)
  case nodup =>
    -- routes begin at positions that nothing feeds, so no route runs into the root of another one
    have hinputs : ∀ p q, g.wiring.Feeds p q → g.wiring.inputs q ≠ 0 := by
      intro p q hpq hzero
      obtain ⟨-, hq, hjoins⟩ := (wiring_feeds_iff hids).mp hpq
      exact (wiring_inputs_eq_zero hids hq).mp hzero _ hjoins
    rw [hflatten]
    refine (Wiring.nodup_flatten_routes hrange hacyclic hinputs).map_on fun p hp q hq heq => ?_
    obtain ⟨route, hroute, hp⟩ := List.mem_flatten.mp hp
    obtain ⟨route', hroute', hq⟩ := List.mem_flatten.mp hq
    exact wiring_id_inj hids (hlt route hroute p hp) (hlt route' hroute' q hq) heq
  case successor =>
    intro i chain hchain k id hid
    rw [List.getElem?_map] at hchain
    obtain ⟨route, hroute, rfl⟩ := Option.map_eq_some_iff.mp hchain
    have hgreedy := Wiring.routes_greedy hrange hacyclic hroute
    have hbefore : ((g.wiring.routes.map (·.map g.wiring.id)).take i).flatten =
        (g.wiring.routes.take i).flatten.map g.wiring.id := by
      rw [← List.map_take, List.map_flatten]
    rw [hbefore]
    refine greedy_ids hids hgreedy (hlt route (List.mem_of_getElem? hroute)) (fun p hp => ?_) hid
    obtain ⟨route', hroute', hp⟩ := List.mem_flatten.mp hp
    exact hlt route' (List.mem_of_mem_take hroute') p hp

/-- The stranded nodes are the kept nodes outside the cover. -/
theorem stranded_ids (hids : g.ids.Nodup) (hacyclic : g.wiring.Acyclic) :
    g.wiring.stranded.map g.wiring.id = g.keptIds.filter fun id =>
      !(g.wiring.routes.map (·.map g.wiring.id)).flatten.contains id := by
  rw [← wiring_ids hids, List.filter_map, Wiring.stranded]
  refine congrArg _ (List.filter_congr fun p hp => ?_)
  have hp' := List.mem_range.mp hp
  rw [Function.comp_apply, ← List.map_flatten, Bool.eq_iff_iff]
  simp only [Bool.not_eq_true', List.contains_eq_mem, decide_eq_false_iff_not, List.mem_map]
  refine not_congr ⟨fun h => ⟨p, h, rfl⟩, ?_⟩
  rintro ⟨q, hq, heq⟩
  obtain ⟨route, hroute, hmem⟩ := List.mem_flatten.mp hq
  have hq' := Wiring.lt_size_of_mem_routes (wiring_inRange hids) hacyclic hroute hmem
  rwa [← wiring_id_inj hids hq' hp' heq]

/-- The chains have the ids of their routes. -/
theorem ids_of_outcome_chains (hids : g.ids.Nodup) (hacyclic : g.wiring.Acyclic) {schema : Schema}
    {config : Config} {chains : List Chain}
    (h : (g.wiring.chains schema config).outcome = .ok chains) :
    chains.map Chain.ids = g.wiring.routes.map (·.map g.wiring.id) := by
  obtain ⟨-, hroutes⟩ := Wiring.outcome_chains_eq_ok.mp h
  have hnode : ∀ route ∈ g.wiring.routes,
      (route.filterMap g.wiring.node?).map (·.id) = route.map g.wiring.id := fun route hroute =>
    map_id_filterMap_node? hids fun _ hp =>
      Wiring.lt_size_of_mem_routes (wiring_inRange hids) hacyclic hroute hp
  rw [← List.map_congr_left hnode]
  refine List.forall₂_eq_eq_eq ▸ ?_
  rw [List.forall₂_map_left_iff, List.forall₂_map_right_iff]
  exact (hroutes.imp fun _ _ h => Wiring.ids_of_outcome_chainOf h).flip

/-- The ids of the chains cover the patch. -/
theorem ids_greedyCover {w : Wiring} {schema : Schema} {config : Config} {chains : List Chain}
    (hwire : g.wire.outcome = .ok w) (hchains : (w.chains schema config).outcome = .ok chains) :
    GreedyCover g (chains.map Chain.ids) := by
  obtain ⟨hids, rfl, hacyclic⟩ := outcome_wire_eq_ok hwire
  rw [ids_of_outcome_chains hids hacyclic hchains]
  exact routes_greedyCover hids hacyclic

/-- **The chains are the greedy disjoint path cover.**  Whenever a patch has a wiring and its
chains are found, their ids cover the connected part greedily, and the nodes reported as stranded
are the kept nodes in no chain, each once and in order. -/
theorem chains_greedyCover {w : Wiring} {schema : Schema} {config : Config} {chains : List Chain}
    (hwire : g.wire.outcome = .ok w) (hchains : (w.chains schema config).outcome = .ok chains) :
    GreedyCover g (chains.map Chain.ids) ∧ g.keptIds.Nodup ∧
      (w.chains schema config).record.filterMap Diagnostic.stranded? =
        g.keptIds.filter fun id => !(chains.map Chain.ids).flatten.contains id := by
  refine ⟨ids_greedyCover hwire hchains, ?_⟩
  obtain ⟨hids, rfl, hacyclic⟩ := outcome_wire_eq_ok hwire
  rw [Wiring.stranded_record_chains hchains, ids_of_outcome_chains hids hacyclic hchains]
  exact ⟨nodup_keptIds hids, stranded_ids hids hacyclic⟩

/-- A patch with a merge and a fork: the chain of the first root takes the merge, and the second
target of that root is stranded. -/
def mergingPatch : Graph where
  nodes := ["kick", "hat", "mix", "side"].map fun id => { id := id, type := "voice" }
  connections := [⟨"kick", "mix"⟩, ⟨"hat", "mix"⟩, ⟨"kick", "side"⟩]

/-- The first root takes the merge, so the second one is alone and the side is stranded. -/
theorem chains_greedyCover_mergingPatch :
    ∃ w chains, mergingPatch.wire.outcome = .ok w ∧
      (w.chains {} .standard).outcome = .ok chains ∧
      chains.map Chain.ids = [["kick", "mix"], ["hat"]] ∧
      GreedyCover mergingPatch (chains.map Chain.ids) ∧ mergingPatch.keptIds.Nodup ∧
      (w.chains {} .standard).record.filterMap Diagnostic.stranded? =
        mergingPatch.keptIds.filter fun id => !(chains.map Chain.ids).flatten.contains id :=
  ⟨_, _, rfl, rfl, rfl, chains_greedyCover rfl rfl⟩

end Graph

end Patchbay
