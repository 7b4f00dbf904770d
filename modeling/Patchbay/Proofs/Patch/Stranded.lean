import Patchbay.Proofs.Patch.Forks

/-!
# Why nodes are stranded

A node is stranded only because the walk took another way before it.  `compile_explains_stranded`
says that the diagnostics show where: behind every stranded node there is a fork at which one target
was followed and another one skipped, and from the skipped target a path leads to the node through
stranded nodes only.

## Shape of the proof

* a kept node outside the cover is no root, so something leads to it (`exists_joins_of_not_mem`);
* if that is on the cover, the walk was there while the node was not placed, and since it did not go
  on to the node it went on to another target (`exists_fork_of_not_mem`);
* if it is outside the cover as well, the fork behind it is the fork behind the node.  Paths do not
  return, so this is an induction (`exists_detour`).
-/

open Relation

namespace Patchbay

/-- The diagnostics show why a node is stranded: they report a fork with a target that follows it
and a skipped one, and from the skipped one connections lead to the node, all through nodes that are
reported as stranded. -/
inductive Explained (g : Graph) (diagnostics : List Diagnostic) (id : String) : Prop
  | detour {fork followed : String} {skipped : List String} {start : String}
      (report : .fanOut fork (some followed) skipped ∈ diagnostics) (mem : start ∈ skipped)
      (joins : g.Joins fork start) (stranded : .stranded start ∈ diagnostics)
      (path : ReflTransGen (fun a b => g.Joins a b ∧ .stranded b ∈ diagnostics) start id)

namespace GreedyCover

variable {g : Graph} {cover : List (List String)} (h : GreedyCover g cover)
include h

/-- Something leads to a kept node outside the cover. -/
theorem exists_joins_of_not_mem {id : String} (hid : id ∈ g.keptIds) (hout : id ∉ cover.flatten) :
    ∃ source, g.Joins source id := by
  -- every root begins a list of the cover
  rcases Graph.mem_rootIds_or_joins hid with hroot | hjoins
  · exact absurd (h.mem_of_mem_rootIds hroot) hout
  · exact hjoins

/-- A node on the cover that leads to one outside is a fork that another target follows. -/
theorem exists_fork_of_not_mem {source target : String} (hjoins : g.Joins source target)
    (hsource : source ∈ cover.flatten) (htarget : target ∉ cover.flatten) :
    ∃ next, (source, some next) ∈ g.forksAlong cover ∧ target ≠ next := by
  obtain ⟨chain, hchain, hmem⟩ := List.mem_flatten.mp hsource
  obtain ⟨i, hi⟩ := List.mem_iff_getElem?.mp hchain
  obtain ⟨k, hk⟩ := List.mem_iff_getElem?.mp hmem
  -- the target is still free when the walk is at its source, so the walk goes on
  have hfree : target ∉ (cover.take i).flatten := fun hbefore => by
    obtain ⟨before, hbefore, hmem⟩ := List.mem_flatten.mp hbefore
    exact htarget (List.mem_flatten_of_mem (List.mem_of_mem_take hbefore) hmem)
  have hnext := h.successor i chain hi k source hk
  cases hfind : (g.targetIds source).find? fun t => !(cover.take i).flatten.contains t with
  -- impossible: the target is free, so a target is found
  | none =>
    have hplaced := List.find?_eq_none.mp hfind target (Graph.mem_targetIds.mpr hjoins)
    simp [hfree] at hplaced
  | some next =>
    rw [hfind] at hnext
    have hfollows : g.Joins source next := Graph.mem_targetIds.mp (List.mem_of_find?_eq_some hfind)
    have hne : target ≠ next := by
      rintro rfl
      exact htarget (List.mem_flatten_of_mem hchain (List.mem_of_getElem? hnext))
    have hstep : (source, some next) ∈ cover.flatMap Wiring.stepsOf :=
      List.mem_flatMap.mpr ⟨chain, hchain, Wiring.mem_stepsOf_iff.mpr ⟨k, hk, hnext⟩⟩
    refine ⟨next, Graph.mem_forksAlong_iff.mpr ⟨hstep, ?_⟩, hne⟩
    exact ⟨target, next, hne, hjoins, hfollows⟩

/-- **Behind a kept node outside the cover is a fork on it.**  From a target that was not followed
there, connections lead to the node outside the cover. -/
theorem exists_detour (hacyclic : ¬ ∃ id, TransGen g.Joins id id) :
    ∀ id ∈ g.keptIds, id ∉ cover.flatten → ∃ fork next start,
      (fork, some next) ∈ g.forksAlong cover ∧ g.Joins fork start ∧ start ≠ next ∧
        start ∉ cover.flatten ∧
        ReflTransGen (fun a b => g.Joins a b ∧ b ∉ cover.flatten) start id := by
  refine Graph.kept_induction hacyclic fun id hid ih hout => ?_
  -- the induction is on the node along the connections, from the sources to it
  obtain ⟨source, hjoins⟩ := h.exists_joins_of_not_mem hid hout
  by_cases hsource : source ∈ cover.flatten
  · obtain ⟨next, hfork, hne⟩ := h.exists_fork_of_not_mem hjoins hsource hout
    exact ⟨source, next, id, hfork, hjoins, hne, hout, .refl⟩
  · obtain ⟨fork, next, start, hfork, hskips, hne, hstart, hpath⟩ := ih source hjoins hsource
    exact ⟨fork, next, start, hfork, hskips, hne, hstart, hpath.tail ⟨hjoins, hout⟩⟩

end GreedyCover

namespace Graph

variable {g : Graph} {schema : Schema} {config : Config}

/-- The nodes outside a cover are the kept ones that are on none of its lists. -/
theorem mem_outside_iff {cover : List (List String)} {id : String} :
    id ∈ g.outside cover ↔ id ∈ g.keptIds ∧ id ∉ cover.flatten := by
  simp [outside]

/-- A drawing along a cover explains the nodes outside of it. -/
theorem explained_of_mem_outside {cover : List (List String)} {chains : List Chain} {id : String}
    (hcover : GreedyCover g cover) (hacyclic : ¬ ∃ id, TransGen g.Joins id id)
    (h : (g.drawnAlong schema config cover).outcome = .ok chains) (hid : id ∈ g.outside cover) :
    Explained g (g.drawnAlong schema config cover).record id := by
  -- whatever is joined is kept, so outside the cover it is reported
  have hstranded : ∀ {source target : String}, g.Joins source target → target ∉ cover.flatten →
      .stranded target ∈ (g.drawnAlong schema config cover).record := fun hjoins hout =>
    (stranded_mem_record_drawnAlong h).mpr (mem_outside_iff.mpr ⟨target_mem_keptIds hjoins, hout⟩)
  obtain ⟨hkept, hout⟩ := mem_outside_iff.mp hid
  obtain ⟨fork, next, start, hfork, hjoins, hne, hstart, hpath⟩ :=
    hcover.exists_detour hacyclic id hkept hout
  have hskipped : start ∈ (g.branches fork).filter (some · != some next) :=
    List.mem_filter.mpr ⟨mem_branches.mpr hjoins, by simpa using hne⟩
  refine .detour ((fanOut_mem_record_drawnAlong h).mpr ⟨hfork, rfl⟩) hskipped hjoins
    (hstranded hjoins hstart) (ReflTransGen.mono (fun source target hstep => ?_) _ _ hpath)
  exact ⟨hstep.1, hstranded hstep.1 hstep.2⟩

/-- **Every stranded node is explained.**  In a patch that compiles, for each node that is reported
as stranded a fork is reported whose followed target is another one, and a skipped target of that
fork is the beginning of a path to the node on which every node is reported as stranded. -/
theorem compile_explains_stranded {compiled : Compiled}
    (h : g.compile schema config = .ok compiled) :
    ∀ id, .stranded id ∈ compiled.diagnostics → Explained g compiled.diagnostics id := by
  obtain ⟨chains, arrangements, hdrawn, -, rfl⟩ := compile_eq_ok_iff.mp h
  obtain ⟨-, hacyclic, hcover, heq⟩ := drawn_along_ids hdrawn
  intro id hid
  show Explained g (g.drawn schema config).record id
  change .stranded id ∈ (g.drawn schema config).record at hid
  rw [heq] at hdrawn hid ⊢
  exact explained_of_mem_outside hcover hacyclic hdrawn
    ((stranded_mem_record_drawnAlong hdrawn).mp hid)

/-- A detour that comes back: its way goes from the fork over two nodes to the target that was
followed there, which another source leads to as well. -/
def detourPatch : Graph where
  nodes := ["kick", "hat", "mix", "echo", "tail"].map fun id => { id := id, type := "voice" }
  connections :=
    [⟨"kick", "mix"⟩, ⟨"hat", "mix"⟩, ⟨"kick", "echo"⟩, ⟨"echo", "tail"⟩, ⟨"tail", "mix"⟩]

/-- The last node of the detour is explained by the fork at its beginning. -/
theorem compile_explains_stranded_detourPatch :
    ∃ compiled, detourPatch.compile {} .standard = .ok compiled ∧
      .stranded "tail" ∈ compiled.diagnostics ∧
      .fanOut "kick" (some "mix") ["echo"] ∈ compiled.diagnostics ∧
      Explained detourPatch compiled.diagnostics "tail" := by
  have hcompile : ∃ compiled, detourPatch.compile {} .standard = .ok compiled ∧
      .stranded "tail" ∈ compiled.diagnostics ∧
      .fanOut "kick" (some "mix") ["echo"] ∈ compiled.diagnostics := ⟨_, rfl, by decide, by decide⟩
  obtain ⟨compiled, hcompiled, hstranded, hfork⟩ := hcompile
  exact ⟨compiled, hcompiled, hstranded, hfork, compile_explains_stranded hcompiled _ hstranded⟩

end Graph

end Patchbay
