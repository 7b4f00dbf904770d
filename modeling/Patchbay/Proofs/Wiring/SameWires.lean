import Patchbay.Proofs.Wiring.Drawing

/-!
# Patches with the same wires

Which nodes are kept and which connections count is all that a patch is searched and covered by.
Two patches that agree on both (`Graph.SameWires`) number their kept nodes alike, although the nodes
have other places in the patches; so the search for a cycle is the same search, down to the node
that it names (`SameWires.cycle?_eq`), and there is one cover for both
(`SameWires.cyclic_or_covered`).

What is left to compare is what a drawing along that cover reads of its nodes.
-/

open Relation

namespace Patchbay

namespace Wiring

variable {w w' : Wiring}

/-- A search looks at nothing but what the positions feed. -/
theorem search_congr (hfeeds : ∀ p, w.feeds p = w'.feeds p) (fuel : ℕ)
    (trail finished next : List ℕ) :
    w.search fuel trail finished next = w'.search fuel trail finished next := by
  induction fuel generalizing trail finished next with
  | zero => rfl
  | succ fuel ih => simp only [search, hfeeds, ih]

/-- The search for a cycle looks at what the positions feed and at how many there are. -/
theorem cycle?_congr (hsize : w.size = w'.size) (hfeeds : ∀ p, w.feeds p = w'.feeds p) :
    w.cycle? = w'.cycle? := by
  rw [cycle?, hsize, search_congr hfeeds, cycle?]

end Wiring

namespace Graph

/-- Two patches keep the nodes with the same ids and count the same connections. -/
structure SameWires (g g' : Graph) : Prop where
  keptIds : g.keptIds = g'.keptIds
  counted : g.counted = g'.counted

namespace SameWires

variable {g g' : Graph} (h : g.SameWires g')
include h

theorem joins_eq : g.Joins = g'.Joins := by
  funext source target
  rw [Joins, h.counted, Joins]

theorem targetIds_eq (id : String) : g.targetIds id = g'.targetIds id := by
  rw [targetIds, h.counted, targetIds]

theorem branches_eq (id : String) : g.branches id = g'.branches id := by
  rw [branches, h.targetIds_eq, branches]

theorem inputCount_eq (id : String) : g.inputCount id = g'.inputCount id := by
  rw [inputCount, h.counted, inputCount]

theorem rootIds_eq : g.rootIds = g'.rootIds := by
  rw [rootIds, h.keptIds, h.counted, rootIds]

theorem outside_eq (cover : List (List String)) : g.outside cover = g'.outside cover := by
  rw [outside, h.keptIds, outside]

/-- The same inputs are reported as missing. -/
theorem unmerged_eq : g.unmerged = g'.unmerged :=
  funext fun _ => unmerged_congr fun id _ => h.inputCount_eq id

section Positions

variable (hids : g.ids.Nodup) (hids' : g'.ids.Nodup)
include hids hids'

theorem size_eq : g.wiring.size = g'.wiring.size := by
  rw [wiring_size hids, h.keptIds, wiring_size hids']

theorem id_eq (p : ℕ) : g.wiring.id p = g'.wiring.id p := by
  rw [wiring_id hids, h.keptIds, wiring_id hids']

theorem feeds_eq (p : ℕ) : g.wiring.feeds p = g'.wiring.feeds p := by
  have hsize := h.size_eq hids hids'
  by_cases hp : p < g.wiring.size
  · rw [wiring_feeds hids hp, h.id_eq hids hids', h.targetIds_eq, h.keptIds,
      wiring_feeds hids' (hsize ▸ hp)]
  · have hp := Nat.le_of_not_lt hp
    rw [wiring_feeds_eq_nil hp, wiring_feeds_eq_nil (hsize ▸ hp)]

/-- The search for a cycle is the same search. -/
theorem cycle?_eq : g.wiring.cycle? = g'.wiring.cycle? :=
  Wiring.cycle?_congr (h.size_eq hids hids') (h.feeds_eq hids hids')

/-- Both patches are refused for a cycle at the same node, or both are drawn along one cover. -/
theorem cyclic_or_covered (schema : Schema) (config : Config) :
    (∃ id, (g.drawn schema config).outcome = .error (.cycle id) ∧
      (g'.drawn schema config).outcome = .error (.cycle id)) ∨
    (¬ ∃ id, TransGen g.Joins id id) ∧
      ∃ cover, GreedyCover g cover ∧ g.drawn schema config = g.drawnAlong schema config cover ∧
        g'.drawn schema config = g'.drawnAlong schema config cover := by
  have hwire := outcome_wire_of_nodup hids
  have hwire' := outcome_wire_of_nodup hids'
  rw [← h.cycle?_eq hids hids'] at hwire'
  cases hcycle : g.wiring.cycle? with
  | some p =>
    rw [hcycle] at hwire hwire'
    refine .inl ⟨g.wiring.id p, ?_, ?_⟩
    · rw [drawn, Recorded.bind_of_error hwire]
    · rw [drawn, Recorded.bind_of_error hwire', h.id_eq hids hids']
  | none =>
    have hwiring := Wiring.acyclic_of_cycle?_eq_none (wiring_inRange hids) hcycle
    have hacyclic : ¬ ∃ id, TransGen g.Joins id id := by
      rintro ⟨id, hid⟩
      exact not_acyclic_of_transGen_joins hids hid hwiring
    have hacyclic' : ¬ ∃ id, TransGen g'.Joins id id := h.joins_eq ▸ hacyclic
    obtain ⟨cover, hcover⟩ := exists_greedyCover hids hacyclic
    obtain ⟨cover', hcover'⟩ := exists_greedyCover hids' hacyclic'
    -- each has a cover, and it is determined by what both agree on
    obtain rfl := hcover.eq hcover' h.rootIds_eq h.targetIds_eq
    exact .inr ⟨hacyclic, cover, hcover, drawn_eq_drawnAlong hids hacyclic hcover schema config,
      drawn_eq_drawnAlong hids' hacyclic' hcover' schema config⟩

end Positions

/-- The chains along a cover are the same if its lists are resolved alike once its forks pass. -/
theorem chainsAlong_eq {schema : Schema} {config : Config} {cover : List (List String)}
    (hchains : (g.checkForksAlong config.fanOut cover).outcome = .ok () →
      ∀ ids ∈ cover, g.chainOf schema config ids = g'.chainOf schema config ids) :
    g.chainsAlong schema config cover = g'.chainsAlong schema config cover := by
  have hforks : g.checkForksAlong config.fanOut cover = g'.checkForksAlong config.fanOut cover :=
    checkForksAlong_congr (fun id _ => h.branches_eq id) config.fanOut
  rw [chainsAlong, chainsAlong, ← hforks, h.outside_eq]
  refine Recorded.bind_congr fun _ hpass => ?_
  rw [Recorded.mapM_congr (hchains hpass)]

end SameWires

end Graph

end Patchbay
