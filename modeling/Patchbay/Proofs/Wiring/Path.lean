import Patchbay.Proofs.Wiring.Drawing

/-!
# Paths

A patch whose nodes are connected one after the other, wherever they are placed (`IsPath`).  Nothing
about its wiring is open: the path is its only route (`IsPath.greedyCover`), nothing forks, is
stranded or is merged, and drawing it amounts to resolving its nodes in order (`IsPath.drawn_eq`).
-/

open Relation

namespace Patchbay

namespace Connection

/-- The connections from each id of a list to the next one. -/
def along (ids : List String) : List Connection := ids.zipWith Connection.mk ids.tail

/-- Along a list, each id is connected to the next one. -/
theorem mem_along {ids : List String} {source target : String} :
    ⟨source, target⟩ ∈ along ids ↔ ∃ k, ids[k]? = some source ∧ ids[k + 1]? = some target := by
  rw [along, List.mem_iff_getElem?]
  refine exists_congr fun k => ?_
  rw [List.getElem?_zipWith, List.getElem?_tail]
  cases ids[k]? <;> cases ids[k + 1]? <;> simp

/-- Every id but the first is the target of one connection. -/
theorem map_target_along (ids : List String) : (along ids).map (·.target) = ids.tail := by
  refine List.ext_getElem? fun k => ?_
  rw [along, List.getElem?_map, List.getElem?_zipWith, List.getElem?_tail]
  cases hid : ids[k]? with
  | none =>
    have hlength : ids.length ≤ k := List.getElem?_eq_none_iff.mp hid
    rw [List.getElem?_eq_none (by omega)]
    rfl
  | some id => cases ids[k + 1]? <;> rfl

end Connection

namespace Graph

/-- A patch of nodes that are connected one after the other.  Its nodes and connections are placed
in any order. -/
structure IsPath (g : Graph) (path : List Node) : Prop where
  nodes : g.nodes.Perm path
  connections : g.connections.Perm (Connection.along (path.map (·.id)))

namespace IsPath

section Connections

variable {g : Graph} {path : List Node} (h : g.IsPath path)
include h

theorem ids_perm : g.ids.Perm (path.map (·.id)) := h.nodes.map _

theorem counted_eq : g.counted = g.connections := by
  refine List.filter_eq_self.mpr fun c hc => ?_
  obtain ⟨k, hsource, htarget⟩ := Connection.mem_along.mp (h.connections.mem_iff.mp hc)
  have hmem : ∀ {k id}, (path.map (·.id))[k]? = some id → g.ids.contains id := fun hid =>
    List.contains_iff_mem.mpr (h.ids_perm.mem_iff.mpr (List.mem_of_getElem? hid))
  rw [hmem hsource, hmem htarget]
  rfl

theorem dangling_eq : g.dangling = [] := by
  rw [dangling_eq_filter, List.filter_eq_nil_iff, ← h.counted_eq]
  intro c hc
  obtain ⟨-, hsource, htarget⟩ := mem_counted.mp hc
  simp [hsource, htarget]

/-- What is joined stands at neighbouring places. -/
theorem joins_iff {source target : String} :
    g.Joins source target ↔
      ∃ k, (path.map (·.id))[k]? = some source ∧ (path.map (·.id))[k + 1]? = some target := by
  rw [Joins, h.counted_eq, h.connections.mem_iff, Connection.mem_along]

section Distinct

variable (hids : (path.map (·.id)).Nodup)
include hids

/-- The ids of a path are distinct in the patch as well. -/
theorem nodup_ids : g.ids.Nodup := h.ids_perm.nodup_iff.mpr hids

/-- A node of a path leads to the next one only. -/
theorem joins_iff_next {k : ℕ} {id target : String} (hid : (path.map (·.id))[k]? = some id) :
    g.Joins id target ↔ (path.map (·.id))[k + 1]? = some target := by
  rw [h.joins_iff]
  constructor
  · rintro ⟨j, hj, htarget⟩
    obtain ⟨hlt, -⟩ := List.getElem?_eq_some_iff.mp hid
    obtain rfl := (List.getElem?_inj hlt hids).mp (hid.trans hj.symm)
    exact htarget
  · exact fun htarget => ⟨k, hid, htarget⟩

theorem not_forks (id : String) : ¬ g.Forks id := by
  rintro ⟨a, b, hne, ha, hb⟩
  obtain ⟨k, hid, hnext⟩ := h.joins_iff.mp ha
  exact hne (Option.some.inj (hnext.symm.trans ((h.joins_iff_next hids hid).mp hb)))

/-- Along a path the places increase. -/
theorem acyclic : ¬ ∃ id, TransGen g.Joins id id := by
  rintro ⟨id, hcycle⟩
  have hplaces : TransGen (fun i j : ℕ => i < j) ((path.map (·.id)).idxOf id)
      ((path.map (·.id)).idxOf id) := by
    refine hcycle.lift (path.map (·.id)).idxOf fun source target hjoins => ?_
    obtain ⟨k, hsource, htarget⟩ := h.joins_iff.mp hjoins
    obtain ⟨hk, rfl⟩ := List.getElem?_eq_some_iff.mp hsource
    obtain ⟨hk', rfl⟩ := List.getElem?_eq_some_iff.mp htarget
    show List.idxOf _ _ < List.idxOf _ _
    rw [hids.idxOf_getElem, hids.idxOf_getElem]
    exact Nat.lt_succ_self k
  rw [transGen_eq_self] at hplaces
  exact lt_irrefl _ hplaces

/-- No node of a path has two inputs. -/
theorem inputCount_le_one (id : String) : g.inputCount id ≤ 1 := by
  have hcount : g.inputCount id = (path.map (·.id)).tail.count id := by
    rw [inputCount, h.counted_eq, h.connections.countP_eq, ← Connection.map_target_along,
      List.count, List.countP_map]
    rfl
  rw [hcount]
  exact List.nodup_iff_count_le_one.mp hids.tail id

/-- No fork of a path is reported or refused. -/
theorem checkForksAlong_eq (policy : FanOutPolicy) (cover : List (List String)) :
    g.checkForksAlong policy cover = pure () := by
  have hnone : g.forksAlong cover = [] := forksAlong_eq_nil_iff.mpr fun id _ => h.not_forks hids id
  unfold checkForksAlong
  rw [hnone]
  cases policy <;> rfl

/-- No input of a path is left out. -/
theorem unmerged_eq (c : Chain) : g.unmerged c = [] := by
  refine List.map_eq_nil_iff.mpr (List.filter_eq_nil_iff.mpr fun s _ => ?_)
  simp [Nat.not_lt.mpr (h.inputCount_le_one hids s.id)]

/-- The ids of a path lead to its nodes in order. -/
theorem filterMap_nodeOf?_ids : (path.map (·.id)).filterMap g.nodeOf? = path := by
  rw [List.filterMap_map]
  calc path.filterMap _ = path.filterMap some := List.filterMap_congr fun node hnode =>
        (nodeOf?_eq_some_iff (h.nodup_ids hids)).mpr ⟨h.nodes.mem_iff.mpr hnode, rfl⟩
    _ = path := List.filterMap_some

end Distinct

end Connections

section Path

variable {g : Graph} {head : Node} {effects : List Node} (h : g.IsPath (head :: effects))
  (heffects : effects ≠ [])
include h heffects

/-- A path of several nodes keeps them all: each has a neighbour. -/
theorem keptIds_perm : g.keptIds.Perm ((head :: effects).map (·.id)) := by
  have hlong : 1 < (head :: effects).length :=
    Nat.succ_lt_succ (List.length_pos_of_ne_nil heffects)
  have hkept : g.keptIds = g.ids := by
    refine List.filter_eq_self.mpr fun id hid => ?_
    obtain ⟨k, hk⟩ := List.mem_iff_getElem?.mp (h.ids_perm.mem_iff.mp hid)
    obtain ⟨hlt, -⟩ := List.getElem?_eq_some_iff.mp hk
    rw [List.length_map] at hlt
    rw [List.any_eq_true]
    -- effects).length with hnext | hlast :: every node but the last has a node behind it, and the
    -- last one has a node before it
    rcases Nat.lt_or_ge (k + 1) (head :: effects).length with hnext | hlast
    · obtain ⟨next, hnext⟩ : ∃ next, ((head :: effects).map (·.id))[k + 1]? = some next :=
        ⟨_, List.getElem?_eq_getElem (by rwa [List.length_map])⟩
      exact ⟨⟨id, next⟩, h.joins_iff.mpr ⟨k, hk, hnext⟩, by simp⟩
    · obtain ⟨j, rfl⟩ : ∃ j, k = j + 1 := ⟨k - 1, by omega⟩
      obtain ⟨last, hlast⟩ : ∃ last, ((head :: effects).map (·.id))[j]? = some last :=
        ⟨_, List.getElem?_eq_getElem (by rw [List.length_map]; omega)⟩
      exact ⟨⟨last, id⟩, h.joins_iff.mpr ⟨j, hlast, hk⟩, by simp⟩
  rw [hkept]
  exact h.ids_perm

/-- No node is outside a path. -/
theorem outside_eq : g.outside [(head :: effects).map (·.id)] = [] := by
  refine List.filter_eq_nil_iff.mpr fun id hid => ?_
  rw [List.flatten_singleton, List.contains_iff_mem.mpr ((h.keptIds_perm heffects).subset hid)]
  exact Bool.false_ne_true

variable (hids : ((head :: effects).map (·.id)).Nodup)
include hids

/-- Of the nodes of a path only the head has no input. -/
theorem rootIds_eq : g.rootIds = [head.id] := by
  -- the kept nodes are in the order of the patch, so the roots are found by membership first
  have hroot : ∀ id, id ∈ g.rootIds ↔ id = head.id := by
    intro id
    have hkept := (h.keptIds_perm heffects).mem_iff (a := id)
    rw [rootIds, List.mem_filter, hkept, Bool.not_eq_true', List.any_eq_false]
    constructor
    · rintro ⟨hid, hinput⟩
      obtain ⟨_ | k, hk⟩ := List.mem_iff_getElem?.mp hid
      · exact (Option.some.inj hk).symm
      · -- a later node has the one before it as its input
        obtain ⟨hlt, -⟩ := List.getElem?_eq_some_iff.mp hk
        have hbefore := List.getElem?_eq_getElem (Nat.lt_of_succ_lt hlt)
        exact absurd (beq_self_eq_true id) (hinput _ (h.joins_iff.mpr ⟨k, hbefore, hk⟩))
    · rintro rfl
      refine ⟨List.mem_cons_self, fun c hc htarget => ?_⟩
      obtain ⟨k, -, hk⟩ := h.joins_iff.mp (show g.Joins c.source c.target from hc)
      rw [List.map_cons, List.getElem?_cons_succ, beq_iff_eq.mp htarget] at hk
      exact (List.nodup_cons.mp hids).1 (List.mem_of_getElem? hk)
  have hnodup : g.rootIds.Nodup := (nodup_keptIds (h.nodup_ids hids)).filter _
  have hperm : g.rootIds.Perm [head.id] :=
    (List.perm_ext_iff_of_nodup hnodup (List.nodup_singleton _)).mpr fun id => by
      rw [hroot, List.mem_singleton]
  exact List.perm_singleton.mp hperm

/-- A path is covered by one list, its ids in order. -/
theorem greedyCover : GreedyCover g [(head :: effects).map (·.id)] where
  heads := by rw [h.rootIds_eq heffects hids]; rfl
  joined := by
    intro chain hchain
    obtain rfl := List.mem_singleton.mp hchain
    refine List.isChain_iff_getElem.mpr fun k hk => ?_
    exact h.joins_iff.mpr ⟨k, List.getElem?_eq_getElem _, List.getElem?_eq_getElem _⟩
  kept := by
    intro id hid
    rw [List.flatten_singleton] at hid
    exact (h.keptIds_perm heffects).mem_iff.mpr hid
  nodup := by rwa [List.flatten_singleton]
  successor := by
    rintro (_ | i) chain hchain k id hid
    · obtain rfl := Option.some.inj hchain
      -- every target is the next node, and none is in an earlier list
      cases hfind : (g.targetIds id).find? _ with
      | none =>
        refine Option.eq_none_iff_forall_ne_some.mpr fun target htarget => ?_
        have hmem := mem_targetIds.mpr ((h.joins_iff_next hids hid).mpr htarget)
        exact List.find?_eq_none.mp hfind target hmem rfl
      | some target =>
        have hmem := mem_targetIds.mp (List.mem_of_find?_eq_some hfind)
        exact (h.joins_iff_next hids hid).mp hmem
    · exact absurd hchain (by simp)

/-- **A path is drawn as the chain of its nodes.**  Nothing is reported but what is to be said about
the nodes themselves. -/
theorem drawn_eq (schema : Schema) (config : Config) :
    g.drawn schema config =
      (do let c ← Chain.ofNodes schema config (head :: effects); pure [c]) := by
  have hcover := h.greedyCover heffects hids
  have hchain : g.chainOf schema config ((head :: effects).map (·.id)) =
      Chain.ofNodes schema config (head :: effects) := by rw [chainOf, h.filterMap_nodeOf?_ids hids]
  have hnothing : Recorded.note ([] : List Diagnostic) = pure () := rfl
  rw [drawn_eq_drawnAlong (h.nodup_ids hids) (h.acyclic hids) hcover, drawnAlong, chainsAlong,
    h.checkForksAlong_eq hids, h.outside_eq heffects, h.dangling_eq, List.mapM_cons, hchain]
  simp [h.unmerged_eq hids, hnothing]

end Path

end IsPath

end Graph

end Patchbay
