import Mathlib.Data.List.Nodup
import Patchbay.Proofs.Wiring.Search

/-!
# Positions and ids

A wiring numbers the kept nodes of a patch by position; the patch itself knows them by id.  This
module says the same things on both sides and shows that they agree when the ids are distinct:

* `Graph.counted`, `Graph.Joins`: the connections between nodes of the patch;
* `Graph.keptIds`: the ids of the nodes at an end of one (`wiring_ids`);
* `Graph.targetIds`: the targets of a node, in the order of the connections (`wiring_feeds_ids`);
* `Graph.rootIds`: the kept nodes that no connection leads to (`wiring_roots_ids`).

The bridge is the place of an id among the kept ones, which `Wiring.id` undoes on either side
(`wiring_id_idxOf`, `idxOf_wiring_id`).
-/

open Relation

namespace Patchbay.Graph

/-! ## The connected part of a patch by ids -/

/-- The connections of which both ends name a node, in order. -/
def counted (g : Graph) : List Connection :=
  g.connections.filter fun c => g.ids.contains c.source && g.ids.contains c.target

/-- A connection that counts leads from one node to another. -/
def Joins (g : Graph) (source target : String) : Prop := ⟨source, target⟩ ∈ g.counted

/-- The ids of the nodes at an end of a connection that counts, in order. -/
def keptIds (g : Graph) : List String :=
  g.ids.filter fun id => g.counted.any fun c => c.source == id || c.target == id

/-- The targets of a node, one for each connection that counts, in order. -/
def targetIds (g : Graph) (id : String) : List String :=
  (g.counted.filter fun c => c.source == id).map (·.target)

/-- The ids of the kept nodes that no connection leads to, in order. -/
def rootIds (g : Graph) : List String :=
  g.keptIds.filter fun id => !g.counted.any fun c => c.target == id

/-- A connection counts if both of its ends name a node. -/
theorem mem_counted {g : Graph} {c : Connection} :
    c ∈ g.counted ↔ c ∈ g.connections ∧ c.source ∈ g.ids ∧ c.target ∈ g.ids := by
  simp [counted]

/-- A node is kept if it is at an end of a connection that counts. -/
theorem mem_keptIds {g : Graph} {id : String} :
    id ∈ g.keptIds ↔ id ∈ g.ids ∧ ∃ c ∈ g.counted, c.source = id ∨ c.target = id := by
  simp [keptIds]

/-- The targets of a node are what it is joined to. -/
theorem mem_targetIds {g : Graph} {id target : String} :
    target ∈ g.targetIds id ↔ g.Joins id target := by
  simp only [targetIds, Joins, List.mem_map, List.mem_filter, beq_iff_eq]
  constructor
  · rintro ⟨c, ⟨hc, rfl⟩, rfl⟩
    exact hc
  · intro h
    exact ⟨⟨id, target⟩, ⟨h, rfl⟩, rfl⟩

/-- The source of a connection that counts is kept. -/
theorem source_mem_keptIds {g : Graph} {c : Connection} (hc : c ∈ g.counted) :
    c.source ∈ g.keptIds :=
  mem_keptIds.mpr ⟨(mem_counted.mp hc).2.1, c, hc, .inl rfl⟩

theorem target_mem_keptIds {g : Graph} {c : Connection} (hc : c ∈ g.counted) :
    c.target ∈ g.keptIds :=
  mem_keptIds.mpr ⟨(mem_counted.mp hc).2.2, c, hc, .inr rfl⟩

/-! ## Indices -/

/-- Numbering a list of ids by their places in a longer one keeps their order. -/
private theorem idxOf_map_idxOf {ids kept : List String} (hsub : kept ⊆ ids) (id : String) :
    (kept.map ids.idxOf).idxOf (ids.idxOf id) = kept.idxOf id := by
  induction kept with
  | nil => rfl
  | cons a rest ih =>
    obtain ⟨ha, hrest⟩ := List.cons_subset.mp hsub
    rw [List.map_cons, List.idxOf_cons, List.idxOf_cons, ih hrest]
    by_cases h : a = id
    · rw [h, beq_self_eq_true, beq_self_eq_true]
    · have hne : ids.idxOf a ≠ ids.idxOf id := fun heq => h ((List.idxOf_inj ha).mp heq)
      rw [beq_false_of_ne h, beq_false_of_ne hne]

/-- An id that names a node has the index of the first such node. -/
theorem index?_of_mem {g : Graph} {id : String} (h : id ∈ g.ids) :
    g.index? id = some (g.ids.idxOf id) := by
  obtain ⟨i, hi⟩ := Option.isSome_iff_exists.mp (List.isSome_idxOf?.mpr h)
  rw [index?, List.idxOf_eq_getD_idxOf?, hi, Option.getD_some]

theorem index?_of_notMem {g : Graph} {id : String} (h : id ∉ g.ids) : g.index? id = none :=
  List.idxOf?_eq_none_iff.mpr h

/-- The ends of a connection by index, where both name a node. -/
theorem link?_eq (g : Graph) (c : Connection) :
    g.link? c = if g.ids.contains c.source && g.ids.contains c.target
      then some (g.ids.idxOf c.source, g.ids.idxOf c.target) else none := by
  by_cases hs : c.source ∈ g.ids <;> by_cases ht : c.target ∈ g.ids <;>
    simp [link?, index?_of_mem, index?_of_notMem, hs, ht]

/-- The connections that count, by the indices of the ids at their ends. -/
theorem links_eq_map_counted (g : Graph) :
    g.links = g.counted.map fun c => (g.ids.idxOf c.source, g.ids.idxOf c.target) := by
  rw [links, counted, ← List.filterMap_eq_map, ← List.filterMap_eq_filter, List.filterMap_filterMap]
  refine List.filterMap_congr fun c _ => ?_
  rw [link?_eq, Option.guard]
  split <;> rfl

/-- The kept nodes, by the indices of their ids. -/
theorem connected_eq_map_keptIds {g : Graph} (hids : g.ids.Nodup) :
    g.connected = g.keptIds.map g.ids.idxOf := by
  -- indices are filtered on one side and ids on the other, so the indices are written as those of
  -- ids
  have hrange : List.range g.nodes.length = g.ids.map g.ids.idxOf := by
    refine List.ext_getElem (by simp [ids]) fun i hi hi' => ?_
    rw [List.getElem_range, List.getElem_map, hids.idxOf_getElem]
  rw [connected, hrange, List.filter_map, keptIds, links_eq_map_counted]
  refine congrArg _ (List.filter_congr fun id hid => ?_)
  rw [Function.comp_apply, List.any_map, Bool.eq_iff_iff, List.any_eq_true, List.any_eq_true]
  refine exists_congr fun c => and_congr_right fun hc => ?_
  have hsource := (mem_counted.mp hc).2.1
  have htarget := (mem_counted.mp hc).2.2
  simp [List.idxOf_inj hsource, List.idxOf_inj htarget]

theorem nodup_keptIds {g : Graph} (hids : g.ids.Nodup) : g.keptIds.Nodup := hids.filter _

/-! ## The wiring by ids -/

/-- Positions outside the wiring feed nothing. -/
theorem wiring_feeds_eq_nil {g : Graph} {p : ℕ} (hp : g.wiring.size ≤ p) :
    g.wiring.feeds p = [] := by
  have hp' : g.connected.length ≤ p := hp
  simp [Wiring.feeds, wiring, hp']

section Wiring

variable {g : Graph} (hids : g.ids.Nodup)
include hids

theorem wiring_size : g.wiring.size = g.keptIds.length := by
  simp [wiring, Wiring.size, connected_eq_map_keptIds hids]

/-- The node at a position is the kept node at that place. -/
theorem map_id_wiring_node? (p : ℕ) : (g.wiring.node? p).map (·.id) = g.keptIds[p]? := by
  simp only [Wiring.node?, wiring, connected_eq_map_keptIds hids, List.getElem?_map]
  cases hp : g.keptIds[p]? with
  | none => rfl
  | some id =>
    have hid : id ∈ g.ids := (mem_keptIds.mp (List.mem_of_getElem? hp)).1
    have hnode : (g.nodes[g.ids.idxOf id]?).map (·.id) = some id := by
      rw [← List.getElem?_map]
      exact List.getElem?_idxOf hid
    simpa using hnode

theorem wiring_id (p : ℕ) : g.wiring.id p = g.keptIds[p]?.getD "" := by
  rw [Wiring.id, map_id_wiring_node? hids]

/-- A kept id is found at its own place. -/
theorem wiring_id_idxOf {id : String} (h : id ∈ g.keptIds) :
    g.wiring.id (g.keptIds.idxOf id) = id := by
  rw [wiring_id hids, List.getElem?_idxOf h, Option.getD_some]

theorem wiring_id_mem {p : ℕ} (hp : p < g.wiring.size) : g.wiring.id p ∈ g.keptIds := by
  rw [wiring_size hids] at hp
  rw [wiring_id hids, List.getElem?_eq_getElem hp, Option.getD_some]
  exact List.getElem_mem hp

/-- The place of the id at a position is that position. -/
theorem idxOf_wiring_id {p : ℕ} (hp : p < g.wiring.size) :
    g.keptIds.idxOf (g.wiring.id p) = p := by
  rw [wiring_size hids] at hp
  rw [wiring_id hids, List.getElem?_eq_getElem hp, Option.getD_some,
    (nodup_keptIds hids).idxOf_getElem]

/-- Different positions hold different nodes. -/
theorem wiring_id_inj {p q : ℕ} (hp : p < g.wiring.size) (hq : q < g.wiring.size)
    (h : g.wiring.id p = g.wiring.id q) : p = q := by
  rw [← idxOf_wiring_id hids hp, h, idxOf_wiring_id hids hq]

/-- The kept nodes by position are the kept nodes by id. -/
theorem wiring_ids : (List.range g.wiring.size).map g.wiring.id = g.keptIds := by
  rw [wiring_size hids]
  refine List.ext_getElem (by simp) fun p hp hp' => ?_
  rw [List.getElem_map, List.getElem_range, wiring_id hids, List.getElem?_eq_getElem hp',
    Option.getD_some]

/-- The nodes at a list of positions have the ids at these positions. -/
theorem map_id_filterMap_node? {route : List ℕ} (hroute : ∀ p ∈ route, p < g.wiring.size) :
    (route.filterMap g.wiring.node?).map (·.id) = route.map g.wiring.id := by
  rw [List.map_filterMap, ← List.filterMap_eq_map]
  refine List.filterMap_congr fun p hp => ?_
  have hp' := hroute p hp
  rw [wiring_size hids] at hp'
  rw [map_id_wiring_node? hids, Function.comp_apply, wiring_id hids,
    List.getElem?_eq_getElem hp', Option.getD_some]

/-- The connections that count, by the positions of their ends. -/
theorem wiring_links :
    (g.links.map fun l => (g.connected.idxOf l.1, g.connected.idxOf l.2)) =
      g.counted.map fun c => (g.keptIds.idxOf c.source, g.keptIds.idxOf c.target) := by
  have hsub : g.keptIds ⊆ g.ids := fun id hid => (mem_keptIds.mp hid).1
  rw [links_eq_map_counted, List.map_map, connected_eq_map_keptIds hids]
  refine List.map_congr_left fun c _ => ?_
  rw [Function.comp_apply, idxOf_map_idxOf hsub, idxOf_map_idxOf hsub]

theorem wiring_feeds {p : ℕ} (hp : p < g.wiring.size) :
    g.wiring.feeds p = (g.targetIds (g.wiring.id p)).map g.keptIds.idxOf := by
  have hfeeds : g.wiring.feeds p =
      ((g.links.map fun l => (g.connected.idxOf l.1, g.connected.idxOf l.2)).filter
        (·.1 == p)).map (·.2) := by
    have hp' : p < g.connected.length := hp
    simp [Wiring.feeds, wiring, hp']
  rw [hfeeds, wiring_links hids, List.filter_map, List.map_map, targetIds, List.map_map]
  refine congrArg _ (List.filter_congr fun c hc => ?_)
  have hsource := source_mem_keptIds hc
  rw [Function.comp_apply, Bool.eq_iff_iff, beq_iff_eq, beq_iff_eq]
  constructor
  · rintro rfl
    exact (wiring_id_idxOf hids hsource).symm
  · intro h
    rw [h, idxOf_wiring_id hids hp]

/-- The targets of a position are the targets of its node. -/
theorem wiring_feeds_ids {p : ℕ} (hp : p < g.wiring.size) :
    (g.wiring.feeds p).map g.wiring.id = g.targetIds (g.wiring.id p) := by
  rw [wiring_feeds hids hp, List.map_map]
  refine (List.map_congr_left fun id hid => ?_).trans (List.map_id _)
  exact wiring_id_idxOf hids (target_mem_keptIds (mem_targetIds.mp hid))

/-- A connection between positions is one between their nodes. -/
theorem wiring_feeds_iff {p q : ℕ} :
    g.wiring.Feeds p q ↔
      p < g.wiring.size ∧ q < g.wiring.size ∧ g.Joins (g.wiring.id p) (g.wiring.id q) := by
  by_cases hp : p < g.wiring.size
  · rw [Wiring.Feeds, wiring_feeds hids hp, List.mem_map]
    constructor
    · rintro ⟨id, hid, rfl⟩
      have hkept := target_mem_keptIds (mem_targetIds.mp hid)
      refine ⟨hp, ?_, ?_⟩
      · rw [wiring_size hids]
        exact List.idxOf_lt_length_of_mem hkept
      · rw [wiring_id_idxOf hids hkept]
        exact mem_targetIds.mp hid
    · rintro ⟨-, hq, hjoins⟩
      exact ⟨_, mem_targetIds.mpr hjoins, idxOf_wiring_id hids hq⟩
  · rw [Wiring.Feeds, wiring_feeds_eq_nil (Nat.le_of_not_lt hp)]
    simp [hp]

/-- What a position feeds is a position. -/
theorem wiring_inRange : g.wiring.InRange :=
  fun _ _ h => ((wiring_feeds_iff hids).mp h).2.1

/-- A position has no inputs exactly when no connection leads to its node. -/
theorem wiring_inputs_eq_zero {p : ℕ} (hp : p < g.wiring.size) :
    g.wiring.inputs p = 0 ↔ ∀ source, ¬ g.Joins source (g.wiring.id p) := by
  have hinputs : g.wiring.inputs p =
      (g.links.map fun l => (g.connected.idxOf l.1, g.connected.idxOf l.2)).countP (·.2 == p) := by
    have hp' : p < g.connected.length := hp
    simp [Wiring.inputs, wiring, hp']
  rw [hinputs, wiring_links hids, List.countP_map, List.countP_eq_zero]
  simp only [Function.comp_apply, beq_iff_eq]
  constructor
  · intro h source hjoins
    exact h _ hjoins (idxOf_wiring_id hids hp)
  · rintro h c hc rfl
    rw [wiring_id_idxOf hids (target_mem_keptIds hc)] at h
    exact h c.source hc

/-- The positions without inputs hold the nodes that no connection leads to. -/
theorem wiring_roots_ids : g.wiring.roots.map g.wiring.id = g.rootIds := by
  rw [rootIds, ← wiring_ids hids, List.filter_map, Wiring.roots]
  refine congrArg _ (List.filter_congr fun p hp => ?_)
  have hroot := wiring_inputs_eq_zero hids (List.mem_range.mp hp)
  rw [Bool.eq_iff_iff, beq_iff_eq, hroot, Function.comp_apply, Bool.not_eq_true',
    List.any_eq_false]
  simp only [beq_iff_eq, Joins]
  exact ⟨fun h c hc htarget => h c.source (htarget ▸ hc), fun h source hc => h _ hc rfl⟩

/-- A path between nodes is a path between their positions. -/
theorem wiring_transGen_iff {p q : ℕ} (hp : p < g.wiring.size) (hq : q < g.wiring.size) :
    TransGen g.wiring.Feeds p q ↔ TransGen g.Joins (g.wiring.id p) (g.wiring.id q) := by
  constructor
  · exact TransGen.lift g.wiring.id (fun _ _ h => ((wiring_feeds_iff hids).mp h).2.2) p q
  -- the way back goes over the places of the ids, which undo the ids of positions only at the ends
  · have hstep : ∀ a b, g.Joins a b → g.wiring.Feeds (g.keptIds.idxOf a) (g.keptIds.idxOf b) := by
      intro a b hab
      have ha := source_mem_keptIds hab
      have hb := target_mem_keptIds hab
      refine (wiring_feeds_iff hids).mpr ?_
      rw [wiring_id_idxOf hids ha, wiring_id_idxOf hids hb, wiring_size hids]
      exact ⟨List.idxOf_lt_length_of_mem ha, List.idxOf_lt_length_of_mem hb, hab⟩
    intro h
    have hback : TransGen g.wiring.Feeds (g.keptIds.idxOf (g.wiring.id p))
        (g.keptIds.idxOf (g.wiring.id q)) := TransGen.lift g.keptIds.idxOf hstep _ _ h
    rwa [idxOf_wiring_id hids hp, idxOf_wiring_id hids hq] at hback

end Wiring

end Patchbay.Graph
