import Mathlib.Algebra.BigOperators.Group.Finset.Piecewise
import Patchbay.Proofs.Wiring.InBounds
import Patchbay.Proofs.Wiring.Wire

/-!
# Wirings encode patches

A wiring is the connected part of its patch and nothing else (`Graph.wire_encodes`): its nodes are
those at an end of a connection that counts, in the order of the patch; each position feeds the
positions of the targets of its node, one for each connection and in their order, and has as many
inputs as there are connections to it.  No table is read where it has no entry, neither when the
wiring is found (`wiring?_eq`) nor when it is walked (`Wiring.InBounds`).
-/

namespace Patchbay.Graph

/-- A wiring holds the connections of a patch that count, and the nodes at their ends. -/
structure Encodes (g : Graph) (w : Wiring) : Prop where
  graph : w.graph = g
  /-- The kept nodes are in the order of the patch. -/
  increasing : w.nodes.Pairwise (· < ·)
  /-- The kept nodes are those at an end of a connection that counts. -/
  mem_nodes : ∀ i, i ∈ w.nodes ↔
    ∃ node, g.nodes[i]? = some node ∧ ∃ c ∈ g.counted, c.source = node.id ∨ c.target = node.id
  length_outgoing : w.outgoing.length = w.nodes.length
  length_incoming : w.incoming.length = w.nodes.length
  /-- An id is at one position. -/
  unique : ∀ p q id, w.id? p = some id → w.id? q = some id → p = q
  inRange : ∀ feeds ∈ w.outgoing, ∀ q ∈ feeds, q < w.nodes.length
  /-- A position feeds the positions of the targets of its node, for each connection that counts. -/
  outgoing : ∀ p id feeds, w.id? p = some id → w.outgoing[p]? = some feeds →
    feeds.map w.id? = ((g.counted.filter (·.source == id)).map (·.target)).map some
  /-- A position has an input for each time that it is fed. -/
  incoming : ∀ p inputs, w.incoming[p]? = some inputs → inputs = w.outgoing.flatten.count p

variable {g : Graph}

/-- Each of the connections that lead to a position is listed with one position. -/
theorem count_flatten_eq_countP {m : ℕ} {links : List (ℕ × ℕ)} (h : ∀ l ∈ links, l.1 < m) (q : ℕ) :
    (table m fun p => (links.filter (·.1 == p)).map (·.2)).flatten.count q
      = links.countP (·.2 == q) := by
  have hentries : (table m fun p => (links.filter (·.1 == p)).map (·.2)).flatten.count q
      = ∑ p ∈ Finset.range m, links.countP fun l => l.2 == q && l.1 == p := by
    rw [List.count_flatten, table, List.map_map]
    refine congrArg List.sum (List.map_congr_left fun p _ => ?_)
    rw [Function.comp_apply, List.count, List.countP_map, List.countP_filter]
    rfl
  -- each connection is in the entry of its source only
  rw [hentries]
  clear hentries
  induction links with
  | nil => simp
  | cons l links ih =>
    obtain ⟨hl, hlinks⟩ := List.forall_mem_cons.mp h
    have hone : ∑ p ∈ Finset.range m, (if l.2 == q && l.1 == p then 1 else 0)
        = if l.2 == q then 1 else 0 := by
      by_cases hq : l.2 = q
      · simp [hq, hl]
      · simp [hq]
    simp only [List.countP_cons, Finset.sum_add_distrib, ih hlinks, hone]

/-- The id at an index is that of the node there. -/
theorem ids_getElem?_eq {i : ℕ} {id : String} :
    g.ids[i]? = some id ↔ ∃ node, g.nodes[i]? = some node ∧ node.id = id := by
  rw [ids, List.getElem?_map, Option.map_eq_some_iff]

/-- What has an id is a position, and the id is the one that the total lookup gives. -/
theorem lt_of_id? {w : Wiring} {p : ℕ} {id : String} (h : w.id? p = some id) :
    p < w.size ∧ w.id p = id := by
  refine ⟨?_, by rw [Wiring.id, ← Wiring.id?, h]; rfl⟩
  obtain ⟨node, hnode, -⟩ := Option.map_eq_some_iff.mp h
  obtain ⟨i, hi, -⟩ := Option.bind_eq_some_iff.mp hnode
  exact (List.getElem?_eq_some_iff.mp hi).1

section

variable (hids : g.ids.Nodup)
include hids

/-- An id that is not used twice is found where it stands. -/
theorem idxOf_ids_eq_iff {i : ℕ} {id : String} (hid : id ∈ g.ids) :
    g.ids.idxOf id = i ↔ g.ids[i]? = some id := by
  constructor
  · rintro rfl
    exact List.getElem?_idxOf hid
  · intro hi
    obtain ⟨hlt, rfl⟩ := List.getElem?_eq_some_iff.mp hi
    exact hids.idxOf_getElem i hlt

/-- A node is connected if its id is at an end of a connection that counts. -/
theorem mem_connected_iff {i : ℕ} : i ∈ g.connected ↔
    ∃ c ∈ g.counted, g.ids[i]? = some c.source ∨ g.ids[i]? = some c.target := by
  rw [mem_connected, links_eq_map_counted]
  simp only [List.mem_map, exists_exists_and_eq_and]
  refine exists_congr fun c => and_congr_right fun hc => ?_
  obtain ⟨-, hsource, htarget⟩ := mem_counted.mp hc
  rw [idxOf_ids_eq_iff hids hsource, idxOf_ids_eq_iff hids htarget]

/-- The tables of a wiring are full. -/
theorem isTabled_wiring : g.wiring.IsTabled where
  length_outgoing := by simp [wiring, Wiring.size]
  length_incoming := by simp [wiring, Wiring.size]
  inRange := wiring_inRange hids
  nodes p hp := by
    have hid := map_id_wiring_node? hids p
    rw [wiring_size hids] at hp
    rw [List.getElem?_eq_getElem hp] at hid
    obtain ⟨node, hnode, -⟩ := Option.map_eq_some_iff.mp hid
    exact ⟨node, hnode⟩
  fed p q h hzero := by
    obtain ⟨-, hq, hjoins⟩ := (wiring_feeds_iff hids).mp h
    exact (wiring_inputs_eq_zero hids hq).mp hzero _ hjoins

/-- The wiring of a patch with distinct ids encodes it. -/
theorem encodes_wiring : g.Encodes g.wiring where
  graph := rfl
  increasing := pairwise_connected g
  mem_nodes i := by
    rw [show g.wiring.nodes = g.connected from rfl, mem_connected_iff hids]
    constructor
    · rintro ⟨c, hc, hi | hi⟩
      · obtain ⟨node, hnode, hid⟩ := ids_getElem?_eq.mp hi
        exact ⟨node, hnode, c, hc, .inl hid.symm⟩
      · obtain ⟨node, hnode, hid⟩ := ids_getElem?_eq.mp hi
        exact ⟨node, hnode, c, hc, .inr hid.symm⟩
    · rintro ⟨node, hnode, c, hc, hid | hid⟩
      · exact ⟨c, hc, .inl (ids_getElem?_eq.mpr ⟨node, hnode, hid.symm⟩)⟩
      · exact ⟨c, hc, .inr (ids_getElem?_eq.mpr ⟨node, hnode, hid.symm⟩)⟩
  length_outgoing := (isTabled_wiring hids).length_outgoing
  length_incoming := (isTabled_wiring hids).length_incoming
  unique p q id hp hq := by
    obtain ⟨hp, hpid⟩ := lt_of_id? hp
    obtain ⟨hq, hqid⟩ := lt_of_id? hq
    exact wiring_id_inj hids hp hq (hpid.trans hqid.symm)
  inRange feeds hfeeds q hq := by
    obtain ⟨p, hp⟩ := List.mem_iff_getElem?.mp hfeeds
    exact wiring_inRange hids p q (by rwa [Wiring.Feeds, Wiring.feeds, hp])
  outgoing p id feeds hid hfeeds := by
    obtain ⟨hp, rfl⟩ := lt_of_id? hid
    have hfeeds : g.wiring.feeds p = feeds := by rw [Wiring.feeds, hfeeds]; rfl
    -- the lookup that can fail agrees with the total one wherever there is a position
    have hids' : feeds.map g.wiring.id? = (feeds.map g.wiring.id).map some := by
      rw [List.map_map]
      refine List.map_congr_left fun q hq => (isTabled_wiring hids).id?_eq ?_
      exact wiring_inRange hids p q (by rwa [Wiring.Feeds, hfeeds])
    rw [hids', ← hfeeds, wiring_feeds_ids hids hp]
    rfl
  incoming p inputs hinputs := by
    have hp : p < g.connected.length := by
      have hlt := (List.getElem?_eq_some_iff.mp hinputs).1
      rwa [(isTabled_wiring hids).length_incoming] at hlt
    have hincoming : g.wiring.incoming
        = table g.connected.length fun p => g.positionLinks.countP (·.2 == p) := rfl
    have houtgoing : g.wiring.outgoing
        = table g.connected.length fun p => (g.positionLinks.filter (·.1 == p)).map (·.2) := rfl
    rw [hincoming, getElem?_table hp] at hinputs
    rw [houtgoing, count_flatten_eq_countP fun l hl => (lt_of_mem_positionLinks hl).1]
    exact (Option.some.inj hinputs).symm

end

/-- **A wiring encodes its patch.**  If a patch is not refused, its wiring is found without reading
a table where it has no entry, holds the connections that count and the nodes at their ends, and is
walked without reading a table where it has no entry. -/
theorem wire_encodes {w : Wiring} (h : g.wire.outcome = .ok w) :
    g.wiring? = some w ∧ g.Encodes w ∧ w.InBounds := by
  obtain ⟨hids, rfl, -⟩ := outcome_wire_eq_ok h
  exact ⟨wiring?_eq g, encodes_wiring hids, (isTabled_wiring hids).inBounds⟩

/-- A patch with a node that is not connected, a connection that leads nowhere, one that is there
twice and one that is entered before another node of its source. -/
def looseEnds : Graph where
  nodes := ["mix", "spare", "kick", "hat"].map fun id => { id := id, type := "voice" }
  connections := [⟨"kick", "mix"⟩, ⟨"hat", "mix"⟩, ⟨"kick", "ghost"⟩, ⟨"kick", "hat"⟩,
    ⟨"kick", "mix"⟩]

/-- Three of four nodes are numbered, and a connection that is there twice is entered twice. -/
theorem wire_encodes_looseEnds :
    ∃ w, looseEnds.wire.outcome = .ok w ∧ w.nodes = [0, 2, 3] ∧
      w.outgoing = [[], [0, 2, 0], [0]] ∧ w.incoming = [3, 0, 1] ∧
      looseEnds.wiring? = some w ∧ looseEnds.Encodes w ∧ w.InBounds :=
  ⟨_, rfl, rfl, rfl, rfl, wire_encodes rfl⟩

end Patchbay.Graph
