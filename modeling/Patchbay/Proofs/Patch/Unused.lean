import Patchbay.Proofs.Compile
import Patchbay.Proofs.Wiring.SameWires

/-!
# What a patch does not use

A compilation reads the pattern properties and the types of the nodes on the routes and of no
others.  `compile_of_sameUse` says so of two patches that agree there: whatever their other nodes
hold, the results are equal.  `compile_connectedPart` deletes the nodes and connections that are not
part of the wiring: nothing changes but the reports of the connections that are gone.

## Shape of the proof

* in either case the two patches have the same wires (`SameWires`), so they are refused for the same
  cycle or drawn along one cover;
* the lists of the cover are resolved alike if the nodes on it are (`chainOf_congr`);
* with equal ids and connections the drawings are then equal (`SameUse.drawnAlong_eq`), and with the
  unused part deleted they differ in what is said of connections that do not count
  (`drawnAlong_connectedPart`).
-/

open Relation

namespace Patchbay

/-- The connection that a diagnostic reports as not counting, if it is of that kind. -/
def Diagnostic.dangling? : Diagnostic → Option Connection
  | .dangling source target => some ⟨source, target⟩
  | _ => none

/-- A report about a step is about no connection. -/
theorem Diagnostic.dangling?_of_isOfStep {d : Diagnostic} (h : d.isOfStep) :
    d.dangling? = none := by
  cases d <;> first | rfl | exact absurd h Bool.false_ne_true

/-- Of the properties of a node only those under the pattern key are read. -/
theorem Step.resolve_congr {schema : Schema} {key : String} {node node' : Node}
    (hid : node.id = node'.id) (htype : node.type = node'.type)
    (hproperties : node.properties.get? key = node'.properties.get? key) :
    resolve schema key node = resolve schema key node' := by
  simp only [resolve, Node.patternProperties, Node.propertiesOf, hid, htype, hproperties]

/-- Nodes that are resolved alike make the same chain. -/
theorem Chain.ofNodes_congr {schema : Schema} {config : Config} {nodes nodes' : List Node}
    (h : nodes.map (Step.resolve schema config.patternKey) =
      nodes'.map (Step.resolve schema config.patternKey)) :
    ofNodes schema config nodes = ofNodes schema config nodes' := by
  have hmapM : ∀ nodes : List Node, nodes.mapM (Step.resolve schema config.patternKey) =
      (nodes.map (Step.resolve schema config.patternKey)).mapM id := fun nodes => by
    rw [List.mapM_map]
    rfl
  rw [ofNodes, ofNodes, hmapM, h, ← hmapM]

namespace Graph

variable {g g' : Graph} {schema : Schema} {config : Config}

/-- The same ids make the same chain if their nodes are resolved alike. -/
theorem chainOf_congr {ids : List String}
    (h : ∀ id ∈ ids, (g.nodeOf? id).map (Step.resolve schema config.patternKey) =
      (g'.nodeOf? id).map (Step.resolve schema config.patternKey)) :
    g.chainOf schema config ids = g'.chainOf schema config ids := by
  refine Chain.ofNodes_congr ?_
  rw [List.map_filterMap, List.map_filterMap]
  exact List.filterMap_congr h

/-- An id names one of the nodes and leads to it. -/
theorem exists_nodeOf? (hids : g.ids.Nodup) {id : String} (h : id ∈ g.ids) :
    ∃ node ∈ g.nodes, node.id = id ∧ g.nodeOf? id = some node := by
  obtain ⟨node, hnode, hid⟩ := List.mem_map.mp h
  exact ⟨node, hnode, hid, (nodeOf?_eq_some_iff hids).mpr ⟨hnode, hid⟩⟩

/-- What is compiled depends on a patch through its drawing alone. -/
theorem compile_of_drawn_eq (h : g.drawn schema config = g'.drawn schema config) :
    g.compile schema config = g'.compile schema config := by
  rw [compile, h, compile]

/-! ## Nodes that are not placed -/

/-- A node has a place in a chain: the patch has a wiring, the forks of that pass, and one of the
routes reaches the node. -/
def Placed (config : Config) (g : Graph) (id : String) : Prop :=
  ∃ w, g.wire.outcome = .ok w ∧ (w.checkForks config.fanOut).outcome = .ok () ∧
    ∃ route ∈ w.routes, ∃ p ∈ route, w.id p = id

/-- Two patches with the same ids and connections, in which the nodes with a place in a chain have
the same type and the same pattern properties.  Their other nodes and properties may be any. -/
structure SameUse (config : Config) (g g' : Graph) : Prop where
  ids : g.ids = g'.ids
  connections : g.connections = g'.connections
  placed : ∀ node ∈ g.nodes, ∀ node' ∈ g'.nodes, node.id = node'.id → g.Placed config node.id →
    node.type = node'.type ∧
      node.properties.get? config.patternKey = node'.properties.get? config.patternKey

/-- The nodes of a cover are placed, unless a fork of it is refused. -/
theorem placed_of_mem_cover (hids : g.ids.Nodup) (hacyclic : ¬ ∃ id, TransGen g.Joins id id)
    {cover : List (List String)} (hcover : GreedyCover g cover)
    (hforks : (g.checkForksAlong config.fanOut cover).outcome = .ok ()) {id : String}
    (hid : id ∈ cover.flatten) : g.Placed config id := by
  have hwiring := acyclic_wiring hids hacyclic
  -- the cover is the one that the walk finds
  obtain rfl := hcover.eq (routes_greedyCover hids hwiring) rfl fun _ => rfl
  have hwire : g.wire.outcome = .ok g.wiring := by
    rw [outcome_wire_of_nodup hids, cycle?_eq_none hids hacyclic]
  rw [← checkForks_wiring hids hwiring] at hforks
  rw [← List.map_flatten] at hid
  obtain ⟨p, hp, rfl⟩ := List.mem_map.mp hid
  obtain ⟨route, hroute, hp⟩ := List.mem_flatten.mp hp
  exact ⟨g.wiring, hwire, hforks, route, hroute, p, hp, rfl⟩

namespace SameUse

variable (h : SameUse config g g')
include h

/-- The wiring depends on ids and connections alone. -/
theorem sameWires : g.SameWires g' := by
  have hcounted : g.counted = g'.counted := by rw [counted, h.ids, h.connections, counted]
  exact ⟨by rw [keptIds, h.ids, hcounted, keptIds], hcounted⟩

theorem dangling_eq : g.dangling = g'.dangling := by
  rw [dangling_eq_filter, h.ids, h.connections, dangling_eq_filter]

/-- Nodes that are placed are resolved alike. -/
theorem resolve_eq (hids : g.ids.Nodup) {id : String} (hid : id ∈ g.ids)
    (hplaced : g.Placed config id) :
    (g.nodeOf? id).map (Step.resolve schema config.patternKey) =
      (g'.nodeOf? id).map (Step.resolve schema config.patternKey) := by
  obtain ⟨node, hnode, rfl, hfound⟩ := exists_nodeOf? hids hid
  obtain ⟨node', hnode', hsame, hfound'⟩ := exists_nodeOf? (h.ids ▸ hids) (h.ids ▸ hid)
  obtain ⟨htype, hproperties⟩ := h.placed node hnode node' hnode' hsame.symm hplaced
  rw [hfound, hfound', Option.map_some, Option.map_some,
    Step.resolve_congr hsame.symm htype hproperties]

/-- Without cycles, the two patches are drawn alike. -/
theorem drawnAlong_eq (hids : g.ids.Nodup) (hacyclic : ¬ ∃ id, TransGen g.Joins id id)
    {cover : List (List String)} (hcover : GreedyCover g cover) :
    g.drawnAlong schema config cover = g'.drawnAlong schema config cover := by
  have hchains : g.chainsAlong schema config cover = g'.chainsAlong schema config cover := by
    refine h.sameWires.chainsAlong_eq fun hforks ids hmem => chainOf_congr fun id hid => ?_
    have hid := List.mem_flatten_of_mem hmem hid
    exact h.resolve_eq hids (mem_keptIds.mp (hcover.kept id hid)).1
      (placed_of_mem_cover hids hacyclic hcover hforks hid)
  rw [drawnAlong, h.dangling_eq, hchains, h.sameWires.unmerged_eq, drawnAlong]

end SameUse

/-- **The unused parts of a patch have no influence.**  Patches that agree on their ids, their
connections and the nodes with a place in a chain have equal results: the same failure, or the same
code, chains, applied rules and diagnostics. -/
theorem compile_of_sameUse (schema : Schema) {config : Config} {g g' : Graph}
    (h : SameUse config g g') : g.compile schema config = g'.compile schema config := by
  cases hrepeat : firstRepeated [] g.ids with
  | some id =>
    -- repeated ids are refused before anything else is looked at
    have hrefused : ∀ {g : Graph}, firstRepeated [] g.ids = some id →
        g.compile schema config = .error (.duplicate id) := fun hrepeat =>
      compile_of_drawn_error (by rw [drawn, wire_of_repeated hrepeat]; rfl)
    rw [hrefused hrepeat, hrefused (h.ids ▸ hrepeat)]
  | none =>
    have hids := (firstRepeated_eq_none_iff.mp hrepeat).1
    rcases h.sameWires.cyclic_or_covered hids (h.ids ▸ hids) schema config with
      ⟨id, hcycle, hcycle'⟩ | ⟨hacyclic, cover, hcover, hdrawn, hdrawn'⟩
    · rw [compile_of_drawn_error hcycle, compile_of_drawn_error hcycle']
    · apply compile_of_drawn_eq
      rw [hdrawn, hdrawn', h.drawnAlong_eq hids hacyclic hcover]

/-- A fork, of which only the first target is in a chain, and an unconnected node.  The type and the
properties of the two nodes without a place are left open, and so is the color of the source. -/
def leftoverPatch (color : Json) (type : String) (properties : Dictionary Json) : Graph where
  nodes := [
    { id := "kick", type := "drums",
      properties := ⟨[("color", color), (Node.standardKey, .object [("s", .text "bd")])],
        List.pairwise_pair.mpr (show "color" < "pattern" by decide)⟩ },
    ({ id := "loud", type := "gain" } : Node).setProperty "gain" (.integer 3),
    ⟨"side", type, properties⟩,
    ⟨"spare", type, properties⟩]
  connections := [⟨"kick", "loud"⟩, ⟨"kick", "side"⟩]

/-- The ids are distinct, whatever is left open. -/
theorem nodup_ids_leftoverPatch (color : Json) (type : String) (properties : Dictionary Json) :
    (leftoverPatch color type properties).ids.Nodup :=
  (by decide : ["kick", "loud", "side", "spare"].Nodup)

/-- Only the source and the first target are placed. -/
theorem placed_leftoverPatch {id : String}
    (h : (leftoverPatch .null "gain" .empty).Placed config id) : id = "kick" ∨ id = "loud" := by
  have hroutes : (leftoverPatch .null "gain" .empty).wiring.routes = [[0, 1]] := by decide +kernel
  obtain ⟨w, hw, -, route, hroute, p, hp, rfl⟩ := h
  obtain rfl := (outcome_wire_eq_ok hw).2.1
  rw [hroutes, List.mem_singleton] at hroute
  subst hroute
  rcases List.mem_pair.mp hp with rfl | rfl
  · exact .inl rfl
  · exact .inr rfl

/-- What is left open is not used. -/
theorem sameUse_leftoverPatch (color : Json) (type : String) (properties : Dictionary Json) :
    SameUse .standard (leftoverPatch .null "gain" .empty)
      (leftoverPatch color type properties) where
  ids := rfl
  connections := rfl
  placed := by
    intro node hnode node' hnode' hid hplaced
    have hfound := (nodeOf?_eq_some_iff (nodup_ids_leftoverPatch _ _ _)).mpr ⟨hnode, rfl⟩
    have hfound' := (nodeOf?_eq_some_iff (nodup_ids_leftoverPatch _ _ _)).mpr ⟨hnode', hid.symm⟩
    -- the nodes with a place are written out in both patches, so they are the same
    rcases placed_leftoverPatch hplaced with hkick | hloud
    · rw [hkick] at hfound hfound'
      obtain rfl := Option.some.inj (hfound : some _ = some node)
      obtain rfl := Option.some.inj (hfound' : some _ = some node')
      exact ⟨rfl, rfl⟩
    · rw [hloud] at hfound hfound'
      obtain rfl := Option.some.inj (hfound : some _ = some node)
      obtain rfl := Option.some.inj (hfound' : some _ = some node')
      exact ⟨rfl, rfl⟩

/-- The two nodes without a place are gains, or their properties cannot be read. -/
theorem compile_of_sameUse_leftoverPatch :
    SameUse .standard (leftoverPatch .null "gain" .empty)
        (leftoverPatch (.bool true) "ghost" (.ofList [(Node.standardKey, .text "rev")])) ∧
      ∃ c, (leftoverPatch .null "gain" .empty).compile wrappedSchema .standard = .ok c ∧
        c.code = "drums(\"bd\").gain(3)" ∧ c.diagnostics.length = 2 ∧
        (leftoverPatch (.bool true) "ghost" (.ofList [(Node.standardKey, .text "rev")])).compile
          wrappedSchema .standard = .ok c := by
  have hsame := sameUse_leftoverPatch (.bool true) "ghost"
    (.ofList [(Node.standardKey, .text "rev")])
  exact ⟨hsame, _, rfl, by decide +kernel, by decide +kernel,
    (compile_of_sameUse wrappedSchema hsame).symm⟩

/-! ## Nodes and connections outside the wiring -/

/-- The patch without the nodes that no connection leads from or to and without the connections of
which an end names no node. -/
def connectedPart (g : Graph) : Graph where
  nodes := g.nodes.filter fun node =>
    g.counted.any fun c => c.source == node.id || c.target == node.id
  connections := g.counted

/-- The nodes of the connected part are the kept ones. -/
theorem ids_connectedPart : g.connectedPart.ids = g.keptIds := by
  rw [keptIds, ids, ids, List.filter_map]
  rfl

theorem counted_connectedPart : g.connectedPart.counted = g.counted := by
  refine List.filter_eq_self.mpr fun c hc => ?_
  rw [ids_connectedPart, Bool.and_eq_true, List.contains_iff_mem, List.contains_iff_mem]
  exact ⟨source_mem_keptIds hc, target_mem_keptIds hc⟩

theorem keptIds_connectedPart : g.connectedPart.keptIds = g.keptIds := by
  rw [keptIds, ids_connectedPart, counted_connectedPart]
  refine List.filter_eq_self.mpr fun id hid => ?_
  exact (List.mem_filter.mp hid).2

theorem dangling_connectedPart : g.connectedPart.dangling = [] := by
  rw [dangling_eq_filter, List.filter_eq_nil_iff, ids_connectedPart]
  intro c hc
  have hc : c ∈ g.counted := hc
  simp [source_mem_keptIds hc, target_mem_keptIds hc]

/-- The connected part has the wires of the patch. -/
theorem sameWires_connectedPart : g.SameWires g.connectedPart :=
  ⟨keptIds_connectedPart.symm, counted_connectedPart.symm⟩

/-- A kept node stays the node with its id. -/
theorem nodeOf?_connectedPart {id : String} (h : id ∈ g.keptIds) :
    g.connectedPart.nodeOf? id = g.nodeOf? id := by
  rw [nodeOf?, connectedPart, List.find?_filter]
  refine List.find?_congr fun node _ => ?_
  -- deleting nodes can only hide a node by another id
  by_cases hid : node.id = id
  · subst hid
    simpa using (List.mem_filter.mp h).2
  · simp [hid]

section Drawing

variable {cover : List (List String)} {chains : List Chain}

/-- Along a cover, the drawing of the connected part is that of the patch without the reports of
connections that do not count. -/
theorem drawnAlong_connectedPart (schema : Schema) (config : Config)
    (hcover : GreedyCover g cover) :
    (g.connectedPart.drawnAlong schema config cover).outcome =
        (g.drawnAlong schema config cover).outcome ∧
      (g.drawnAlong schema config cover).record =
        (g.dangling.map fun c => .dangling c.source c.target)
          ++ (g.connectedPart.drawnAlong schema config cover).record := by
  have hsame := sameWires_connectedPart (g := g)
  have hchains : g.chainsAlong schema config cover =
      g.connectedPart.chainsAlong schema config cover := by
    refine hsame.chainsAlong_eq fun _ ids hmem => chainOf_congr fun id hid => ?_
    rw [nodeOf?_connectedPart (hcover.kept id (List.mem_flatten_of_mem hmem hid))]
  rw [drawnAlong, drawnAlong, hchains, hsame.unmerged_eq, dangling_connectedPart]
  exact ⟨rfl, rfl⟩

/-- No report of a connected part is about a connection that does not count. -/
theorem dangling?_of_mem_connectedPart
    (h : (g.connectedPart.drawnAlong schema config cover).outcome = .ok chains) {d : Diagnostic}
    (hd : d ∈ (g.connectedPart.drawnAlong schema config cover).record) : d.dangling? = none := by
  -- one case for each kind of report, of which the first does not occur
  rcases (mem_record_drawnAlong h).mp hd with
    ⟨c, hc, rfl⟩ | ⟨fork, -, rfl⟩ | ⟨id, -, rfl⟩ | hstep | ⟨c, -, hunmerged⟩
  · rw [dangling_connectedPart] at hc
    exact absurd hc List.not_mem_nil
  · rfl
  · rfl
  · exact Diagnostic.dangling?_of_isOfStep (isOfStep_record_chainOf hstep)
  · obtain ⟨s, -, rfl⟩ := List.mem_map.mp hunmerged
    rfl

/-- The reports of connections that do not count come first, one for each. -/
theorem dangling?_record_drawnAlong (hcover : GreedyCover g cover)
    (h : (g.drawnAlong schema config cover).outcome = .ok chains) :
    (g.drawnAlong schema config cover).record.filterMap Diagnostic.dangling? = g.dangling ∧
      (g.drawnAlong schema config cover).record.filter (·.dangling?.isNone) =
        (g.connectedPart.drawnAlong schema config cover).record := by
  obtain ⟨houtcome, hrecord⟩ := drawnAlong_connectedPart schema config hcover
  have hquiet : ∀ d ∈ (g.connectedPart.drawnAlong schema config cover).record,
      d.dangling? = none := fun d => dangling?_of_mem_connectedPart (houtcome.trans h)
  rw [hrecord, List.filterMap_append, List.filter_append]
  constructor
  · rw [List.filterMap_eq_nil_iff.mpr hquiet, List.append_nil, List.filterMap_map]
    exact List.filterMap_some
  · have hreports : (g.dangling.map fun c => Diagnostic.dangling c.source c.target).filter
        (·.dangling?.isNone) = [] := by
      rw [List.filter_map, List.map_eq_nil_iff]
      exact List.filter_eq_nil_iff.mpr fun _ _ => Bool.false_ne_true
    rw [hreports, List.nil_append, List.filter_eq_self.mpr fun d hd => by rw [hquiet d hd]; rfl]

end Drawing

end Graph

/-- A compiled patch without the reports of connections that do not count. -/
def Compiled.withoutDangling (c : Compiled) : Compiled :=
  { c with diagnostics := c.diagnostics.filter (·.dangling?.isNone) }

namespace Graph

/-- **Unconnected nodes and dangling connections are inert.**  Without them a patch with distinct
ids has the same failure, or the same result without the reports of the dangling connections, and
these are reported in their order. -/
theorem compile_connectedPart {g : Graph} (hids : g.ids.Nodup) (schema : Schema)
    (config : Config) :
    g.connectedPart.compile schema config =
        (g.compile schema config).map Compiled.withoutDangling ∧
      ∀ c, g.compile schema config = .ok c →
        c.diagnostics.filterMap Diagnostic.dangling? =
          g.connections.filter fun c => !(g.ids.contains c.source && g.ids.contains c.target) := by
  have hids' : g.connectedPart.ids.Nodup := ids_connectedPart ▸ nodup_keptIds hids
  rcases sameWires_connectedPart.cyclic_or_covered hids hids' schema config with
    ⟨id, hcycle, hcycle'⟩ | ⟨-, cover, hcover, hdrawn, hdrawn'⟩
  · rw [compile_of_drawn_error hcycle, compile_of_drawn_error hcycle']
    exact ⟨rfl, fun _ h => absurd h (by simp)⟩
  obtain ⟨houtcome, -⟩ := drawnAlong_connectedPart schema config hcover
  cases hchains : (g.drawnAlong schema config cover).outcome with
  | error e =>
    have hresult : g.compile schema config = .error e :=
      compile_of_drawn_error (hdrawn ▸ hchains)
    have hresult' : g.connectedPart.compile schema config = .error e :=
      compile_of_drawn_error (hdrawn' ▸ houtcome.trans hchains)
    rw [hresult, hresult']
    exact ⟨rfl, fun _ h => absurd h (by simp)⟩
  | ok chains =>
    obtain ⟨hreports, hrest⟩ := dangling?_record_drawnAlong hcover hchains
    have hfound : (g.drawn schema config).outcome = .ok chains := hdrawn ▸ hchains
    have hfound' : (g.connectedPart.drawn schema config).outcome = .ok chains :=
      hdrawn' ▸ houtcome.trans hchains
    rw [compile_of_drawn_ok hfound, compile_of_drawn_ok hfound', hdrawn, hdrawn']
    cases (folded config chains).outcome with
    | error e => exact ⟨rfl, fun _ h => absurd h (by simp)⟩
    | ok arrangements =>
      refine ⟨?_, fun c hc => ?_⟩
      · rw [← hrest]
        rfl
      · obtain rfl := Except.ok.inj hc
        rw [← dangling_eq_filter]
        exact hreports

/-- An unconnected node, and one with no connection but into nothing. -/
def loosePatch : Graph where
  nodes := ["lone", "kick", "spare", "loud"].map fun id => { id := id, type := "voice" }
  connections := [⟨"lone", "ghost"⟩, ⟨"kick", "loud"⟩, ⟨"ghost", "kick"⟩]

/-- Five reports are made of the patch, two of which are about connections into nothing. -/
theorem compile_connectedPart_loosePatch :
    loosePatch.ids.Nodup ∧ loosePatch.connectedPart.ids = ["kick", "loud"] ∧
      ∃ c, loosePatch.compile {} .standard = .ok c ∧ c.diagnostics.length = 5 ∧
        loosePatch.connectedPart.compile {} .standard = .ok c.withoutDangling ∧
        c.diagnostics.filterMap Diagnostic.dangling? = [⟨"lone", "ghost"⟩, ⟨"ghost", "kick"⟩] := by
  have hids : loosePatch.ids.Nodup := by decide
  obtain ⟨hpart, hreports⟩ := compile_connectedPart hids {} .standard
  exact ⟨hids, rfl, _, rfl, rfl, hpart, hreports _ rfl⟩

end Graph

end Patchbay
