import Patchbay.Compile
import Patchbay.Proofs.Wiring.Cover

/-!
# The chains of a patch by ids

Pruning, routes and reports work on positions, and two patches number their nodes differently.
This module says by ids alone what comes out of them, so that patches can be compared.
`Graph.drawnAlong` draws the chains along a cover: it reports the connections that do not count,
reports or refuses the forks of the cover, reports the nodes outside of it, and resolves its lists
of ids.

## Shape of the proof

* `wiring_node?`, `wiring_inputsOf`, `wiring_targets_ids`: what a wiring knows of a position is what
  `Graph.nodeOf?`, `Graph.inputCount` and `Graph.branches` know of the id there;
* `checkForks_wiring`, `chainOf_wiring`, `unmerged_wiring`: the parts of a drawing on both sides;
* `GreedyCover.eq`: the cover is determined by the roots and the targets of a patch;
* `drawn_eq_drawnAlong`: a patch without cycles is drawn along its greedy cover.

What a drawing along a cover reports is said on the way, as a whole (`record_drawnAlong`) and for
each kind of report (`fanOut_mem_record_drawnAlong`, `stranded_mem_record_drawnAlong`,
`unmerged_mem_record_drawnAlong`).
-/

open Relation

namespace Patchbay

/-! ## Steps of a route -/

namespace Wiring

variable {α β : Type}

/-- The first step of a route is from its first element to the next one, if there is one. -/
theorem stepsOf_cons (a : α) (rest : List α) :
    stepsOf (a :: rest) = (a, rest.head?) :: stepsOf rest := by
  cases rest <;> rfl

/-- Each element of a route is paired with the one at the next place. -/
theorem getElem?_stepsOf (route : List α) (k : ℕ) :
    (stepsOf route)[k]? = route[k]?.map fun a => (a, route[k + 1]?) := by
  induction route generalizing k with
  | nil => rfl
  | cons a rest ih =>
    rw [stepsOf_cons]
    cases k with
    | zero => simp [List.head?_eq_getElem?]
    | succ k => simpa using ih k

/-- Steps are renamed with their route. -/
theorem stepsOf_map (f : α → β) (route : List α) :
    stepsOf (route.map f) = (stepsOf route).map (Prod.map f (Option.map f)) := by
  induction route with
  | nil => rfl
  | cons a rest ih => simp [stepsOf_cons, ih]

/-- There is a step from each element of a route. -/
theorem map_fst_stepsOf (route : List α) : (stepsOf route).map Prod.fst = route := by
  induction route with
  | nil => rfl
  | cons a rest ih => rw [stepsOf_cons, List.map_cons, ih]

/-- A step is an element with what stands at the next place. -/
theorem mem_stepsOf_iff {route : List α} {a : α} {next : Option α} :
    (a, next) ∈ stepsOf route ↔ ∃ k, route[k]? = some a ∧ route[k + 1]? = next := by
  rw [List.mem_iff_getElem?]
  refine exists_congr fun k => ?_
  rw [getElem?_stepsOf, Option.map_eq_some_iff]
  constructor
  · rintro ⟨a', hk, heq⟩
    cases heq
    exact ⟨hk, rfl⟩
  · rintro ⟨hk, rfl⟩
    exact ⟨a, hk, rfl⟩

/-- What a step leads to is an element of the route. -/
theorem mem_of_mem_stepsOf {route : List α} {a b : α} (h : (a, some b) ∈ stepsOf route) :
    b ∈ route := by
  obtain ⟨k, -, hk⟩ := mem_stepsOf_iff.mp h
  exact List.mem_of_getElem? hk

/-- Each element of a route has a step. -/
theorem exists_mem_stepsOf {route : List α} {a : α} (h : a ∈ route) :
    ∃ next, (a, next) ∈ stepsOf route := by
  obtain ⟨k, hk⟩ := List.mem_iff_getElem?.mp h
  exact ⟨_, mem_stepsOf_iff.mpr ⟨k, hk, rfl⟩⟩

end Wiring

namespace Graph

/-! ## A patch by ids -/

/-- The node with an id. -/
def nodeOf? (g : Graph) (id : String) : Option Node := g.nodes.find? (·.id == id)

/-- The number of connections that count and lead to a node. -/
def inputCount (g : Graph) (id : String) : ℕ := g.counted.countP (·.target == id)

/-- The targets of a node, each once, in the order of the first connections. -/
def branches (g : Graph) (id : String) : List String := (g.targetIds id).eraseDups

/-- A node feeds two different nodes. -/
def Forks (g : Graph) (id : String) : Prop := ∃ a b, a ≠ b ∧ g.Joins id a ∧ g.Joins id b

/-- The nodes of a cover with several targets, each with the node that follows it. -/
def forksAlong (g : Graph) (cover : List (List String)) : List (String × Option String) :=
  (cover.flatMap Wiring.stepsOf).filter fun s => 1 < (g.branches s.1).length

/-- The report of a fork: the targets that do not follow it are skipped. -/
def forkReport (g : Graph) (fork : String × Option String) : Diagnostic :=
  .fanOut fork.1 fork.2 ((g.branches fork.1).filter (some · != fork.2))

/-- Reports every fork of a cover, or refuses the first one. -/
def checkForksAlong (g : Graph) (policy : FanOutPolicy) (cover : List (List String)) :
    Recorded Diagnostic Unit :=
  match policy, g.forksAlong cover with
  | .warn, forks => .note (forks.map g.forkReport)
  | .reject, [] => pure ()
  | .reject, fork :: _ => .fail (.fanOut fork.1 (g.branches fork.1))

/-- The kept nodes outside a cover. -/
def outside (g : Graph) (cover : List (List String)) : List String :=
  g.keptIds.filter fun id => !cover.flatten.contains id

/-- The chain of the nodes with the given ids. -/
def chainOf (g : Graph) (schema : Schema) (config : Config) (ids : List String) :
    Recorded Diagnostic Chain :=
  Chain.ofNodes schema config (ids.filterMap g.nodeOf?)

/-- A report for each structural step of a chain that several connections lead to. -/
def unmerged (g : Graph) (c : Chain) : List Diagnostic :=
  (c.steps.filter fun s => s.isStructural && decide (1 < g.inputCount s.id)).map fun s =>
    .unmerged s.id (g.inputCount s.id)

/-- The chains along a cover. -/
def chainsAlong (schema : Schema) (config : Config) (g : Graph) (cover : List (List String)) :
    Recorded Diagnostic (List Chain) := do
  g.checkForksAlong config.fanOut cover
  Recorded.note ((g.outside cover).map .stranded)
  cover.mapM (g.chainOf schema config)

/-- The chains along a cover, with all that is said of the patch on the way. -/
def drawnAlong (schema : Schema) (config : Config) (g : Graph) (cover : List (List String)) :
    Recorded Diagnostic (List Chain) := do
  Recorded.note (g.dangling.map fun c => .dangling c.source c.target)
  let chains ← g.chainsAlong schema config cover
  Recorded.note (chains.flatMap g.unmerged)
  pure chains

variable {g : Graph}

/-- With distinct ids a node is the one that its id leads to. -/
theorem nodeOf?_eq_some_iff (hids : g.ids.Nodup) {id : String} {node : Node} :
    g.nodeOf? id = some node ↔ node ∈ g.nodes ∧ node.id = id := by
  constructor
  · intro h
    exact ⟨List.mem_of_find?_eq_some h, by simpa using List.find?_some h⟩
  · rintro ⟨hnode, rfl⟩
    have hfound : (g.nodeOf? node.id).isSome := List.find?_isSome.mpr ⟨node, hnode, by simp⟩
    obtain ⟨found, hfound⟩ := Option.isSome_iff_exists.mp hfound
    have hid : found.id = node.id := by simpa using List.find?_some hfound
    rw [hfound, List.inj_on_of_nodup_map hids (List.mem_of_find?_eq_some hfound) hnode hid]

theorem nodeOf?_eq_none {id : String} (h : id ∉ g.ids) : g.nodeOf? id = none := by
  refine List.find?_eq_none.mpr fun node hnode hid => h ?_
  rw [← (beq_iff_eq.mp hid : node.id = id)]
  exact List.mem_map_of_mem hnode

/-- Nothing is connected from an id without a node. -/
theorem targetIds_eq_nil {id : String} (h : id ∉ g.ids) : g.targetIds id = [] :=
  List.eq_nil_iff_forall_not_mem.mpr fun _ htarget =>
    h (mem_counted.mp (mem_targetIds.mp htarget)).2.1

/-- Nothing is connected to an id without a node. -/
theorem inputCount_eq_zero {id : String} (h : id ∉ g.ids) : g.inputCount id = 0 :=
  List.countP_eq_zero.mpr fun _ hc htarget =>
    h (beq_iff_eq.mp htarget ▸ (mem_counted.mp hc).2.2)

/-- The connections of which one end names no node. -/
theorem dangling_eq_filter (g : Graph) :
    g.dangling =
      g.connections.filter fun c => !(g.ids.contains c.source && g.ids.contains c.target) :=
  List.filter_congr fun c _ => by
    rw [link?_eq]
    cases g.ids.contains c.source && g.ids.contains c.target <;> rfl

/-- The branches of a node are what it is joined to. -/
theorem mem_branches {id target : String} : target ∈ g.branches id ↔ g.Joins id target := by
  rw [branches, List.mem_eraseDups, mem_targetIds]

/-- A node with several distinct targets forks. -/
theorem one_lt_length_branches_iff {id : String} : 1 < (g.branches id).length ↔ g.Forks id := by
  rw [branches, one_lt_length_eraseDups, Forks]
  simp only [mem_targetIds]
  constructor
  · rintro ⟨a, ha, b, hb, hne⟩
    exact ⟨a, b, hne, ha, hb⟩
  · rintro ⟨a, b, hne, ha, hb⟩
    exact ⟨a, ha, b, hb, hne⟩

/-! ## What a drawing depends on -/

/-- Two patches say the same of some ids: what they feed, what feeds them, and which nodes they
are. -/
structure AgreeOn (g g' : Graph) (ids : List String) : Prop where
  branches : ∀ id ∈ ids, g.branches id = g'.branches id
  inputCount : ∀ id ∈ ids, g.inputCount id = g'.inputCount id
  nodeOf? : ∀ id ∈ ids, g.nodeOf? id = g'.nodeOf? id

/-- A step along a cover begins on it. -/
theorem mem_flatten_of_mem_steps {cover : List (List String)} {step : String × Option String}
    (h : step ∈ cover.flatMap Wiring.stepsOf) : step.1 ∈ cover.flatten := by
  obtain ⟨ids, hids, hstep⟩ := List.mem_flatMap.mp h
  refine List.mem_flatten.mpr ⟨ids, hids, ?_⟩
  rw [← Wiring.map_fst_stepsOf ids]
  exact List.mem_map_of_mem hstep

/-- The forks along a cover are at the nodes of the cover that fork. -/
theorem mem_forksAlong_iff {cover : List (List String)} {fork : String × Option String} :
    fork ∈ g.forksAlong cover ↔ fork ∈ cover.flatMap Wiring.stepsOf ∧ g.Forks fork.1 := by
  rw [forksAlong, List.mem_filter, decide_eq_true_eq, one_lt_length_branches_iff]

/-- There are no forks along a cover if no node on it forks. -/
theorem forksAlong_eq_nil_iff {cover : List (List String)} :
    g.forksAlong cover = [] ↔ ∀ id ∈ cover.flatten, ¬ g.Forks id := by
  simp only [List.eq_nil_iff_forall_not_mem, mem_forksAlong_iff, not_and]
  constructor
  · intro h id hid
    obtain ⟨ids, hids, hid⟩ := List.mem_flatten.mp hid
    obtain ⟨next, hstep⟩ := Wiring.exists_mem_stepsOf hid
    exact h (id, next) (List.mem_flatMap.mpr ⟨ids, hids, hstep⟩)
  · intro h step hstep
    exact h step.1 (mem_flatten_of_mem_steps hstep)

/-- The forks along two covers are one behind the other. -/
theorem forksAlong_append (cover cover' : List (List String)) :
    g.forksAlong (cover ++ cover') = g.forksAlong cover ++ g.forksAlong cover' := by
  rw [forksAlong, List.flatMap_append, List.filter_append]
  rfl

section Congruence

variable {g' : Graph} {cover : List (List String)}

/-- Forks depend on the branches of the nodes on the cover alone. -/
theorem forksAlong_congr (h : ∀ id ∈ cover.flatten, g.branches id = g'.branches id) :
    g.forksAlong cover = g'.forksAlong cover :=
  List.filter_congr fun step hstep => by rw [h step.1 (mem_flatten_of_mem_steps hstep)]

theorem map_forkReport_congr (h : ∀ id ∈ cover.flatten, g.branches id = g'.branches id) :
    (g.forksAlong cover).map g.forkReport = (g'.forksAlong cover).map g'.forkReport := by
  rw [forksAlong_congr h]
  refine List.map_congr_left fun fork hfork => ?_
  have hid := mem_flatten_of_mem_steps (List.mem_of_mem_filter hfork)
  rw [forkReport, h fork.1 hid, forkReport]

theorem checkForksAlong_congr (h : ∀ id ∈ cover.flatten, g.branches id = g'.branches id)
    (policy : FanOutPolicy) :
    g.checkForksAlong policy cover = g'.checkForksAlong policy cover := by
  have hreports := map_forkReport_congr h
  unfold checkForksAlong
  rw [forksAlong_congr h] at hreports ⊢
  cases policy with
  | warn => exact congrArg Recorded.note hreports
  | reject =>
    cases hforks : g'.forksAlong cover with
    | nil => rfl
    | cons fork rest =>
      have hfork : fork ∈ g'.forksAlong cover := hforks ▸ List.mem_cons_self
      have hid := mem_flatten_of_mem_steps (List.mem_of_mem_filter hfork)
      simp only [h fork.1 hid]

/-- The chains along a cover depend on the nodes with the ids on it alone. -/
theorem mapM_chainOf_congr (h : ∀ id ∈ cover.flatten, g.nodeOf? id = g'.nodeOf? id)
    (schema : Schema) (config : Config) :
    cover.mapM (g.chainOf schema config) = cover.mapM (g'.chainOf schema config) := by
  refine Recorded.mapM_congr fun ids hids => ?_
  have hnodes : ids.filterMap g.nodeOf? = ids.filterMap g'.nodeOf? :=
    List.filterMap_congr fun id hid => h id (List.mem_flatten_of_mem hids hid)
  rw [chainOf, hnodes, chainOf]

/-- The reports of missing inputs depend on the number of inputs of the steps alone. -/
theorem unmerged_congr {c : Chain} (h : ∀ id ∈ c.ids, g.inputCount id = g'.inputCount id) :
    g.unmerged c = g'.unmerged c := by
  have hstep : ∀ s ∈ c.steps, g.inputCount s.id = g'.inputCount s.id := fun s hs =>
    h s.id (List.mem_map_of_mem hs)
  rw [unmerged, unmerged, List.filter_congr fun s hs => by rw [hstep s hs]]
  exact List.map_congr_left fun s hs => by rw [hstep s (List.mem_of_mem_filter hs)]

end Congruence

/-! ## What a drawing reports -/

section Record

variable {cover : List (List String)} {schema : Schema} {config : Config} {chains : List Chain}

/-- Forks are refused only by the policy for that. -/
theorem outcome_checkForksAlong_eq_ok {policy : FanOutPolicy} :
    (g.checkForksAlong policy cover).outcome = .ok () ↔
      (policy = .reject → g.forksAlong cover = []) := by
  unfold checkForksAlong
  cases policy with
  | warn => simp
  | reject => cases g.forksAlong cover <;> simp

/-- Every fork is reported where forks pass. -/
theorem record_checkForksAlong {policy : FanOutPolicy}
    (h : (g.checkForksAlong policy cover).outcome = .ok ()) :
    (g.checkForksAlong policy cover).record = (g.forksAlong cover).map g.forkReport := by
  have hforks := outcome_checkForksAlong_eq_ok.mp h
  unfold checkForksAlong
  cases policy with
  | warn => rfl
  | reject => rw [hforks rfl, Recorded.record_pure, List.map_nil]

/-- There are chains along a cover if its forks pass and its nodes are resolved. -/
theorem outcome_chainsAlong_eq_ok :
    (g.chainsAlong schema config cover).outcome = .ok chains ↔
      (g.checkForksAlong config.fanOut cover).outcome = .ok () ∧
        (cover.mapM (g.chainOf schema config)).outcome = .ok chains := by
  rw [chainsAlong, Recorded.outcome_bind_eq_ok]
  simp only [Recorded.outcome_note_bind]
  exact ⟨fun ⟨_, hforks, h⟩ => ⟨hforks, h⟩, fun ⟨hforks, h⟩ => ⟨(), hforks, h⟩⟩

/-- Nothing fails once the chains are there. -/
theorem outcome_drawnAlong_iff :
    (g.drawnAlong schema config cover).outcome = .ok chains ↔
      (g.chainsAlong schema config cover).outcome = .ok chains := by
  rw [drawnAlong, Recorded.outcome_note_bind, Recorded.outcome_bind_eq_ok]
  constructor
  · rintro ⟨found, hfound, h⟩
    exact Except.ok.inj h ▸ hfound
  · exact fun h => ⟨chains, h, rfl⟩

/-- A drawing fails only where its chains do. -/
theorem outcome_drawnAlong_eq_ok :
    (g.drawnAlong schema config cover).outcome = .ok chains ↔
      (g.checkForksAlong config.fanOut cover).outcome = .ok () ∧
        (cover.mapM (g.chainOf schema config)).outcome = .ok chains := by
  rw [outcome_drawnAlong_iff, outcome_chainsAlong_eq_ok]

/-- The record of the chains along a cover, part by part. -/
theorem record_chainsAlong (h : (g.chainsAlong schema config cover).outcome = .ok chains) :
    (g.chainsAlong schema config cover).record =
      (g.forksAlong cover).map g.forkReport
        ++ ((g.outside cover).map .stranded ++ (cover.mapM (g.chainOf schema config)).record) := by
  have hforks := (outcome_chainsAlong_eq_ok.mp h).1
  rw [chainsAlong, Recorded.record_bind_of_ok hforks, Recorded.record_note_bind,
    record_checkForksAlong hforks]

/-- A drawing adds to the record of its chains what is said of connections. -/
theorem record_drawnAlong_eq_append
    (h : (g.chainsAlong schema config cover).outcome = .ok chains) :
    (g.drawnAlong schema config cover).record =
      (g.dangling.map fun c => .dangling c.source c.target)
        ++ ((g.chainsAlong schema config cover).record ++ chains.flatMap g.unmerged) := by
  rw [drawnAlong, Recorded.record_note_bind, Recorded.record_bind_of_ok h,
    Recorded.record_note_bind, Recorded.record_pure, List.append_nil]

/-- The record of a drawing, part by part. -/
theorem record_drawnAlong (h : (g.drawnAlong schema config cover).outcome = .ok chains) :
    (g.drawnAlong schema config cover).record =
      (g.dangling.map fun c => .dangling c.source c.target)
        ++ ((g.forksAlong cover).map g.forkReport
          ++ ((g.outside cover).map .stranded
            ++ ((cover.mapM (g.chainOf schema config)).record
              ++ chains.flatMap g.unmerged))) := by
  have hchains := outcome_drawnAlong_iff.mp h
  rw [record_drawnAlong_eq_append hchains, record_chainsAlong hchains]
  simp only [List.append_assoc]

/-- Each report of a drawing is of one of five kinds. -/
theorem mem_record_drawnAlong (h : (g.drawnAlong schema config cover).outcome = .ok chains)
    {d : Diagnostic} :
    d ∈ (g.drawnAlong schema config cover).record ↔
      (∃ c ∈ g.dangling, .dangling c.source c.target = d) ∨
        (∃ fork ∈ g.forksAlong cover, g.forkReport fork = d) ∨
        (∃ id ∈ g.outside cover, .stranded id = d) ∨
        d ∈ (cover.mapM (g.chainOf schema config)).record ∨
        ∃ c ∈ chains, d ∈ g.unmerged c := by
  rw [record_drawnAlong h]
  simp only [List.mem_append, List.mem_map, List.mem_flatMap]

/-- What is reported of chains is about their steps. -/
theorem isOfStep_record_chainOf {d : Diagnostic}
    (h : d ∈ (cover.mapM (g.chainOf schema config)).record) : d.isOfStep := by
  obtain ⟨ids, -, hd⟩ := Recorded.mem_record_mapM h
  exact Chain.isOfStep_record_ofNodes hd

/-- A drawing reports a fork exactly where the cover has one. -/
theorem fanOut_mem_record_drawnAlong
    (h : (g.drawnAlong schema config cover).outcome = .ok chains) {id : String}
    {followed : Option String} {skipped : List String} :
    .fanOut id followed skipped ∈ (g.drawnAlong schema config cover).record ↔
      (id, followed) ∈ g.forksAlong cover ∧
        (g.branches id).filter (some · != followed) = skipped := by
  have hstep : .fanOut id followed skipped ∉ (cover.mapM (g.chainOf schema config)).record :=
    fun hd => Bool.false_ne_true (isOfStep_record_chainOf hd)
  simp only [mem_record_drawnAlong h, hstep, unmerged, forkReport, List.mem_map, reduceCtorEq,
    and_false, exists_false, or_false, false_or, Diagnostic.fanOut.injEq]
  constructor
  · rintro ⟨⟨_, _⟩, hfork, rfl, rfl, hskipped⟩
    exact ⟨hfork, hskipped⟩
  · rintro ⟨hfork, hskipped⟩
    exact ⟨(id, followed), hfork, rfl, rfl, hskipped⟩

/-- A drawing reports as stranded the nodes outside the cover. -/
theorem stranded_mem_record_drawnAlong
    (h : (g.drawnAlong schema config cover).outcome = .ok chains) {id : String} :
    .stranded id ∈ (g.drawnAlong schema config cover).record ↔ id ∈ g.outside cover := by
  have hstep : .stranded id ∉ (cover.mapM (g.chainOf schema config)).record :=
    fun hd => Bool.false_ne_true (isOfStep_record_chainOf hd)
  simp only [mem_record_drawnAlong h, hstep, unmerged, forkReport, List.mem_map, reduceCtorEq,
    and_false, exists_false, or_false, false_or, Diagnostic.stranded.injEq, exists_eq_right]

/-- A drawing reports the structural steps with several inputs. -/
theorem unmerged_mem_record_drawnAlong
    (h : (g.drawnAlong schema config cover).outcome = .ok chains) {id : String} {inputs : ℕ} :
    .unmerged id inputs ∈ (g.drawnAlong schema config cover).record ↔
      (∃ c ∈ chains, ∃ s ∈ c.steps, s.isStructural ∧ s.id = id) ∧
        1 < g.inputCount id ∧ g.inputCount id = inputs := by
  have hstep : .unmerged id inputs ∉ (cover.mapM (g.chainOf schema config)).record :=
    fun hd => Bool.false_ne_true (isOfStep_record_chainOf hd)
  simp only [mem_record_drawnAlong h, hstep, unmerged, forkReport, List.mem_map, List.mem_filter,
    Bool.and_eq_true, decide_eq_true_eq, reduceCtorEq, and_false, exists_false, false_or,
    Diagnostic.unmerged.injEq]
  constructor
  · rintro ⟨c, hc, s, ⟨hs, hstructural, hinputs⟩, rfl, rfl⟩
    exact ⟨⟨c, hc, s, hs, hstructural, rfl⟩, hinputs, rfl⟩
  · rintro ⟨⟨c, hc, s, hs, hstructural, rfl⟩, hinputs, rfl⟩
    exact ⟨c, hc, s, ⟨hs, hstructural, hinputs⟩, rfl, rfl⟩

end Record

/-! ## Lookups by position -/

section Wiring

variable (hids : g.ids.Nodup)
include hids

/-- The node at a position is the one with the id there. -/
theorem wiring_node? {p : ℕ} (hp : p < g.wiring.size) :
    g.wiring.node? p = g.nodeOf? (g.wiring.id p) := by
  have hsome : (g.wiring.node? p).map (·.id) = some (g.wiring.id p) := by
    rw [wiring_size hids] at hp
    rw [map_id_wiring_node? hids, wiring_id hids, List.getElem?_eq_getElem hp, Option.getD_some]
  obtain ⟨node, hnode, hid⟩ := Option.map_eq_some_iff.mp hsome
  obtain ⟨index, -, hindex⟩ := Option.bind_eq_some_iff.mp hnode
  rw [hnode, eq_comm, nodeOf?_eq_some_iff hids]
  exact ⟨List.mem_of_getElem? hindex, hid⟩

theorem wiring_inputs {p : ℕ} (hp : p < g.wiring.size) :
    g.wiring.inputs p = g.inputCount (g.wiring.id p) := by
  have hinputs : g.wiring.inputs p =
      (g.links.map fun l => (g.connected.idxOf l.1, g.connected.idxOf l.2)).countP (·.2 == p) := by
    have hp' : p < g.connected.length := hp
    simp [Wiring.inputs, wiring, hp']
  rw [hinputs, wiring_links hids, List.countP_map, inputCount]
  refine List.countP_congr fun c hc => ?_
  simp only [Function.comp_apply, beq_iff_eq]
  constructor
  · rintro rfl
    exact (wiring_id_idxOf hids (target_mem_keptIds hc)).symm
  · intro h
    rw [h, idxOf_wiring_id hids hp]

/-- No connection leads to a node that is not kept. -/
theorem wiring_inputsOf (id : String) : g.wiring.inputsOf id = g.inputCount id := by
  rw [Wiring.inputsOf]
  cases hfound : (List.range g.wiring.size).find? fun p => g.wiring.id p == id with
  | some p =>
    have hp := List.mem_range.mp (List.mem_of_find?_eq_some hfound)
    have hid : g.wiring.id p = id := by simpa using List.find?_some hfound
    rw [Option.map_some, Option.getD_some, wiring_inputs hids hp, hid]
  | none =>
    rw [Option.map_none, Option.getD_none, eq_comm, inputCount, List.countP_eq_zero]
    intro c hc htarget
    obtain rfl : c.target = id := by simpa using htarget
    have hkept := target_mem_keptIds hc
    have hlt : g.keptIds.idxOf c.target ∈ List.range g.wiring.size := by
      rw [List.mem_range, wiring_size hids]
      exact List.idxOf_lt_length_of_mem hkept
    exact List.find?_eq_none.mp hfound _ hlt (by simp [wiring_id_idxOf hids hkept])

/-- The targets of a position hold the distinct targets of its node. -/
theorem wiring_targets_ids {p : ℕ} (hp : p < g.wiring.size) :
    (g.wiring.targets p).map g.wiring.id = g.branches (g.wiring.id p) := by
  rw [branches, ← wiring_feeds_ids hids hp, eraseDups_map fun q hq r hr => ?_]
  · rfl
  · exact wiring_id_inj hids (wiring_inRange hids p q hq) (wiring_inRange hids p r hr)

/-- The same inputs are missing on both sides. -/
theorem unmerged_wiring (c : Chain) : c.unmerged g.wiring = g.unmerged c := by
  simp only [Chain.unmerged, unmerged, wiring_inputsOf hids]

/-! ## The parts of a drawing -/

/-- A route makes the chain of its ids. -/
theorem chainOf_wiring {route : List ℕ} (hroute : ∀ p ∈ route, p < g.wiring.size)
    (schema : Schema) (config : Config) :
    g.wiring.chainOf schema config route = g.chainOf schema config (route.map g.wiring.id) := by
  have hnodes : route.filterMap g.wiring.node? = (route.map g.wiring.id).filterMap g.nodeOf? := by
    rw [List.filterMap_map]
    exact List.filterMap_congr fun p hp => wiring_node? hids (hroute p hp)
  rw [Wiring.chainOf_eq_ofNodes, hnodes, chainOf]

variable (hacyclic : g.wiring.Acyclic)
include hacyclic

/-- Both ends of a step along the routes are positions. -/
theorem lt_size_of_mem_steps {step : ℕ × Option ℕ}
    (h : step ∈ g.wiring.routes.flatMap Wiring.stepsOf) :
    step.1 < g.wiring.size ∧ ∀ q ∈ step.2, q < g.wiring.size := by
  obtain ⟨route, hroute, hstep⟩ := List.mem_flatMap.mp h
  have hlt : ∀ p ∈ route, p < g.wiring.size := fun _ hp =>
    Wiring.lt_size_of_mem_routes (wiring_inRange hids) hacyclic hroute hp
  obtain ⟨p, next⟩ := step
  refine ⟨hlt p ?_, ?_⟩
  · rw [← Wiring.map_fst_stepsOf route]
    exact List.mem_map_of_mem hstep
  · rintro q rfl
    exact hlt q (Wiring.mem_of_mem_stepsOf hstep)

/-- The forks along the routes are those along their ids. -/
theorem forksAlong_wiring :
    g.forksAlong (g.wiring.routes.map (·.map g.wiring.id)) =
      g.wiring.forks.map (Prod.map g.wiring.id (Option.map g.wiring.id)) := by
  have hsteps : (g.wiring.routes.map (·.map g.wiring.id)).flatMap Wiring.stepsOf =
      (g.wiring.routes.flatMap Wiring.stepsOf).map
        (Prod.map g.wiring.id (Option.map g.wiring.id)) := by
    rw [List.flatMap_map, List.map_flatMap]
    exact List.flatMap_congr fun route _ => Wiring.stepsOf_map g.wiring.id route
  rw [forksAlong, hsteps, List.filter_map, Wiring.forks]
  refine congrArg _ (List.filter_congr fun step hstep => ?_)
  have hp := (lt_size_of_mem_steps hids hacyclic hstep).1
  rw [Function.comp_apply, Prod.map_fst, ← wiring_targets_ids hids hp, List.length_map]

/-- A fork is reported alike on both sides. -/
theorem forkDiagnostic_wiring {step : ℕ × Option ℕ}
    (hstep : step ∈ g.wiring.routes.flatMap Wiring.stepsOf) :
    g.wiring.forkDiagnostic step =
      g.forkReport (Prod.map g.wiring.id (Option.map g.wiring.id) step) := by
  obtain ⟨hp, hnext⟩ := lt_size_of_mem_steps hids hacyclic hstep
  obtain ⟨p, next⟩ := step
  have hskipped : (g.branches (g.wiring.id p)).filter (some · != next.map g.wiring.id) =
      ((g.wiring.targets p).filter (some · != next)).map g.wiring.id := by
    rw [← wiring_targets_ids hids hp, List.filter_map]
    -- the followed target is told from the others by its position or by its id, which is the same
    refine congrArg _ (List.filter_congr fun q hq => ?_)
    have hq' : q < g.wiring.size := wiring_inRange hids p q (List.mem_eraseDups.mp hq)
    rw [Function.comp_apply, Bool.eq_iff_iff, bne_iff_ne, bne_iff_ne]
    cases next with
    | none => simp
    | some r =>
      rw [Option.map_some, Ne, Ne, Option.some_inj, Option.some_inj]
      exact not_congr ⟨wiring_id_inj hids hq' (hnext r rfl), congrArg _⟩
  rw [Wiring.forkDiagnostic, forkReport, Prod.map_fst, Prod.map_snd, hskipped]

/-- Forks pass or are refused alike on both sides. -/
theorem checkForks_wiring (policy : FanOutPolicy) :
    g.wiring.checkForks policy =
      g.checkForksAlong policy (g.wiring.routes.map (·.map g.wiring.id)) := by
  have hmem : ∀ fork ∈ g.wiring.forks, fork ∈ g.wiring.routes.flatMap Wiring.stepsOf :=
    fun _ => List.mem_of_mem_filter
  unfold Wiring.checkForks checkForksAlong
  rw [forksAlong_wiring hids hacyclic]
  cases policy with
  | warn =>
    refine congrArg Recorded.note ?_
    rw [List.map_map]
    refine List.map_congr_left fun fork hfork => ?_
    exact forkDiagnostic_wiring hids hacyclic (hmem fork hfork)
  | reject =>
    cases hforks : g.wiring.forks with
    | nil => rfl
    | cons fork rest =>
      have hfork := hmem fork (hforks ▸ List.mem_cons_self)
      have hp := (lt_size_of_mem_steps hids hacyclic hfork).1
      simp only [List.map_cons, Prod.map_fst, wiring_targets_ids hids hp]

/-- The chains of the routes are those along their ids. -/
theorem chains_wiring (schema : Schema) (config : Config) :
    g.wiring.routes.mapM (g.wiring.chainOf schema config) =
      (g.wiring.routes.map (·.map g.wiring.id)).mapM (g.chainOf schema config) := by
  rw [List.mapM_map]
  refine Recorded.mapM_congr fun route hroute => ?_
  exact chainOf_wiring hids (fun p hp =>
    Wiring.lt_size_of_mem_routes (wiring_inRange hids) hacyclic hroute hp) schema config

end Wiring

end Graph

/-! ## One cover for a patch -/

/-- Lists that begin alike, and in which an element determines the next one alike, are the same. -/
theorem eq_of_successor {α : Type} {next : α → Option α} {l l' : List α}
    (hhead : l.head? = l'.head?) (h : ∀ k a, l[k]? = some a → l[k + 1]? = next a)
    (h' : ∀ k a, l'[k]? = some a → l'[k + 1]? = next a) : l = l' := by
  refine List.ext_getElem? fun k => ?_
  induction k with
  | zero => rw [← List.head?_eq_getElem?, ← List.head?_eq_getElem?, hhead]
  | succ k ih =>
    cases ha : l[k]? with
    | some a => rw [h k a ha, h' k a (ih ▸ ha)]
    | none =>
      have hlen := List.getElem?_eq_none_iff.mp ha
      have hlen' := List.getElem?_eq_none_iff.mp (ih ▸ ha)
      rw [List.getElem?_eq_none (by omega), List.getElem?_eq_none (by omega)]

/-- A node that feeds only one node is followed by it, unless a list before contains that. -/
theorem GreedyCover.successor_of_not_forks {g : Graph} {cover : List (List String)}
    (h : GreedyCover g cover) {i k : ℕ} {chain : List String} {id target : String}
    (hchain : cover[i]? = some chain) (hid : chain[k]? = some id) (hjoins : g.Joins id target)
    (hfork : ¬ g.Forks id) :
    chain[k + 1]? = some target ∧ target ∉ (cover.take i).flatten ∨
      chain[k + 1]? = none ∧ target ∈ (cover.take i).flatten := by
  have honly : ∀ other, g.Joins id other → other = target := fun other hother => by
    by_contra hne
    exact hfork ⟨other, target, hne, hother, hjoins⟩
  rw [h.successor i chain hchain k id hid]
  cases hnext : (g.targetIds id).find? fun t => !(cover.take i).flatten.contains t with
  | some next =>
    obtain rfl := honly next (Graph.mem_targetIds.mp (List.mem_of_find?_eq_some hnext))
    exact .inl ⟨rfl, by simpa using List.find?_some hnext⟩
  | none =>
    have hpassed := List.find?_eq_none.mp hnext target (Graph.mem_targetIds.mpr hjoins)
    exact .inr ⟨rfl, by simpa using hpassed⟩

/-- **The roots and the targets determine the cover.** -/
theorem GreedyCover.eq {g g' : Graph} {cover cover' : List (List String)}
    (h : GreedyCover g cover) (h' : GreedyCover g' cover') (hroots : g.rootIds = g'.rootIds)
    (htargets : ∀ id, g.targetIds id = g'.targetIds id) : cover = cover' := by
  have hheads : cover.map List.head? = cover'.map List.head? := by
    rw [h.heads, h'.heads, hroots]
  refine List.ext_getElem? fun i => ?_
  -- where the lists before the `i`-th agree, the `i`-th ones go on alike
  induction i using Nat.strongRecOn with
  | _ i ih =>
    have hbefore : cover.take i = cover'.take i := by
      refine List.ext_getElem? fun j => ?_
      rw [List.getElem?_take, List.getElem?_take]
      split
      · exact ih j ‹_›
      · rfl
    have hhead : cover[i]?.map List.head? = cover'[i]?.map List.head? := by
      rw [← List.getElem?_map, ← List.getElem?_map, hheads]
    cases hchain : cover[i]? with
    | none =>
      rw [hchain, Option.map_none] at hhead
      exact (Option.map_eq_none_iff.mp hhead.symm).symm
    | some chain =>
      rw [hchain, Option.map_some] at hhead
      obtain ⟨chain', hchain', heads⟩ := Option.map_eq_some_iff.mp hhead.symm
      have hnext := h.successor i chain hchain
      have hnext' := h'.successor i chain' hchain'
      simp only [← htargets, ← hbefore] at hnext'
      rw [hchain', eq_of_successor heads.symm hnext hnext']

namespace Graph

variable {g : Graph}

/-! ## Drawing a patch -/

/-- Without a cycle of nodes the search names no position. -/
theorem cycle?_eq_none (hids : g.ids.Nodup) (hacyclic : ¬ ∃ id, TransGen g.Joins id id) :
    g.wiring.cycle? = none := by
  cases hcycle : g.wiring.cycle? with
  | none => rfl
  | some p => exact absurd ⟨_, transGen_joins_of_cycle? hids hcycle⟩ hacyclic

/-- Without a cycle of nodes there is none of positions. -/
theorem acyclic_wiring (hids : g.ids.Nodup) (hacyclic : ¬ ∃ id, TransGen g.Joins id id) :
    g.wiring.Acyclic :=
  Wiring.acyclic_of_cycle?_eq_none (wiring_inRange hids) (cycle?_eq_none hids hacyclic)

/-- A patch without cycles has its wiring, and reports the connections that do not count. -/
theorem wire_eq (hids : g.ids.Nodup) (hacyclic : ¬ ∃ id, TransGen g.Joins id id) :
    g.wire = Recorded.note (g.dangling.map fun c => .dangling c.source c.target) >>=
      fun _ => pure g.wiring := by
  have hnone : firstRepeated [] g.ids = none := firstRepeated_eq_none_iff.mpr ⟨hids, by simp⟩
  rw [wire, hnone, cycle?_eq_none hids hacyclic]

/-- A patch without cycles has a greedy cover. -/
theorem exists_greedyCover (hids : g.ids.Nodup) (hacyclic : ¬ ∃ id, TransGen g.Joins id id) :
    ∃ cover, GreedyCover g cover :=
  ⟨_, routes_greedyCover hids (acyclic_wiring hids hacyclic)⟩

section Drawing

variable (hids : g.ids.Nodup) (hacyclic : ¬ ∃ id, TransGen g.Joins id id)
  {cover : List (List String)} (hcover : GreedyCover g cover) (schema : Schema) (config : Config)
include hids hacyclic hcover

/-- The chains of a wiring are found along the greedy cover of its patch. -/
theorem chains_eq_chainsAlong :
    g.wiring.chains schema config = g.chainsAlong schema config cover := by
  have hwiring := acyclic_wiring hids hacyclic
  -- the ids of the routes are a greedy cover, and there is no other
  obtain rfl := hcover.eq (routes_greedyCover hids hwiring) rfl fun _ => rfl
  have hstranded : (g.wiring.stranded.map fun p => Diagnostic.stranded (g.wiring.id p)) =
      (g.outside (g.wiring.routes.map (·.map g.wiring.id))).map .stranded := by
    rw [outside, ← stranded_ids hids hwiring, List.map_map]
    rfl
  rw [Wiring.chains, checkForks_wiring hids hwiring, chains_wiring hids hwiring, hstranded,
    chainsAlong]

/-- **A patch is drawn along its greedy cover.** -/
theorem drawn_eq_drawnAlong : g.drawn schema config = g.drawnAlong schema config cover := by
  have hunmerged : Chain.unmerged g.wiring = g.unmerged := funext (unmerged_wiring hids)
  rw [drawn, wire_eq hids hacyclic, bind_assoc]
  simp only [pure_bind]
  rw [chains_eq_chainsAlong hids hacyclic hcover, hunmerged, drawnAlong]

end Drawing

/-- The chains of a patch are those of its wiring. -/
theorem outcome_drawn_eq_ok {schema : Schema} {config : Config} {chains : List Chain} :
    (g.drawn schema config).outcome = .ok chains ↔
      ∃ w, g.wire.outcome = .ok w ∧ (w.chains schema config).outcome = .ok chains := by
  rw [drawn, Recorded.outcome_bind_eq_ok]
  refine exists_congr fun w => and_congr_right fun _ => ?_
  rw [Recorded.outcome_bind_eq_ok]
  constructor
  · rintro ⟨found, hfound, h⟩
    rw [Recorded.outcome_note_bind] at h
    exact Except.ok.inj h ▸ hfound
  · exact fun h => ⟨chains, h, rfl⟩

/-- A patch whose chains are found has distinct ids and no cycle, its chains cover it greedily, and
it is drawn along them. -/
theorem drawn_along_ids {schema : Schema} {config : Config} {chains : List Chain}
    (h : (g.drawn schema config).outcome = .ok chains) :
    g.ids.Nodup ∧ (¬ ∃ id, TransGen g.Joins id id) ∧ GreedyCover g (chains.map Chain.ids) ∧
      g.drawn schema config = g.drawnAlong schema config (chains.map Chain.ids) := by
  obtain ⟨w, hwire, hchains⟩ := outcome_drawn_eq_ok.mp h
  have hcover := ids_greedyCover hwire hchains
  obtain ⟨hids, -, hwiring⟩ := outcome_wire_eq_ok hwire
  have hacyclic : ¬ ∃ id, TransGen g.Joins id id := fun ⟨_, hcycle⟩ =>
    not_acyclic_of_transGen_joins hids hcycle hwiring
  exact ⟨hids, hacyclic, hcover, drawn_eq_drawnAlong hids hacyclic hcover schema config⟩

end Graph

end Patchbay
