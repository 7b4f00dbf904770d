import Patchbay.Proofs.Patch.Unreadable
import Patchbay.Wiring.Route

/-!
# From routes to chains

`Wiring.chains` turns each route into a chain of the same nodes.  This module takes its outcome
and its record apart: which routes the chains come from (`outcome_chains_eq_ok`), what a step of a
chain keeps of its node (`outcome_resolve`), that resolving nodes fails with the first of their
properties that cannot be read (`failsFirst_ofNodes`) and reports nothing but facts about single
steps (`isOfStep_record_ofNodes`), and which nodes are reported as stranded
(`stranded_record_chains`).
-/

namespace Patchbay

/-- The node that a diagnostic reports as stranded, if it is of that kind. -/
def Diagnostic.stranded? : Diagnostic → Option String
  | .stranded node => some node
  | _ => none

/-- A diagnostic about a node as a step of its chain: its unknown type, or its place at the head. -/
def Diagnostic.isOfStep : Diagnostic → Bool
  | .unknownType .. | .headNotSource .. | .headProperties .. => true
  | _ => false

/-- A report about a step is not that a node is stranded. -/
theorem Diagnostic.stranded?_of_isOfStep {d : Diagnostic} (h : d.isOfStep) :
    d.stranded? = none := by
  cases d <;> first | rfl | exact absurd h Bool.false_ne_true

/-! ## Steps and nodes -/

/-- A step has the id and the pattern properties of its node and is not made by a fold. -/
theorem Step.outcome_resolve {schema : Schema} {key : String} {node : Node} {s : Step}
    (h : (Step.resolve schema key node).outcome = .ok s) :
    s.id = node.id ∧ s.synthetic = false ∧ node.patternProperties key = .ok s.properties := by
  obtain ⟨properties, hproperties, h⟩ := Recorded.outcome_bind_eq_ok.mp h
  rw [Recorded.outcome_ofExcept] at hproperties
  cases htype : schema.get? node.type with
  | some type =>
    rw [htype] at h
    obtain rfl := Except.ok.inj h
    exact ⟨rfl, rfl, hproperties⟩
  | none =>
    rw [htype] at h
    obtain rfl := Except.ok.inj h
    exact ⟨rfl, rfl, hproperties⟩

/-- All that a node reports is that its type is unknown. -/
theorem Step.isOfStep_record_resolve {schema : Schema} {key : String} {node : Node}
    {d : Diagnostic} (h : d ∈ (Step.resolve schema key node).record) : d.isOfStep := by
  unfold Step.resolve at h
  cases hproperties : node.patternProperties key with
  | error e =>
    rw [Recorded.bind_of_error (by rw [Recorded.outcome_ofExcept, hproperties])] at h
    simp at h
  | ok properties =>
    rw [Recorded.record_bind_of_ok (by rw [Recorded.outcome_ofExcept, hproperties])] at h
    cases htype : schema.get? node.type with
    | some type => simp [htype] at h
    | none =>
      rw [htype] at h
      change d ∈ [] ++ ([Diagnostic.unknownType node.id node.type] ++ []) at h
      obtain rfl := List.mem_singleton.mp h
      rfl

/-- A node is resolved once its properties are read. -/
theorem Step.failsFirst_resolve (schema : Schema) (key : String) (node : Node) :
    Recorded.FailsFirst (resolve schema key node).outcome (node.misread key) := by
  refine .bind_ok (x := .ofExcept (node.patternProperties key))
    (node.failsFirst_patternProperties key) fun properties => ?_
  cases schema.get? node.type <;> exact ⟨_, rfl⟩

namespace Chain

variable {schema : Schema} {config : Config} {nodes : List Node} {chain : Chain} {d : Diagnostic}

/-- The chain of nodes. -/
def ofNodes (schema : Schema) (config : Config) (nodes : List Node) :
    Recorded Diagnostic Chain := do
  let steps ← nodes.mapM (Step.resolve schema config.patternKey)
  Recorded.note (headDiagnostics ⟨steps⟩)
  pure ⟨steps⟩

/-- The chain of nodes resolves them, one by one. -/
theorem outcome_ofNodes_eq_ok :
    (ofNodes schema config nodes).outcome = .ok chain ↔
      List.Forall₂ (fun node s => (Step.resolve schema config.patternKey node).outcome = .ok s)
        nodes chain.steps := by
  rw [ofNodes, Recorded.outcome_bind_eq_ok]
  simp only [Recorded.outcome_mapM_eq_ok, Recorded.outcome_note_bind, Recorded.outcome_pure]
  constructor
  · rintro ⟨steps, hsteps, hchain⟩
    rwa [← Except.ok.inj hchain]
  · exact fun h => ⟨chain.steps, h, rfl⟩

/-- A chain has the ids of its nodes, in order. -/
theorem ids_of_outcome_ofNodes (h : (ofNodes schema config nodes).outcome = .ok chain) :
    chain.ids = nodes.map (·.id) := by
  have hsteps := outcome_ofNodes_eq_ok.mp h
  refine List.forall₂_eq_eq_eq ▸ ?_
  rw [ids, List.forall₂_map_left_iff, List.forall₂_map_right_iff]
  exact (hsteps.imp fun _ _ hs => (Step.outcome_resolve hs).1).flip

/-- **The nodes of a chain are read in their order.** -/
theorem failsFirst_ofNodes (nodes : List Node) :
    Recorded.FailsFirst (ofNodes schema config nodes).outcome
      (nodes.flatMap (Node.misread config.patternKey)) :=
  .bind_ok (.mapM fun node _ => Step.failsFirst_resolve schema config.patternKey node)
    fun _ => ⟨_, rfl⟩

/-- Nodes make a chain if the pattern properties of all of them can be read. -/
theorem exists_ofNodes_iff :
    (∃ c, (ofNodes schema config nodes).outcome = .ok c) ↔
      ∀ node ∈ nodes, ∃ properties, node.patternProperties config.patternKey = .ok properties := by
  rw [(failsFirst_ofNodes nodes).exists_ok_iff, List.flatMap_eq_nil_iff]
  exact forall₂_congr fun node _ =>
    (node.failsFirst_patternProperties config.patternKey).exists_ok_iff.symm

/-- Resolving nodes fails at one of them, with a flaw of one of its properties. -/
theorem exists_of_ofNodes_error {e : Failure}
    (h : (ofNodes schema config nodes).outcome = .error e) :
    ∃ node ∈ nodes, ∃ property flaw, e = .malformed node.id property flaw := by
  have hhead := (failsFirst_ofNodes nodes e).mp h
  obtain ⟨node, hnode, hmisread⟩ := List.mem_flatMap.mp (List.mem_of_mem_head? hhead)
  exact ⟨node, hnode, Node.exists_of_mem_misread hmisread⟩

/-- What is reported of a chain is what is reported of its nodes, and what is to be said about its
head. -/
theorem record_ofNodes (h : (ofNodes schema config nodes).outcome = .ok chain) :
    (ofNodes schema config nodes).record =
      (nodes.flatMap fun node => (Step.resolve schema config.patternKey node).record)
        ++ chain.headDiagnostics := by
  -- the record of a list of steps is known only once all of them succeed
  have hsteps := Recorded.outcome_mapM_eq_ok.mpr (outcome_ofNodes_eq_ok.mp h)
  rw [ofNodes, Recorded.record_bind_of_ok hsteps, Recorded.record_note_bind, Recorded.record_pure,
    List.append_nil, Recorded.record_mapM_of_ok hsteps]

/-- What is said about a head is that it is no source or has properties that are dropped. -/
theorem exists_of_mem_headDiagnostics (h : d ∈ chain.headDiagnostics) :
    ∃ head : Step,
      d = .headNotSource head.id ∨ d = .headProperties head.id (droppedProperties head) := by
  unfold headDiagnostics at h
  split at h
  · exact absurd h List.not_mem_nil
  next head _ =>
    refine ⟨head, (List.mem_append.mp h).imp (fun h => ?_) fun h => ?_⟩
    · split at h
      · exact absurd h List.not_mem_nil
      · exact List.mem_singleton.mp h
    · split at h
      · exact absurd h List.not_mem_nil
      · exact List.mem_singleton.mp h

/-- What is said about a head is about that step. -/
theorem isOfStep_headDiagnostics (h : d ∈ chain.headDiagnostics) : d.isOfStep := by
  obtain ⟨head, rfl | rfl⟩ := exists_of_mem_headDiagnostics h <;> rfl

/-- All that is reported of a chain is about its steps, also if it fails. -/
theorem isOfStep_record_ofNodes (h : d ∈ (ofNodes schema config nodes).record) : d.isOfStep := by
  have hnodes : ∀ d ∈ (nodes.mapM (Step.resolve schema config.patternKey)).record, d.isOfStep := by
    intro d hd
    obtain ⟨node, -, hd⟩ := Recorded.mem_record_mapM hd
    exact Step.isOfStep_record_resolve hd
  rw [ofNodes] at h
  cases hsteps : (nodes.mapM (Step.resolve schema config.patternKey)).outcome with
  | error e =>
    rw [Recorded.bind_of_error hsteps] at h
    exact hnodes d h
  | ok steps =>
    rw [Recorded.record_bind_of_ok hsteps, Recorded.record_note_bind, Recorded.record_pure,
      List.append_nil] at h
    rcases List.mem_append.mp h with h | h
    · exact hnodes d h
    · exact isOfStep_headDiagnostics h

end Chain

namespace Wiring

variable {w : Wiring} {schema : Schema} {config : Config}

/-! ## Chains and routes -/

/-- The chain of a route is that of the nodes at its positions. -/
theorem chainOf_eq_ofNodes (route : List ℕ) :
    w.chainOf schema config route = Chain.ofNodes schema config (route.filterMap w.node?) := rfl

/-- The chain of a route has the ids at its positions. -/
theorem ids_of_outcome_chainOf {route : List ℕ} {chain : Chain}
    (h : (w.chainOf schema config route).outcome = .ok chain) :
    chain.ids = (route.filterMap w.node?).map (·.id) :=
  Chain.ids_of_outcome_ofNodes (chainOf_eq_ofNodes route ▸ h)

/-- All that is reported of forks are reports of forks. -/
theorem exists_of_mem_checkForks {policy : FanOutPolicy} {d : Diagnostic}
    (h : d ∈ (w.checkForks policy).record) : ∃ fork, d = w.forkDiagnostic fork := by
  unfold checkForks at h
  split at h
  · obtain ⟨fork, -, rfl⟩ := List.mem_map.mp h
    exact ⟨fork, rfl⟩
  · exact absurd h List.not_mem_nil
  · exact absurd h List.not_mem_nil

/-- No report of a fork is that a node is stranded. -/
theorem stranded_record_checkForks {policy : FanOutPolicy} {d : Diagnostic}
    (h : d ∈ (w.checkForks policy).record) : d.stranded? = none := by
  obtain ⟨fork, rfl⟩ := exists_of_mem_checkForks h
  rfl

/-- The chains are those of the routes, one by one, once the forks have passed. -/
theorem outcome_chains_eq_ok {chains : List Chain} :
    (w.chains schema config).outcome = .ok chains ↔
      (w.checkForks config.fanOut).outcome = .ok () ∧
        List.Forall₂ (fun route chain => (w.chainOf schema config route).outcome = .ok chain)
          w.routes chains := by
  rw [Wiring.chains, Recorded.outcome_bind_eq_ok]
  simp only [Recorded.outcome_note_bind, Recorded.outcome_mapM_eq_ok]
  exact ⟨fun ⟨_, hforks, h⟩ => ⟨hforks, h⟩, fun ⟨hforks, h⟩ => ⟨(), hforks, h⟩⟩

/-- The steps of the chains of a wiring are nodes on its routes. -/
theorem exists_resolve_of_mem {chains : List Chain} {c : Chain} {s : Step}
    (h : (w.chains schema config).outcome = .ok chains) (hc : c ∈ chains) (hs : s ∈ c.steps) :
    ∃ route ∈ w.routes, ∃ node ∈ route.filterMap w.node?,
      (Step.resolve schema config.patternKey node).outcome = .ok s := by
  obtain ⟨-, hroutes⟩ := outcome_chains_eq_ok.mp h
  obtain ⟨route, hroute, hchain⟩ := Recorded.exists_of_forall₂ hroutes hc
  rw [chainOf_eq_ofNodes] at hchain
  obtain ⟨node, hnode, hresolve⟩ :=
    Recorded.exists_of_forall₂ (Chain.outcome_ofNodes_eq_ok.mp hchain) hs
  exact ⟨route, hroute, node, hnode, hresolve⟩

/-- No step of a chain of a wiring is made by a fold. -/
theorem synthetic_of_outcome_chains {chains : List Chain} {c : Chain} {s : Step}
    (h : (w.chains schema config).outcome = .ok chains) (hc : c ∈ chains) (hs : s ∈ c.steps) :
    s.synthetic = false := by
  obtain ⟨-, -, node, -, hnode⟩ := exists_resolve_of_mem h hc hs
  exact (Step.outcome_resolve hnode).2.1

/-- The nodes that are reported as stranded are those in no route. -/
theorem stranded_record_chains {chains : List Chain}
    (h : (w.chains schema config).outcome = .ok chains) :
    (w.chains schema config).record.filterMap Diagnostic.stranded? = w.stranded.map w.id := by
  obtain ⟨hforks, -⟩ := outcome_chains_eq_ok.mp h
  -- the record has three parts, and only the one between forks and steps is about stranded nodes
  have hbefore : (w.checkForks config.fanOut).record.filterMap Diagnostic.stranded? = [] :=
    List.filterMap_eq_nil_iff.mpr fun _ => stranded_record_checkForks
  have hafter : (w.routes.mapM (w.chainOf schema config)).record.filterMap Diagnostic.stranded? =
      [] := by
    refine List.filterMap_eq_nil_iff.mpr fun d hd => ?_
    obtain ⟨route, -, hd⟩ := Recorded.mem_record_mapM hd
    rw [chainOf_eq_ofNodes] at hd
    exact Diagnostic.stranded?_of_isOfStep (Chain.isOfStep_record_ofNodes hd)
  rw [Wiring.chains, Recorded.record_bind_of_ok hforks, Recorded.record_note_bind,
    List.filterMap_append, List.filterMap_append, hbefore, hafter, List.nil_append,
    List.append_nil, List.filterMap_map]
  exact congrFun List.filterMap_eq_map _

end Wiring

end Patchbay
