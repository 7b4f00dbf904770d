import Mathlib.Data.Fintype.EquivFin
import Mathlib.Data.Fintype.List
import Patchbay.Proofs.Compile

/-!
# Forks and the policy for them

The walk looks at a node only when it gets there, so a fork is refused or reported only on a route.
`fork_policies` says that this misses nothing: a patch is refused exactly if any of its kept nodes
forks, whether a route reaches that node or not.

## Shape of the proof

* a property that passes from the sources of a kept node to the node itself holds of all of them,
  since paths do not return (`kept_induction`);
* so if no fork is on the cover, the cover has every kept node (`GreedyCover.mem_of_not_forks`);
* therefore the forks along the cover are empty only if there are none at all
  (`GreedyCover.forksAlong_eq_nil_iff`), and then the policy is not asked.
-/

open Relation

namespace Patchbay

/-- What a diagnostic says of a fork: the node, the target that follows it and the others. -/
def Diagnostic.fanOut? : Diagnostic → Option (String × Option String × List String)
  | .fanOut node followed skipped => some (node, followed, skipped)
  | _ => none

/-- The diagnostics of steps report no fork. -/
theorem Diagnostic.fanOut?_of_isOfStep {d : Diagnostic} (h : d.isOfStep) : d.fanOut? = none := by
  cases d <;> first | rfl | exact absurd h Bool.false_ne_true

namespace Graph

variable {g : Graph}

/-- What passes from all sources of a kept node to the node holds of every kept node. -/
theorem kept_induction (hacyclic : ¬ ∃ id, TransGen g.Joins id id) {p : String → Prop}
    (h : ∀ id ∈ g.keptIds, (∀ source, g.Joins source id → p source) → p id) :
    ∀ id ∈ g.keptIds, p id := by
  let Before : {id // id ∈ g.keptIds} → {id // id ∈ g.keptIds} → Prop := fun a b =>
    TransGen g.Joins a b
  have htrans : IsTrans _ Before := ⟨fun _ _ _ => TransGen.trans⟩
  have hirrefl : Std.Irrefl Before := ⟨fun a ha => hacyclic ⟨a, ha⟩⟩
  have hwf : WellFounded Before := Finite.wellFounded_of_trans_of_irrefl Before
  intro id hid
  induction hstart : (⟨id, hid⟩ : {id // id ∈ g.keptIds}) using hwf.induction generalizing id with
  | _ a ih =>
    subst hstart
    exact h id hid fun source hjoins =>
      ih ⟨source, source_mem_keptIds hjoins⟩ (.single hjoins) source _ rfl

/-- A kept node is a root, or another node leads to it. -/
theorem mem_rootIds_or_joins {id : String} (hid : id ∈ g.keptIds) :
    id ∈ g.rootIds ∨ ∃ source, g.Joins source id := by
  by_cases hinput : g.counted.any fun c => c.target == id
  · obtain ⟨c, hc, htarget⟩ := List.any_eq_true.mp hinput
    obtain rfl := beq_iff_eq.mp htarget
    exact .inr ⟨c.source, hc⟩
  · exact .inl (List.mem_filter.mpr ⟨hid, by simpa using hinput⟩)

end Graph

namespace GreedyCover

variable {g : Graph} {cover : List (List String)} (h : GreedyCover g cover)
include h

/-- Every root begins a list of the cover. -/
theorem mem_of_mem_rootIds {id : String} (hid : id ∈ g.rootIds) : id ∈ cover.flatten := by
  have hhead : some id ∈ cover.map List.head? := h.heads ▸ List.mem_map_of_mem hid
  obtain ⟨chain, hchain, hid⟩ := List.mem_map.mp hhead
  exact List.mem_flatten_of_mem hchain (List.mem_of_head? hid)

/-- **A cover without forks leaves no kept node out.** -/
theorem mem_of_not_forks (hacyclic : ¬ ∃ id, TransGen g.Joins id id)
    (hforks : ∀ id ∈ cover.flatten, ¬ g.Forks id) : ∀ id ∈ g.keptIds, id ∈ cover.flatten := by
  refine Graph.kept_induction hacyclic fun id hid ih => ?_
  rcases Graph.mem_rootIds_or_joins hid with hroot | ⟨source, hjoins⟩
  · exact h.mem_of_mem_rootIds hroot
  · -- the source is on the cover, and the node is all that can follow it there
    have hsource := ih source hjoins
    obtain ⟨chain, hchain, hmem⟩ := List.mem_flatten.mp hsource
    obtain ⟨i, hi⟩ := List.mem_iff_getElem?.mp hchain
    obtain ⟨k, hk⟩ := List.mem_iff_getElem?.mp hmem
    rcases h.successor_of_not_forks hi hk hjoins (hforks source hsource) with
      ⟨hnext, -⟩ | ⟨-, hbefore⟩
    · exact List.mem_flatten_of_mem hchain (List.mem_of_getElem? hnext)
    · obtain ⟨chain', hchain', hid⟩ := List.mem_flatten.mp hbefore
      exact List.mem_flatten_of_mem (List.mem_of_mem_take hchain') hid

/-- The forks along the cover are none exactly if no kept node forks. -/
theorem forksAlong_eq_nil_iff (hacyclic : ¬ ∃ id, TransGen g.Joins id id) :
    g.forksAlong cover = [] ↔ ∀ id ∈ g.keptIds, ¬ g.Forks id := by
  rw [Graph.forksAlong_eq_nil_iff]
  constructor
  · intro hforks id hid
    exact hforks id (h.mem_of_not_forks hacyclic hforks id hid)
  · intro hforks id hid
    exact hforks id (h.kept id hid)

/-- Without cycles and forks every node that is kept is in the cover. -/
theorem outside_eq_nil (hacyclic : ¬ ∃ id, TransGen g.Joins id id)
    (hforks : ∀ id ∈ g.keptIds, ¬ g.Forks id) : g.outside cover = [] := by
  have hcovered := h.mem_of_not_forks hacyclic fun id hid => hforks id (h.kept id hid)
  refine List.filter_eq_nil_iff.mpr fun id hid => ?_
  simpa using List.mem_flatten.mp (hcovered id hid)

end GreedyCover

namespace Graph

variable {g : Graph} {schema : Schema} {config : Config} {cover : List (List String)}

/-! ## Refusing forks -/

/-- Without forks nothing is checked and nothing reported. -/
theorem checkForksAlong_of_nil {policy : FanOutPolicy} (h : g.forksAlong cover = []) :
    g.checkForksAlong policy cover = pure () := by
  unfold checkForksAlong
  rw [h]
  cases policy <;> rfl

/-- Nodes are not refused for their targets. -/
theorem outcome_mapM_chainOf_ne_fanOut (id : String) (targets : List String) :
    (cover.mapM (g.chainOf schema config)).outcome ≠ .error (.fanOut id targets) := by
  intro h
  obtain ⟨ids, -, hids⟩ := Recorded.exists_of_outcome_mapM_error h
  obtain ⟨node, -, property, flaw, hmalformed⟩ := Chain.exists_of_ofNodes_error hids
  cases hmalformed

/-- The chains fail with a fork exactly if the policy refuses the first one along the cover. -/
theorem outcome_chainsAlong_eq_fanOut_iff {id : String} {targets : List String} :
    (g.chainsAlong schema config cover).outcome = .error (.fanOut id targets) ↔
      config.fanOut = .reject ∧
        ∃ next rest, g.forksAlong cover = (id, next) :: rest ∧ targets = g.branches id := by
  unfold chainsAlong checkForksAlong
  -- only the policy to reject can fail here, and it looks at nothing but the first fork
  cases hpolicy : config.fanOut with
  | warn =>
    simp only [Recorded.outcome_note_bind, reduceCtorEq, false_and, iff_false]
    exact outcome_mapM_chainOf_ne_fanOut id targets
  | reject =>
    cases hforks : g.forksAlong cover with
    | nil =>
      simp only [pure_bind, Recorded.outcome_note_bind, reduceCtorEq, false_and, exists_false,
        and_false, iff_false]
      exact outcome_mapM_chainOf_ne_fanOut id targets
    | cons fork rest =>
      obtain ⟨node, next⟩ := fork
      rw [Recorded.bind_of_error (Recorded.outcome_fail _)]
      constructor
      · intro h
        cases h
        exact ⟨rfl, next, rest, rfl, rfl⟩
      · rintro ⟨-, next', rest', hfirst, rfl⟩
        cases hfirst
        rfl

/-- A refused fork is one of the patch, and its targets are named. -/
theorem named_of_outcome_chainsAlong (hcover : GreedyCover g cover) {id : String}
    {targets : List String}
    (h : (g.chainsAlong schema config cover).outcome = .error (.fanOut id targets)) :
    id ∈ g.keptIds ∧ g.Forks id ∧ targets = g.branches id := by
  obtain ⟨-, next, rest, hforks, htargets⟩ := outcome_chainsAlong_eq_fanOut_iff.mp h
  have hfork : (id, next) ∈ g.forksAlong cover := hforks ▸ List.mem_cons_self
  obtain ⟨hstep, hfork⟩ := mem_forksAlong_iff.mp hfork
  exact ⟨hcover.kept id (mem_flatten_of_mem_steps hstep), hfork, htargets⟩

/-- To refuse forks along the cover is to refuse them anywhere. -/
theorem outcome_chainsAlong_reject_iff (hcover : GreedyCover g cover)
    (hacyclic : ¬ ∃ id, TransGen g.Joins id id) (hpolicy : config.fanOut = .reject) :
    (∃ id targets, (g.chainsAlong schema config cover).outcome = .error (.fanOut id targets)) ↔
      ∃ id ∈ g.keptIds, g.Forks id := by
  constructor
  · rintro ⟨id, targets, h⟩
    obtain ⟨hid, hfork, -⟩ := named_of_outcome_chainsAlong hcover h
    exact ⟨id, hid, hfork⟩
  · rintro ⟨id, hid, hfork⟩
    cases hforks : g.forksAlong cover with
    | nil => exact absurd hfork ((hcover.forksAlong_eq_nil_iff hacyclic).mp hforks id hid)
    | cons fork rest =>
      refine ⟨fork.1, g.branches fork.1, outcome_chainsAlong_eq_fanOut_iff.mpr ?_⟩
      exact ⟨hpolicy, fork.2, rest, hforks, rfl⟩

/-! ## Both policies -/

/-- What becomes of the forks of a patch with the wiring `w` under either policy. -/
structure ForkSpec (g : Graph) (w : Wiring) (schema : Schema) (config : Config) : Prop where
  /-- A patch is refused exactly if a kept node forks, whether it is in a chain or not. -/
  refused_iff : (∃ id targets, (w.chains schema { config with fanOut := .reject }).outcome =
    .error (.fanOut id targets)) ↔ ∃ id ∈ g.keptIds, g.Forks id
  /-- The failure names a node that forks, with all its targets. -/
  named : ∀ id targets, (w.chains schema { config with fanOut := .reject }).outcome =
    .error (.fanOut id targets) → id ∈ g.keptIds ∧ g.Forks id ∧ targets = g.branches id
  /-- Without forks the policy makes no difference. -/
  same : (∀ id ∈ g.keptIds, ¬ g.Forks id) →
    g.compile schema { config with fanOut := .reject } =
      g.compile schema { config with fanOut := .warn }
  /-- Without forks every kept node is in a chain. -/
  covered : (∀ id ∈ g.keptIds, ¬ g.Forks id) → ∀ policy chains,
    (w.chains schema { config with fanOut := policy }).outcome = .ok chains →
      ∀ id ∈ g.keptIds, ∃ c ∈ chains, id ∈ c.ids
  /-- Without forks no diagnostic is about a fork or a stranded node. -/
  quiet : (∀ id ∈ g.keptIds, ¬ g.Forks id) → ∀ policy compiled,
    g.compile schema { config with fanOut := policy } = .ok compiled →
      ∀ d ∈ compiled.diagnostics, d.fanOut? = none ∧ d.stranded? = none
  /-- One report for each fork of a chain: what follows it there, and its other targets. -/
  reported : ∀ chains, (w.chains schema { config with fanOut := .warn }).outcome = .ok chains →
    (w.chains schema { config with fanOut := .warn }).record.filterMap Diagnostic.fanOut? =
      ((chains.flatMap fun c => Wiring.stepsOf c.ids).filter
        fun s => 1 < (g.branches s.1).length).map
        fun s => (s.1, s.2, (g.branches s.1).filter (some · != s.2))
  /-- The diagnostics of a compiled patch have no other reports of forks. -/
  passed : ∀ compiled, g.compile schema { config with fanOut := .warn } = .ok compiled →
    compiled.diagnostics.filterMap Diagnostic.fanOut? =
      (w.chains schema { config with fanOut := .warn }).record.filterMap Diagnostic.fanOut?

/-- A report of inputs that are not merged reports no fork and no stranded node. -/
theorem fanOut?_of_mem_unmerged {c : Chain} {d : Diagnostic} (h : d ∈ g.unmerged c) :
    d.fanOut? = none ∧ d.stranded? = none := by
  obtain ⟨s, -, rfl⟩ := List.mem_map.mp h
  exact ⟨rfl, rfl⟩

variable {chains : List Chain}

/-- The chains report each fork along the cover, and no other. -/
theorem filterMap_fanOut?_chainsAlong
    (h : (g.chainsAlong schema config cover).outcome = .ok chains) :
    (g.chainsAlong schema config cover).record.filterMap Diagnostic.fanOut? =
      (g.forksAlong cover).map
        fun fork => (fork.1, fork.2, (g.branches fork.1).filter (some · != fork.2)) := by
  have hstranded : ((g.outside cover).map Diagnostic.stranded).filterMap Diagnostic.fanOut? =
      [] := by
    rw [List.filterMap_map]
    exact List.filterMap_eq_nil_iff.mpr fun _ _ => rfl
  have hsteps : (cover.mapM (g.chainOf schema config)).record.filterMap Diagnostic.fanOut? = [] :=
    List.filterMap_eq_nil_iff.mpr fun d hd =>
      Diagnostic.fanOut?_of_isOfStep (isOfStep_record_chainOf hd)
  rw [record_chainsAlong h, List.filterMap_append, List.filterMap_append, hstranded, hsteps,
    List.append_nil, List.append_nil, List.filterMap_map]
  exact congrFun List.filterMap_eq_map _

/-- A drawing reports no forks beyond those that its chains report. -/
theorem filterMap_fanOut?_drawnAlong
    (h : (g.chainsAlong schema config cover).outcome = .ok chains) :
    (g.drawnAlong schema config cover).record.filterMap Diagnostic.fanOut? =
      (g.chainsAlong schema config cover).record.filterMap Diagnostic.fanOut? := by
  have hdangling : (g.dangling.map fun c => Diagnostic.dangling c.source c.target).filterMap
      Diagnostic.fanOut? = [] := by
    rw [List.filterMap_map]
    exact List.filterMap_eq_nil_iff.mpr fun _ _ => rfl
  have hunmerged : (chains.flatMap g.unmerged).filterMap Diagnostic.fanOut? = [] := by
    refine List.filterMap_eq_nil_iff.mpr fun d hd => ?_
    obtain ⟨c, -, hd⟩ := List.mem_flatMap.mp hd
    exact (fanOut?_of_mem_unmerged hd).1
  rw [record_drawnAlong_eq_append h, List.filterMap_append, List.filterMap_append, hdangling,
    hunmerged, List.nil_append, List.append_nil]

/-- A drawing without forks says nothing of forks and stranded nodes. -/
theorem quiet_of_forksAlong_eq_nil (hforks : g.forksAlong cover = [])
    (houtside : g.outside cover = [])
    (h : (g.drawnAlong schema config cover).outcome = .ok chains) {d : Diagnostic}
    (hd : d ∈ (g.drawnAlong schema config cover).record) :
    d.fanOut? = none ∧ d.stranded? = none := by
  -- one case for each kind of report that a drawing makes
  rcases (mem_record_drawnAlong h).mp hd with
    ⟨c, -, rfl⟩ | ⟨fork, hfork, -⟩ | ⟨id, hid, -⟩ | hstep | ⟨c, -, hunmerged⟩
  · exact ⟨rfl, rfl⟩
  · rw [hforks] at hfork
    exact absurd hfork List.not_mem_nil
  · rw [houtside] at hid
    exact absurd hid List.not_mem_nil
  · have hstep := isOfStep_record_chainOf hstep
    exact ⟨Diagnostic.fanOut?_of_isOfStep hstep, Diagnostic.stranded?_of_isOfStep hstep⟩
  · exact fanOut?_of_mem_unmerged hunmerged

/-- Along a cover without forks the policy is not asked. -/
theorem drawnAlong_policy (hforks : g.forksAlong cover = []) (policy policy' : FanOutPolicy) :
    g.drawnAlong schema { config with fanOut := policy } cover =
      g.drawnAlong schema { config with fanOut := policy' } cover := by
  unfold drawnAlong chainsAlong
  rw [checkForksAlong_of_nil hforks, checkForksAlong_of_nil hforks]
  rfl

/-- What follows the drawing does not look at the policy. -/
theorem compile_policy {policy policy' : FanOutPolicy}
    (h : g.drawn schema { config with fanOut := policy } =
      g.drawn schema { config with fanOut := policy' }) :
    g.compile schema { config with fanOut := policy } =
      g.compile schema { config with fanOut := policy' } := by
  unfold compile
  rw [h]
  rfl

/-- **Forks and the policy for them.**  In a patch with distinct ids and without cycles the policy
to refuse forks catches every fork at a kept node, and makes no other difference; the policy to
report them reports each fork of a chain once. -/
theorem fork_policies (hids : g.ids.Nodup) (hacyclic : ¬ ∃ id, TransGen g.Joins id id)
    (schema : Schema) (config : Config) :
    g.wire.outcome = .ok g.wiring ∧ g.ForkSpec g.wiring schema config := by
  obtain ⟨cover, hcover⟩ := exists_greedyCover hids hacyclic
  have hwire : g.wire.outcome = .ok g.wiring := by
    rw [outcome_wire_of_nodup hids, cycle?_eq_none hids hacyclic]
  have hchains := chains_eq_chainsAlong hids hacyclic hcover schema
  have hdrawn := drawn_eq_drawnAlong hids hacyclic hcover schema
  have hnone := hcover.forksAlong_eq_nil_iff hacyclic
  -- the ids of the chains are a cover again, and there is only one
  have hcovers : ∀ policy chains,
      (g.wiring.chains schema { config with fanOut := policy }).outcome = .ok chains →
        chains.map Chain.ids = cover := fun policy chains h =>
    (ids_greedyCover hwire h).eq hcover rfl fun _ => rfl
  refine ⟨hwire, ?refused, ?named, ?same, ?covered, ?quiet, ?reported, ?passed⟩
  case refused =>
    rw [hchains]
    exact outcome_chainsAlong_reject_iff hcover hacyclic rfl
  case named =>
    intro id targets h
    rw [hchains] at h
    exact named_of_outcome_chainsAlong hcover h
  case same =>
    intro hforks
    apply compile_policy
    rw [hdrawn, hdrawn]
    exact drawnAlong_policy (hnone.mpr hforks) _ _
  case covered =>
    intro hforks policy chains h id hid
    have hcovered := hcover.mem_of_not_forks hacyclic fun id hid => hforks id (hcover.kept id hid)
    obtain ⟨ids, hmem, hid⟩ := List.mem_flatten.mp (hcovers policy chains h ▸ hcovered id hid)
    obtain ⟨c, hc, rfl⟩ := List.mem_map.mp hmem
    exact ⟨c, hc, hid⟩
  case quiet =>
    intro hforks policy compiled h d hd
    obtain ⟨chains, arrangements, hfound, -, rfl⟩ := compile_eq_ok_iff.mp h
    replace hd : d ∈ (g.drawn schema { config with fanOut := policy }).record := hd
    rw [hdrawn] at hfound hd
    exact quiet_of_forksAlong_eq_nil (hnone.mpr hforks) (hcover.outside_eq_nil hacyclic hforks)
      hfound hd
  case reported =>
    intro chains h
    rw [← List.flatMap_map Chain.ids Wiring.stepsOf, hcovers .warn chains h]
    rw [hchains] at h ⊢
    exact filterMap_fanOut?_chainsAlong h
  case passed =>
    intro compiled h
    obtain ⟨chains, arrangements, hfound, -, rfl⟩ := compile_eq_ok_iff.mp h
    show (g.drawn schema { config with fanOut := .warn }).record.filterMap _ = _
    rw [hdrawn] at hfound ⊢
    rw [hchains]
    exact filterMap_fanOut?_drawnAlong (outcome_drawnAlong_iff.mp hfound)

/-- Two forks, of which the second is on no route, and a connection that is there twice. -/
def branchingPatch : Graph where
  nodes := ["kick", "loud", "side", "left", "right"].map fun id => { id := id, type := "voice" }
  connections :=
    [⟨"kick", "loud"⟩, ⟨"kick", "side"⟩, ⟨"kick", "loud"⟩, ⟨"side", "left"⟩, ⟨"side", "right"⟩]

/-- A patch with a fork is refused by one policy and reported by the other. -/
theorem fork_policies_branchingPatch :
    branchingPatch.ids.Nodup ∧ (¬ ∃ id, TransGen branchingPatch.Joins id id) ∧
      (branchingPatch.wiring.chains {} { Config.standard with fanOut := .reject }).outcome =
        .error (.fanOut "kick" ["loud", "side"]) ∧
      (branchingPatch.wiring.chains {} .standard).record.filterMap Diagnostic.fanOut? =
        [("kick", some "loud", ["side"])] ∧
      branchingPatch.wire.outcome = .ok branchingPatch.wiring ∧
      branchingPatch.ForkSpec branchingPatch.wiring {} .standard := by
  have hids : branchingPatch.ids.Nodup := by decide
  have hwire : branchingPatch.wire.outcome = .ok branchingPatch.wiring := rfl
  have hacyclic : ¬ ∃ id, TransGen branchingPatch.Joins id id := by
    rintro ⟨id, hcycle⟩
    exact not_acyclic_of_transGen_joins hids hcycle (outcome_wire_eq_ok hwire).2.2
  exact ⟨hids, hacyclic, rfl, rfl, fork_policies hids hacyclic {} .standard⟩

end Graph

end Patchbay
