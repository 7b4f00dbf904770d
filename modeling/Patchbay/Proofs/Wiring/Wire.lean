import Patchbay.Proofs.Recorded
import Patchbay.Proofs.Wiring.Placement

/-!
# Which patches have a wiring

`Graph.wire` refuses a patch in two cases.  If two nodes have one id it names the first node that
repeats an earlier one, whatever the connections are.  Otherwise, if the connections that count
form a directed cycle, it names a node on one.  Every other patch has its wiring, and no position
of that lies on a cycle.
-/

open Relation

namespace Patchbay.Graph

/-! ## Repeated ids -/

/-- No id is found if none is repeated or seen before. -/
theorem firstRepeated_eq_none_iff {seen ids : List String} :
    firstRepeated seen ids = none ↔ ids.Nodup ∧ ∀ id ∈ ids, id ∉ seen := by
  induction ids generalizing seen with
  | nil => simp [firstRepeated]
  | cons id rest ih =>
    by_cases hseen : id ∈ seen
    · simp [firstRepeated, hseen]
    · rw [firstRepeated, if_neg (mt List.contains_iff_mem.mp hseen), ih, List.nodup_cons,
        List.forall_mem_cons]
      constructor
      · rintro ⟨hnodup, hrest⟩
        refine ⟨⟨fun hid => hrest id hid List.mem_cons_self, hnodup⟩, hseen, fun a ha hmem => ?_⟩
        exact hrest a ha (List.mem_cons_of_mem _ hmem)
      · rintro ⟨⟨hid, hnodup⟩, -, hrest⟩
        refine ⟨hnodup, fun a ha hmem => ?_⟩
        rcases List.mem_cons.mp hmem with rfl | hmem
        · exact hid ha
        · exact hrest a ha hmem

/-- The id that is found repeats an earlier one, and no id before it does. -/
theorem exists_of_firstRepeated {seen ids : List String} {id : String}
    (h : firstRepeated seen ids = some id) :
    ∃ before after, ids = before ++ id :: after ∧ before.Nodup ∧ (∀ a ∈ before, a ∉ seen) ∧
      (id ∈ before ∨ id ∈ seen) := by
  induction ids generalizing seen with
  | nil => simp [firstRepeated] at h
  | cons a rest ih =>
    rw [firstRepeated] at h
    split at h
    · rename_i hseen
      obtain rfl := Option.some.inj h
      exact ⟨[], rest, rfl, List.nodup_nil, by simp, .inr (List.contains_iff_mem.mp hseen)⟩
    · rename_i hseen
      obtain ⟨before, after, hrest, hnodup, hfresh, hid⟩ := ih h
      refine ⟨a :: before, after, by rw [hrest, List.cons_append], ?_, ?_, ?_⟩
      · exact List.nodup_cons.mpr ⟨fun ha => hfresh a ha List.mem_cons_self, hnodup⟩
      · refine List.forall_mem_cons.mpr ⟨mt List.contains_iff_mem.mpr hseen, fun b hb => ?_⟩
        exact fun hmem => hfresh b hb (List.mem_cons_of_mem _ hmem)
      · rcases hid with hid | hid
        · exact .inl (List.mem_cons_of_mem _ hid)
        · rcases List.mem_cons.mp hid with rfl | hid
          · exact .inl List.mem_cons_self
          · exact .inr hid

/-! ## Outcomes of wiring a patch -/

/-- A repeated id is what a patch is refused for first. -/
theorem wire_of_repeated {g : Graph} {id : String} (h : firstRepeated [] g.ids = some id) :
    g.wire = .fail (.duplicate id) := by
  rw [wire, h]

/-- With distinct ids, the outcome is that of the search for a cycle. -/
theorem outcome_wire_of_nodup {g : Graph} (hids : g.ids.Nodup) :
    g.wire.outcome = match g.wiring.cycle? with
      | some p => .error (.cycle (g.wiring.id p))
      | none => .ok g.wiring := by
  have hnone : firstRepeated [] g.ids = none := firstRepeated_eq_none_iff.mpr ⟨hids, by simp⟩
  rw [wire, hnone]
  show (Recorded.note _ >>= fun _ => _).outcome = _
  rw [Recorded.outcome_note_bind]
  cases g.wiring.cycle? <;> rfl

/-- All that is reported of a wiring are connections that do not count. -/
theorem exists_of_mem_record_wire {g : Graph} {d : Diagnostic} (h : d ∈ g.wire.record) :
    ∃ c ∈ g.dangling, d = .dangling c.source c.target := by
  unfold wire at h
  split at h
  · exact absurd h List.not_mem_nil
  · rw [Recorded.record_note_bind] at h
    rcases List.mem_append.mp h with h | h
    · obtain ⟨c, hc, rfl⟩ := List.mem_map.mp h
      exact ⟨c, hc, rfl⟩
    · split at h <;> exact absurd h List.not_mem_nil

/-- A patch that has a wiring has distinct ids and no cycle, and the wiring is `Graph.wiring`. -/
theorem outcome_wire_eq_ok {g : Graph} {w : Wiring} (h : g.wire.outcome = .ok w) :
    g.ids.Nodup ∧ w = g.wiring ∧ g.wiring.Acyclic := by
  cases hrepeat : firstRepeated [] g.ids with
  | some id => simp [wire_of_repeated hrepeat] at h
  | none =>
    have hids := (firstRepeated_eq_none_iff.mp hrepeat).1
    rw [outcome_wire_of_nodup hids] at h
    split at h
    · simp at h
    · rename_i hcycle
      exact ⟨hids, (Except.ok.inj h).symm,
        Wiring.acyclic_of_cycle?_eq_none (wiring_inRange hids) hcycle⟩

/-- The position that the search names holds a node on a cycle. -/
theorem transGen_joins_of_cycle? {g : Graph} (hids : g.ids.Nodup) {p : ℕ}
    (h : g.wiring.cycle? = some p) : TransGen g.Joins (g.wiring.id p) (g.wiring.id p) := by
  have hcycle := Wiring.transGen_of_cycle? (wiring_inRange hids) h
  -- what lies on a cycle is fed, so it is in range and its id names a node
  obtain ⟨q, -, hqp⟩ := TransGen.tail'_iff.mp hcycle
  have hp := wiring_inRange hids q p hqp
  exact (wiring_transGen_iff hids hp hp).mp hcycle

/-- A cycle of nodes is a cycle of positions. -/
theorem not_acyclic_of_transGen_joins {g : Graph} (hids : g.ids.Nodup) {id : String}
    (h : TransGen g.Joins id id) : ¬ g.wiring.Acyclic := by
  obtain ⟨target, hstep, -⟩ := TransGen.head'_iff.mp h
  have hkept := source_mem_keptIds hstep
  have hp : g.keptIds.idxOf id < g.wiring.size := by
    rw [wiring_size hids]
    exact List.idxOf_lt_length_of_mem hkept
  intro hacyclic
  refine hacyclic _ ((wiring_transGen_iff hids hp hp).mpr ?_)
  rwa [wiring_id_idxOf hids hkept]

/-- **Patches with and without a wiring.**  With distinct ids, the failure is a cycle exactly when
the connections that count form one, the node that it names lies on one, and there is no other
failure; without, the failure is the first id that repeats an earlier one. -/
theorem wire_outcome_spec (g : Graph) :
    (g.ids.Nodup →
      ((∃ id, g.wire.outcome = .error (.cycle id)) ↔ ∃ id, TransGen g.Joins id id) ∧
      (∀ id, g.wire.outcome = .error (.cycle id) → TransGen g.Joins id id) ∧
      ((¬ ∃ id, TransGen g.Joins id id) →
        g.wire.outcome = .ok g.wiring ∧ g.wiring.Acyclic)) ∧
    (¬ g.ids.Nodup →
      ∃ before id after, g.ids = before ++ id :: after ∧ before.Nodup ∧ id ∈ before ∧
        g.wire.outcome = .error (.duplicate id)) := by
  constructor
  · intro hids
    have houtcome := outcome_wire_of_nodup hids
    cases hcycle : g.wiring.cycle? with
    | some p =>
      rw [hcycle] at houtcome
      have hclosed := transGen_joins_of_cycle? hids hcycle
      refine ⟨⟨fun _ => ⟨_, hclosed⟩, fun _ => ⟨_, houtcome⟩⟩, fun id hid => ?_,
        fun hnone => absurd ⟨_, hclosed⟩ hnone⟩
      rw [houtcome] at hid
      obtain rfl : g.wiring.id p = id := by simpa using hid
      exact hclosed
    | none =>
      rw [hcycle] at houtcome
      have hacyclic := Wiring.acyclic_of_cycle?_eq_none (wiring_inRange hids) hcycle
      -- the search saw no cycle of positions, and a cycle of nodes would be one
      have hfree : ¬ ∃ id, TransGen g.Joins id id :=
        fun ⟨_, h⟩ => not_acyclic_of_transGen_joins hids h hacyclic
      have hok : ∀ id, g.wire.outcome ≠ .error (.cycle id) := by
        intro id hid
        simp [houtcome] at hid
      exact ⟨⟨fun ⟨id, h⟩ => absurd h (hok id), fun h => absurd h hfree⟩,
        fun id h => absurd h (hok id), fun _ => ⟨houtcome, hacyclic⟩⟩
  · intro hids
    cases hrepeat : firstRepeated [] g.ids with
    | none => exact absurd (firstRepeated_eq_none_iff.mp hrepeat).1 hids
    | some id =>
      obtain ⟨before, after, heq, hnodup, -, hid⟩ := exists_of_firstRepeated hrepeat
      refine ⟨before, id, after, heq, hnodup, hid.resolve_right (by simp), ?_⟩
      rw [wire_of_repeated hrepeat, Recorded.outcome_fail]

/-- A cycle that a finished node hides: the first node is searched before it is met again from the
cycle. -/
def hiddenCycle : Graph where
  nodes := ["out", "echo", "filter"].map fun id => { id := id, type := "effect" }
  connections := [⟨"echo", "filter"⟩, ⟨"filter", "echo"⟩, ⟨"filter", "out"⟩]

/-- The cycle is found although the search begins outside of it. -/
theorem wire_outcome_spec_hiddenCycle :
    hiddenCycle.ids.Nodup ∧ hiddenCycle.wire.outcome = .error (.cycle "echo") ∧
      TransGen hiddenCycle.Joins "echo" "echo" := by
  have hids : hiddenCycle.ids.Nodup := by decide
  have houtcome : hiddenCycle.wire.outcome = .error (.cycle "echo") := rfl
  exact ⟨hids, houtcome, ((wire_outcome_spec hiddenCycle).1 hids).2.1 _ houtcome⟩

end Patchbay.Graph
