import Patchbay.Proofs.Compile

/-!
# Where the connections of a patch go

A connection that counts is in a chain, or a diagnostic says that it is not, or it lapses: its
source feeds nothing else, and its target is not structural and has its place in an earlier chain.
`compile_accounts` says that the connections that lapse are exactly those that are neither in a
chain nor reported, and `sharedEffectPatch` has one although it compiles without any diagnostic.

## Shape of the proof

Where a connection goes is a matter of its source:

* outside the cover the source is stranded (`reported_of_not_mem`);
* at a fork of the cover the target follows or is skipped (`reported_of_forks`);
* elsewhere the target follows or is in an earlier list (`GreedyCover.successor_of_not_forks`);
  another node leads to it there (`GreedyCover.one_lt_inputCount`), so that it is reported if it is
  structural, and the connection lapses if not (`reported_or_lapses`).
-/

open Relation

namespace Patchbay

/-- The target of a connection follows its source in a chain. -/
def Realized (chains : List Chain) (source target : String) : Prop :=
  ∃ c ∈ chains, (source, some target) ∈ Wiring.stepsOf c.ids

/-- A diagnostic says that a connection is not in the chains. -/
inductive Reported (diagnostics : List Diagnostic) (source target : String) : Prop
  | skipped {followed : Option String} {skipped : List String}
      (report : .fanOut source followed skipped ∈ diagnostics) (mem : target ∈ skipped)
  | unmerged {inputs : ℕ} (report : .unmerged target inputs ∈ diagnostics)
  | stranded (report : .stranded source ∈ diagnostics)

theorem not_reported_nil {source target : String} : ¬ Reported [] source target := by
  rintro (⟨report, -⟩ | report | report) <;> exact absurd report List.not_mem_nil

/-- The source of a connection has a place in a chain and feeds nothing else, but the target has its
place in an earlier chain and is not structural. -/
def Lapses (g : Graph) (chains : List Chain) (source target : String) : Prop :=
  ¬ g.Forks source ∧ ∃ i c, chains[i]? = some c ∧ source ∈ c.ids ∧
    ∃ d ∈ chains.take i, ∃ s ∈ d.steps, s.id = target ∧ s.isStructural = false

/-- An element is among the first ones if it is at an index among them. -/
theorem mem_take_iff {α : Type} {l : List α} {i : ℕ} {a : α} :
    a ∈ l.take i ↔ ∃ j < i, l[j]? = some a := by
  rw [List.mem_iff_getElem?]
  refine exists_congr fun j => ?_
  rw [List.getElem?_take]
  split <;> simp [*]

theorem one_lt_length_of_ne {α : Type} {l : List α} {a b : α} (ha : a ∈ l) (hb : b ∈ l)
    (hne : a ≠ b) : 1 < l.length := by
  have hnodup : [a, b].Nodup := by simp [hne]
  have hsub : [a, b] ⊆ l := by simp [ha, hb]
  exact (List.subperm_of_subset hnodup hsub).length_le

namespace GreedyCover

variable {g : Graph} {cover : List (List String)} (h : GreedyCover g cover)
include h

/-- A node has one place in the cover. -/
theorem index_unique {i j : ℕ} {chain chain' : List String} {id : String}
    (hchain : cover[i]? = some chain) (hchain' : cover[j]? = some chain') (hid : id ∈ chain)
    (hid' : id ∈ chain') : i = j := by
  obtain ⟨hi, rfl⟩ := List.getElem?_eq_some_iff.mp hchain
  obtain ⟨hj, rfl⟩ := List.getElem?_eq_some_iff.mp hchain'
  have hdisjoint := List.pairwise_iff_getElem.mp (List.nodup_flatten.mp h.nodup).2
  rcases lt_trichotomy i j with hlt | heq | hlt
  · exact absurd hid' (hdisjoint i j hi hj hlt hid)
  · exact heq
  · exact absurd hid (hdisjoint j i hj hi hlt hid')

/-- A node that something leads to follows another one in its list. -/
theorem exists_step_before {chain : List String} {source target : String} (hchain : chain ∈ cover)
    (htarget : target ∈ chain) (hjoins : g.Joins source target) :
    ∃ before, (before, some target) ∈ Wiring.stepsOf chain ∧ g.Joins before target := by
  obtain ⟨k, hk⟩ := List.mem_iff_getElem?.mp htarget
  cases k with
  | zero =>
    -- a node at the head of a list is a root, which nothing leads to
    have hhead : some target ∈ g.rootIds.map some := by
      rw [← h.heads, ← hk, ← List.head?_eq_getElem?]
      exact List.mem_map_of_mem hchain
    obtain ⟨root, hroot, heq⟩ := List.mem_map.mp hhead
    obtain rfl := Option.some.inj heq
    have hnone := (List.mem_filter.mp hroot).2
    rw [Bool.not_eq_true', List.any_eq_false] at hnone
    exact absurd (beq_self_eq_true root) (hnone ⟨source, root⟩ hjoins)
  | succ k =>
    obtain ⟨hlt, -⟩ := List.getElem?_eq_some_iff.mp hk
    have hjoined := List.isChain_iff_getElem.mp (h.joined chain hchain) k hlt
    rw [(List.getElem?_eq_some_iff.mp hk).2] at hjoined
    exact ⟨_, Wiring.mem_stepsOf_iff.mpr ⟨k, List.getElem?_eq_getElem _, hk⟩, hjoined⟩

/-- A node that something leads to has another node before it in its list. -/
theorem exists_joins_before {chain : List String} {source target : String} (hchain : chain ∈ cover)
    (htarget : target ∈ chain) (hjoins : g.Joins source target) :
    ∃ before ∈ chain, g.Joins before target := by
  obtain ⟨before, hstep, hjoins'⟩ := h.exists_step_before hchain htarget hjoins
  rw [← Wiring.map_fst_stepsOf chain]
  exact ⟨before, List.mem_map_of_mem hstep, hjoins'⟩

/-- A node that something leads to from another list has several inputs. -/
theorem one_lt_inputCount {i j : ℕ} {chain chain' : List String} {source target : String}
    (hchain : cover[i]? = some chain) (hsource : source ∈ chain) (hchain' : cover[j]? = some chain')
    (htarget : target ∈ chain') (hne : i ≠ j) (hjoins : g.Joins source target) :
    1 < g.inputCount target := by
  obtain ⟨before, hbefore, hjoins'⟩ :=
    h.exists_joins_before (List.mem_of_getElem? hchain') htarget hjoins
  have hdistinct : source ≠ before := by
    rintro rfl
    exact hne (h.index_unique hchain hchain' hsource hbefore)
  rw [Graph.inputCount, List.countP_eq_length_filter]
  refine one_lt_length_of_ne (a := ⟨source, target⟩) (b := ⟨before, target⟩) ?_ ?_ ?_
  · exact List.mem_filter.mpr ⟨hjoins, beq_self_eq_true _⟩
  · exact List.mem_filter.mpr ⟨hjoins', beq_self_eq_true _⟩
  · simpa using hdistinct

end GreedyCover

namespace Graph

variable {g : Graph} {schema : Schema} {config : Config} {cover : List (List String)}
  {chains : List Chain} {source target : String}

section Reports

variable (h : (g.drawnAlong schema config cover).outcome = .ok chains)
include h

/-- The source of a connection is reported if it is outside the cover. -/
theorem reported_of_not_mem (hjoins : g.Joins source target) (hsource : source ∉ cover.flatten) :
    Reported (g.drawnAlong schema config cover).record source target := by
  have houtside : source ∈ g.outside cover :=
    List.mem_filter.mpr ⟨source_mem_keptIds hjoins, by simpa using hsource⟩
  exact .stranded ((stranded_mem_record_drawnAlong h).mpr houtside)

/-- At a fork, what does not follow is skipped. -/
theorem reported_of_forks (hjoins : g.Joins source target) {next : Option String}
    (hstep : (source, next) ∈ cover.flatMap Wiring.stepsOf) (hfork : g.Forks source)
    (hnext : next ≠ some target) :
    Reported (g.drawnAlong schema config cover).record source target := by
  have hreport : (source, next) ∈ g.forksAlong cover := mem_forksAlong_iff.mpr ⟨hstep, hfork⟩
  have hskipped : target ∈ (g.branches source).filter (some · != next) :=
    List.mem_filter.mpr ⟨mem_branches.mpr hjoins, by simpa using hnext.symm⟩
  exact .skipped ((fanOut_mem_record_drawnAlong h).mpr ⟨hreport, rfl⟩) hskipped

/-- A structural step is reported if it has several inputs. -/
theorem reported_of_structural {c : Chain} {s : Step} (hc : c ∈ chains) (hs : s ∈ c.steps)
    (hstructural : s.isStructural) (hinputs : 1 < g.inputCount s.id) :
    Reported (g.drawnAlong schema config cover).record source s.id :=
  .unmerged ((unmerged_mem_record_drawnAlong h).mpr
    ⟨⟨c, hc, s, hs, hstructural, rfl⟩, hinputs, rfl⟩)

/-- What is reported is about a fork of the cover, a structural step or a node outside the cover. -/
theorem of_reported (hreported : Reported (g.drawnAlong schema config cover).record source target) :
    g.Forks source ∨ (∃ c ∈ chains, ∃ s ∈ c.steps, s.isStructural ∧ s.id = target) ∨
      source ∉ cover.flatten := by
  cases hreported with
  | skipped report =>
    obtain ⟨hfork, -⟩ := (fanOut_mem_record_drawnAlong h).mp report
    exact .inl (mem_forksAlong_iff.mp hfork).2
  | unmerged report => exact .inr (.inl ((unmerged_mem_record_drawnAlong h).mp report).1)
  | stranded report =>
    have houtside := (stranded_mem_record_drawnAlong h).mp report
    exact .inr (.inr (by simpa using (List.mem_filter.mp houtside).2))

end Reports

/-- The list of the ids of a chain has the place of the chain. -/
theorem getElem?_map_ids {i : ℕ} {c : Chain} (hc : chains[i]? = some c) :
    (chains.map Chain.ids)[i]? = some c.ids := by
  rw [List.getElem?_map, hc]
  rfl

section Accounts

variable (hcover : GreedyCover g (chains.map Chain.ids))
include hcover

/-- A node is the node of one step. -/
theorem step_unique {c d : Chain} {s t : Step} (hc : c ∈ chains) (hd : d ∈ chains)
    (hs : s ∈ c.steps) (ht : t ∈ d.steps) (hid : s.id = t.id) : s = t := by
  have hnodup : ((chains.flatMap Chain.steps).map (·.id)).Nodup := by
    rw [List.map_flatMap, List.flatMap_def]
    exact hcover.nodup
  exact List.inj_on_of_nodup_map hnodup (List.mem_flatMap.mpr ⟨c, hc, hs⟩)
    (List.mem_flatMap.mpr ⟨d, hd, ht⟩) hid

/-- A connection that lapses is in no chain. -/
theorem not_realized_of_lapses (hlapses : Lapses g chains source target) :
    ¬ Realized chains source target := by
  obtain ⟨-, i, c, hi, hsource, d, hd, s, hs, rfl, -⟩ := hlapses
  obtain ⟨j, hlt, hj⟩ := mem_take_iff.mp hd
  rintro ⟨c', hc', hstep⟩
  obtain ⟨i', hi'⟩ := List.mem_iff_getElem?.mp hc'
  have hsource' : source ∈ c'.ids := by
    rw [← Wiring.map_fst_stepsOf c'.ids]
    exact List.mem_map_of_mem hstep
  have hi : i = i' := hcover.index_unique (getElem?_map_ids hi) (getElem?_map_ids hi') hsource
    hsource'
  have hj : j = i' := hcover.index_unique (getElem?_map_ids hj) (getElem?_map_ids hi')
    (List.mem_map_of_mem hs) (Wiring.mem_of_mem_stepsOf hstep)
  omega

/-- A connection that lapses is not reported. -/
theorem not_reported_of_lapses
    (h : (g.drawnAlong schema config (chains.map Chain.ids)).outcome = .ok chains)
    (hlapses : Lapses g chains source target) :
    ¬ Reported (g.drawnAlong schema config (chains.map Chain.ids)).record source target := by
  obtain ⟨hfork, i, c, hi, hsource, d, hd, s, hs, rfl, hplain⟩ := hlapses
  have hc := List.mem_of_getElem? hi
  intro hreported
  -- each kind of report contradicts one part of lapsing
  rcases of_reported h hreported with hforks | ⟨c', hc', s', hs', hstructural, hid⟩ | hout
  · exact hfork hforks
  · rw [step_unique hcover hc' (List.mem_of_mem_take hd) hs' hs hid, hplain] at hstructural
    exact Bool.false_ne_true hstructural
  · exact hout (List.mem_flatten_of_mem (List.mem_map_of_mem hc) hsource)

/-- A target in an earlier chain is reported if it is structural, since other nodes lead to it. -/
theorem reported_or_lapses
    (h : (g.drawnAlong schema config (chains.map Chain.ids)).outcome = .ok chains) {i : ℕ}
    {c d : Chain} {s : Step} (hi : chains[i]? = some c) (hsource : source ∈ c.ids)
    (hd : d ∈ chains.take i) (hs : s ∈ d.steps) (hjoins : g.Joins source s.id)
    (hfork : ¬ g.Forks source) :
    Reported (g.drawnAlong schema config (chains.map Chain.ids)).record source s.id ∨
      Lapses g chains source s.id := by
  cases hstructural : s.isStructural with
  | false => exact .inr ⟨hfork, i, c, hi, hsource, d, hd, s, hs, rfl, hstructural⟩
  | true =>
    obtain ⟨j, hlt, hj⟩ := mem_take_iff.mp hd
    have hinputs := hcover.one_lt_inputCount (getElem?_map_ids hi) hsource (getElem?_map_ids hj)
      (List.mem_map_of_mem hs) (by omega) hjoins
    exact .inl (reported_of_structural h (List.mem_of_mem_take hd) hs hstructural hinputs)

/-- A connection that does not lapse is in a chain or reported. -/
theorem realized_or_reported_or_lapses
    (h : (g.drawnAlong schema config (chains.map Chain.ids)).outcome = .ok chains)
    (hjoins : g.Joins source target) :
    Realized chains source target ∨
      Reported (g.drawnAlong schema config (chains.map Chain.ids)).record source target ∨
      Lapses g chains source target := by
  by_cases hsource : source ∈ (chains.map Chain.ids).flatten
  · obtain ⟨ids, hids, hmem⟩ := List.mem_flatten.mp hsource
    obtain ⟨c, hc, rfl⟩ := List.mem_map.mp hids
    obtain ⟨i, hi⟩ := List.mem_iff_getElem?.mp hc
    obtain ⟨next, hstep⟩ := Wiring.exists_mem_stepsOf hmem
    by_cases hnext : next = some target
    · exact .inl ⟨c, hc, hnext ▸ hstep⟩
    by_cases hfork : g.Forks source
    · have hsteps := List.mem_flatMap.mpr ⟨c.ids, hids, hstep⟩
      exact .inr (.inl (reported_of_forks h hjoins hsteps hfork hnext))
    -- nothing else could follow, so an earlier chain has the target
    obtain ⟨k, hk, rfl⟩ := Wiring.mem_stepsOf_iff.mp hstep
    rcases hcover.successor_of_not_forks (getElem?_map_ids hi) hk hjoins hfork with
      ⟨hnext', -⟩ | ⟨-, hbefore⟩
    · exact absurd hnext' hnext
    rw [← List.map_take] at hbefore
    obtain ⟨ids', hids', htarget⟩ := List.mem_flatten.mp hbefore
    obtain ⟨d, hd, rfl⟩ := List.mem_map.mp hids'
    obtain ⟨s, hs, rfl⟩ := List.mem_map.mp htarget
    exact .inr (reported_or_lapses hcover h hi hmem hd hs hjoins hfork)
  · exact .inr (.inl (reported_of_not_mem h hjoins hsource))

end Accounts

/-- **Where connections go.**  In a patch that compiles, each connection that counts is in a chain,
or reported, or lapses; and it lapses only if it is neither in a chain nor reported. -/
theorem compile_accounts {compiled : Compiled} (h : g.compile schema config = .ok compiled) :
    ∃ chains, (g.drawn schema config).outcome = .ok chains ∧
      ∀ source target, g.Joins source target →
        (¬ (Realized chains source target ∨ Reported compiled.diagnostics source target) ↔
          Lapses g chains source target) := by
  obtain ⟨chains, arrangements, hdrawn, -, rfl⟩ := compile_eq_ok_iff.mp h
  obtain ⟨-, -, hcover, heq⟩ := drawn_along_ids hdrawn
  refine ⟨chains, hdrawn, fun source target hjoins => ?_⟩
  rw [heq] at hdrawn
  show ¬ (_ ∨ Reported (g.drawn schema config).record source target) ↔ _
  rw [heq]
  constructor
  · intro hlost
    rcases realized_or_reported_or_lapses hcover hdrawn hjoins with hin | hreported | hlapses
    · exact absurd (.inl hin) hlost
    · exact absurd (.inr hreported) hlost
    · exact hlapses
  · rintro hlapses (hin | hreported)
    · exact not_realized_of_lapses hcover hlapses hin
    · exact not_reported_of_lapses hcover hdrawn hlapses hreported

/-- Two sources into one effect. -/
def sharedEffectPatch : Graph where
  nodes := [
    ({ id := "kick", type := "drums" } : Node).setProperty "s" (.text "bd"),
    ({ id := "hat", type := "drums" } : Node).setProperty "s" (.text "hh"),
    ({ id := "loud", type := "gain" } : Node).setProperty "gain" (.integer 2)]
  connections := [⟨"kick", "loud"⟩, ⟨"hat", "loud"⟩]

/-- The connection from the second source is not in the code, and no diagnostic says so. -/
theorem sharedEffectPatch_loses_hat :
    ∃ compiled chains, sharedEffectPatch.compile wrappedSchema .standard = .ok compiled ∧
      (sharedEffectPatch.drawn wrappedSchema .standard).outcome = .ok chains ∧
      compiled.diagnostics = [] ∧ sharedEffectPatch.Joins "hat" "loud" ∧
      ¬ (Realized chains "hat" "loud" ∨ Reported compiled.diagnostics "hat" "loud") := by
  refine ⟨_, _, rfl, rfl, rfl, by unfold Joins; decide, ?_⟩
  rintro (hin | hreported)
  · revert hin
    unfold Realized
    decide
  · exact not_reported_nil hreported

/-- The second connection into an effect that is not structural lapses, and no other. -/
theorem compile_accounts_sharedEffectPatch :
    ∃ compiled, sharedEffectPatch.compile wrappedSchema .standard = .ok compiled ∧
      ∃ chains, (sharedEffectPatch.drawn wrappedSchema .standard).outcome = .ok chains ∧
        ∀ source target, sharedEffectPatch.Joins source target →
          (¬ (Realized chains source target ∨ Reported compiled.diagnostics source target) ↔
            Lapses sharedEffectPatch chains source target) :=
  ⟨_, rfl, compile_accounts rfl⟩

end Graph

end Patchbay
