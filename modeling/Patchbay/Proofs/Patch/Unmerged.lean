import Patchbay.Proofs.Patch.Accounted

/-!
# Inputs that are not merged

A structural step is reported if several connections lead to it.  The report is not about the chain
of the step, but it says something about it: the step has an input from outside of its chain, or the
step before it feeds it more than once.  `compile_unmerged_iff` says that nothing else is reported.

The second case is not one of an input that is missing: `doubledPatch` has a structural step that
only the step before it feeds, by two connections, and it is reported.

## Shape of the proof

* a step that something leads to is not the head of its chain, so the step before it feeds it
  (`GreedyCover.exists_step_before`), and only one step is before it (`source_unique`);
* several connections lead to it if one differs from that of the step before it, or if that one is
  there several times (`one_lt_countP_iff`).
-/

namespace Patchbay

/-- Beside one element with a property there are others if another element has it or this one is
repeated. -/
theorem one_lt_countP_iff {α : Type} [BEq α] [LawfulBEq α] {l : List α} {p : α → Bool} {a : α}
    (ha : a ∈ l) (hpa : p a) :
    1 < l.countP p ↔ (∃ b ∈ l, p b ∧ b ≠ a) ∨ 1 < l.count a := by
  constructor
  · intro hmany
    by_cases hother : ∃ b ∈ l, p b ∧ b ≠ a
    · exact .inl hother
    · -- only this element has the property, so it is counted alone
      have honly : ∀ b ∈ l, p b ↔ (b == a) = true := fun b hb => by
        rw [beq_iff_eq]
        exact ⟨fun hpb => by_contra fun hne => hother ⟨b, hb, hpb, hne⟩, fun heq => heq ▸ hpa⟩
      rw [List.countP_congr honly] at hmany
      exact .inr hmany
  · rintro (⟨b, hb, hpb, hne⟩ | hrepeated)
    · rw [List.countP_eq_length_filter]
      exact one_lt_length_of_ne (List.mem_filter.mpr ⟨hb, hpb⟩) (List.mem_filter.mpr ⟨ha, hpa⟩) hne
    · have hle : l.count a ≤ l.countP p :=
        List.countP_mono_left fun b _ hba => beq_iff_eq.mp hba ▸ hpa
      exact hrepeated.trans_le hle

namespace Wiring

/-- In a route without repetitions only one element is before another. -/
theorem source_unique {α : Type} {route : List α} (hroute : route.Nodup) {a b target : α}
    (ha : (a, some target) ∈ stepsOf route) (hb : (b, some target) ∈ stepsOf route) : a = b := by
  obtain ⟨i, hi, hnext⟩ := mem_stepsOf_iff.mp ha
  obtain ⟨j, hj, hnext'⟩ := mem_stepsOf_iff.mp hb
  have hlt := (List.getElem?_eq_some_iff.mp hnext).1
  have hplace := (List.getElem?_inj hlt hroute).mp (hnext.trans hnext'.symm)
  -- the element after both is at one place, so they are at the place before it
  obtain rfl : i = j := by omega
  exact Option.some.inj (hi.symm.trans hj)

end Wiring

namespace Graph

variable {g : Graph} {schema : Schema} {config : Config} {cover : List (List String)}
  {chain : List String} {id : String}

/-- A connection that counts leads to a node from one that is not directly before it in its
chain. -/
def FedFromOutside (g : Graph) (chain : List String) (id : String) : Prop :=
  ∃ source, g.Joins source id ∧ (source, some id) ∉ Wiring.stepsOf chain

/-- The node directly before another in its chain feeds that by several connections. -/
def FedRepeatedly (g : Graph) (chain : List String) (id : String) : Prop :=
  ∃ source, (source, some id) ∈ Wiring.stepsOf chain ∧ 1 < g.connections.count ⟨source, id⟩

/-- A connection between nodes counts as often as it is there. -/
theorem count_counted {c : Connection} (hc : c ∈ g.counted) :
    g.counted.count c = g.connections.count c := by
  obtain ⟨-, hsource, htarget⟩ := mem_counted.mp hc
  exact List.count_filter (by simp [hsource, htarget])

/-- **Several connections lead to a node of a cover** if one of them comes from outside, or if the
node before it feeds it repeatedly. -/
theorem one_lt_inputCount_iff (hcover : GreedyCover g cover) (hchain : chain ∈ cover)
    (hid : id ∈ chain) :
    1 < g.inputCount id ↔ g.FedFromOutside chain id ∨ g.FedRepeatedly chain id := by
  have hnodup : chain.Nodup := (List.nodup_flatten.mp hcover.nodup).1 chain hchain
  by_cases hfed : ∃ source, g.Joins source id
  · obtain ⟨source, hjoins⟩ := hfed
    obtain ⟨before, hstep, hbefore⟩ := hcover.exists_step_before hchain hid hjoins
    -- nothing but that step is directly before the node, so both sides speak of its connection
    have honly : ∀ a, (a, some id) ∈ Wiring.stepsOf chain ↔ a = before := fun a =>
      ⟨fun ha => Wiring.source_unique hnodup ha hstep, fun heq => heq ▸ hstep⟩
    rw [inputCount, one_lt_countP_iff hbefore (beq_self_eq_true id), count_counted hbefore]
    simp only [FedFromOutside, FedRepeatedly, honly, exists_eq_left]
    refine or_congr_left ⟨?_, ?_⟩
    · rintro ⟨⟨a, _⟩, hc, htarget, hne⟩
      obtain rfl := beq_iff_eq.mp htarget
      exact ⟨a, hc, fun heq => hne (heq ▸ rfl)⟩
    · rintro ⟨a, ha, hne⟩
      exact ⟨⟨a, id⟩, ha, beq_self_eq_true id, fun heq => hne (congrArg Connection.source heq)⟩
  · -- nothing leads to the node, neither from outside nor from the node before it
    have hnone : g.inputCount id = 0 := List.countP_eq_zero.mpr fun c hc htarget =>
      hfed ⟨c.source, by rwa [← beq_iff_eq.mp htarget]⟩
    rw [hnone]
    refine iff_of_false (Nat.not_lt_zero 1) ?_
    rintro (⟨source, hjoins, -⟩ | ⟨source, hstep, -⟩)
    · exact hfed ⟨source, hjoins⟩
    · obtain ⟨k, hk, hnext⟩ := Wiring.mem_stepsOf_iff.mp hstep
      obtain ⟨hlt, rfl⟩ := List.getElem?_eq_some_iff.mp hnext
      exact hfed ⟨_, List.isChain_iff_getElem.mp (hcover.joined chain hchain) k hlt⟩

/-- **Which structural steps are reported.**  In a patch that compiles, a structural step of a chain
is reported exactly if a connection leads to it from a node that is not directly before it in its
chain, or the node directly before it feeds it by several connections. -/
theorem compile_unmerged_iff {compiled : Compiled} (h : g.compile schema config = .ok compiled) :
    ∃ chains, (g.drawn schema config).outcome = .ok chains ∧
      ∀ c ∈ chains, ∀ s ∈ c.steps, s.isStructural →
        ((∃ inputs, .unmerged s.id inputs ∈ compiled.diagnostics) ↔
          g.FedFromOutside c.ids s.id ∨ g.FedRepeatedly c.ids s.id) := by
  obtain ⟨chains, arrangements, hdrawn, -, rfl⟩ := compile_eq_ok_iff.mp h
  obtain ⟨-, -, hcover, heq⟩ := drawn_along_ids hdrawn
  refine ⟨chains, hdrawn, fun c hc s hs hstructural => ?_⟩
  rw [heq] at hdrawn
  show (∃ inputs, .unmerged s.id inputs ∈ (g.drawn schema config).record) ↔ _
  rw [heq, ← one_lt_inputCount_iff hcover (List.mem_map_of_mem hc) (List.mem_map_of_mem hs)]
  simp only [unmerged_mem_record_drawnAlong hdrawn]
  constructor
  · rintro ⟨inputs, -, hmany, -⟩
    exact hmany
  · exact fun hmany => ⟨_, ⟨c, hc, s, hs, hstructural, rfl⟩, hmany, rfl⟩

/-- A source and a combinator. -/
def mixingSchema : Schema where
  types := .ofList [
    ("drums", { NodeType.ofCategory "drums" .source with argument := some "s" }),
    ("stack", { NodeType.ofCategory "stack" .structural with kind := some .stack })]

/-- A source into a combinator, twice. -/
def doubledPatch : Graph where
  nodes := [
    ({ id := "kick", type := "drums" } : Node).setProperty "s" (.text "bd"),
    { id := "mix", type := "stack" }]
  connections := [⟨"kick", "mix"⟩, ⟨"kick", "mix"⟩]

/-- The combinator is reported although nothing but the step before it feeds it. -/
theorem doubledPatch_reports_mix :
    ∃ compiled chains, doubledPatch.compile mixingSchema .standard = .ok compiled ∧
      (doubledPatch.drawn mixingSchema .standard).outcome = .ok chains ∧
      compiled.diagnostics = [.unmerged "mix" 2] ∧
      ∃ c ∈ chains, ∃ s ∈ c.steps, s.isStructural ∧ s.id = "mix" ∧
        ¬ ((∃ inputs, .unmerged s.id inputs ∈ compiled.diagnostics) ↔
          doubledPatch.FedFromOutside c.ids s.id) := by
  refine ⟨_, _, rfl, rfl, rfl, _, List.mem_cons_self, _, List.mem_cons_of_mem _ List.mem_cons_self,
    rfl, rfl, fun hiff => ?_⟩
  obtain ⟨source, hjoins, hstep⟩ := hiff.mp ⟨2, List.mem_cons_self⟩
  obtain ⟨hmem, -⟩ := mem_counted.mp hjoins
  have hkick : source = "kick" := by simpa [doubledPatch] using hmem
  subst hkick
  exact hstep (by decide)

/-- Two sources into a combinator, one of them twice. -/
def layeredPatch : Graph where
  nodes := [
    ({ id := "kick", type := "drums" } : Node).setProperty "s" (.text "bd"),
    ({ id := "hat", type := "drums" } : Node).setProperty "s" (.text "hh"),
    { id := "mix", type := "stack" }]
  connections := [⟨"hat", "mix"⟩, ⟨"kick", "mix"⟩, ⟨"hat", "mix"⟩]

/-- Both reasons at once: one source from outside of the chain, and the other one twice. -/
theorem compile_unmerged_iff_layeredPatch :
    ∃ compiled, layeredPatch.compile mixingSchema .standard = .ok compiled ∧
      compiled.diagnostics = [.unmerged "mix" 3] ∧
      ∃ chains, (layeredPatch.drawn mixingSchema .standard).outcome = .ok chains ∧
        ∀ c ∈ chains, ∀ s ∈ c.steps, s.isStructural →
          ((∃ inputs, .unmerged s.id inputs ∈ compiled.diagnostics) ↔
            layeredPatch.FedFromOutside c.ids s.id ∨ layeredPatch.FedRepeatedly c.ids s.id) :=
  ⟨_, rfl, rfl, compile_unmerged_iff rfl⟩

end Graph

end Patchbay
