import Patchbay.Proofs.Chain.Fragment
import Patchbay.Proofs.Wiring.Drawing

/-!
# The code of a patch

The chains of a patch are as `Chain.Drawn` wants them: they cover the patch, so each has a head and
no id is in them twice, and their steps are resolved nodes.  The code is therefore the line of their
fragments (`code_compile`).
-/

namespace Patchbay

/-- Expressions that are all there are all on the line. -/
theorem Pattern.code_eq_intercalate {arrangements : List Arrangement} {texts : List String}
    (h : List.Forall₂ (fun a text => (ofArrangement? a).map render = some text) arrangements
      texts) : code arrangements = " ".intercalate texts := by
  have hrendered : (arrangements.filterMap ofArrangement?).map render = texts := by
    induction h with
    | nil => rfl
    | cons htext _ ih =>
      obtain ⟨pattern, hpattern, hrender⟩ := Option.map_eq_some_iff.mp htext
      rw [List.filterMap_cons_some hpattern, List.map_cons, hrender, ih]
  rw [code, line, hrendered]

namespace Graph

variable {g : Graph} {schema : Schema} {config : Config} {chains : List Chain}

/-- The chains of a patch have heads, distinct ids, and no steps made by a fold. -/
theorem drawn_of_mem (h : (g.drawn schema config).outcome = .ok chains) {c : Chain}
    (hc : c ∈ chains) : c.Drawn := by
  obtain ⟨w, hwire, hchains⟩ := outcome_drawn_eq_ok.mp h
  have hcover := ids_greedyCover hwire hchains
  have hids : c.ids ∈ chains.map Chain.ids := List.mem_map_of_mem hc
  refine ⟨?nonempty, ?nodup, fun _ hs => Wiring.synthetic_of_outcome_chains hchains hc hs⟩
  case nonempty =>
    -- the first elements of the cover are the roots, so no list of it is empty
    intro hnil
    have hhead : c.ids.head? ∈ (chains.map Chain.ids).map List.head? := List.mem_map_of_mem hids
    rw [hcover.heads, Chain.ids, hnil] at hhead
    obtain ⟨root, -, hroot⟩ := List.mem_map.mp hhead
    exact absurd hroot (by simp)
  case nodup =>
    exact (List.nodup_flatten.mp hcover.nodup).1 _ hids

/-- Chains that are found are drawn, and each is folded to the arrangement at its place. -/
theorem forall₂_drawn {arrangements : List Arrangement}
    (hdrawn : (g.drawn schema config).outcome = .ok chains)
    (hfolded : List.Forall₂ (fun c a => (c.arrange.fold config).outcome = .ok a) chains
      arrangements) :
    List.Forall₂ (fun c a => c.Drawn ∧ (c.arrange.fold config).outcome = .ok a) chains
      arrangements :=
  (List.forall₂_and_left chains arrangements).mpr ⟨fun _ hc => drawn_of_mem hdrawn hc, hfolded⟩

/-- A patch whose chains cannot be found fails for that reason. -/
theorem compile_of_drawn_error {e : Failure} (h : (g.drawn schema config).outcome = .error e) :
    g.compile schema config = .error e := by
  simp [compile, h, bind, Except.bind]

/-- A patch whose chains are found compiles if they can be folded. -/
theorem compile_of_drawn_ok (h : (g.drawn schema config).outcome = .ok chains) :
    g.compile schema config = match (folded config chains).outcome with
      | .ok arrangements => .ok {
          code := Pattern.code arrangements
          chains := arrangements
          inputChains := chains.length
          rulesApplied := firstMeetings (folded config chains).record
          diagnostics := (g.drawn schema config).record }
      | .error e => .error e := by
  simp only [compile, h, bind, Except.bind]
  cases (folded config chains).outcome <;> rfl

/-- A patch compiles exactly when its chains are found and all of them are folded. -/
theorem compile_eq_ok_iff {compiled : Compiled} :
    g.compile schema config = .ok compiled ↔
      ∃ chains arrangements, (g.drawn schema config).outcome = .ok chains ∧
        (folded config chains).outcome = .ok arrangements ∧
        compiled = {
          code := Pattern.code arrangements
          chains := arrangements
          inputChains := chains.length
          rulesApplied := firstMeetings (folded config chains).record
          diagnostics := (g.drawn schema config).record } := by
  constructor
  · intro h
    cases hdrawn : (g.drawn schema config).outcome with
    | error e => simp [compile_of_drawn_error hdrawn] at h
    | ok chains =>
      rw [compile_of_drawn_ok hdrawn] at h
      cases hfolded : (folded config chains).outcome with
      | error e => simp [hfolded] at h
      | ok arrangements =>
        rw [hfolded] at h
        exact ⟨chains, arrangements, rfl, hfolded, (Except.ok.inj h).symm⟩
  · rintro ⟨chains, arrangements, hdrawn, hfolded, rfl⟩
    rw [compile_of_drawn_ok hdrawn, hfolded]

/-- A patch that compiles has chains; they are arranged and folded one by one, and the code is that
of the results. -/
theorem exists_of_compile {compiled : Compiled} (h : g.compile schema config = .ok compiled) :
    ∃ chains, (g.drawn schema config).outcome = .ok chains ∧
      List.Forall₂ (fun c a => (c.arrange.fold config).outcome = .ok a) chains compiled.chains ∧
      compiled.code = Pattern.code compiled.chains := by
  obtain ⟨chains, arrangements, hdrawn, hfolded, rfl⟩ := compile_eq_ok_iff.mp h
  exact ⟨chains, hdrawn, Recorded.outcome_mapM_eq_ok.mp hfolded, rfl⟩

/-- **The code is the line of the fragments.**  Whenever a patch compiles, its code is the fragments
of the chains found in it, in their order and with a space between them, one for each chain. -/
theorem code_compile {compiled : Compiled} (h : g.compile schema config = .ok compiled) :
    ∃ chains, (g.drawn schema config).outcome = .ok chains ∧ (∀ c ∈ chains, c.steps ≠ []) ∧
      compiled.code = " ".intercalate (chains.map (Chain.fragment config)) := by
  obtain ⟨chains, hdrawn, hfolded, hcode⟩ := exists_of_compile h
  refine ⟨chains, hdrawn, fun c hc => (drawn_of_mem hdrawn hc).nonempty, ?_⟩
  rw [hcode]
  apply Pattern.code_eq_intercalate
  rw [List.forall₂_map_right_iff]
  refine List.Forall₂.flip ?_
  exact (forall₂_drawn hdrawn hfolded).imp fun c a ⟨hc, hfold⟩ => hc.render_fragment hfold

/-- A patch of one chain with a wrapper, whose stage is later than that of both factors. -/
def wrappedPatch : Graph where
  nodes := [
    { id := "kick", type := "drums", properties := pattern "s" (.text "bd") },
    { id := "loud", type := "gain", properties := pattern "gain" (.integer 3) },
    { id := "both", type := "jux", properties := pattern "f" (.text "rev") },
    { id := "louder", type := "gain", properties := pattern "gain" (.integer 2) }]
  connections := [⟨"kick", "loud"⟩, ⟨"loud", "both"⟩, ⟨"both", "louder"⟩]
where
  /-- The properties of a node with one pattern property. -/
  pattern (name : String) (value : Json) : Dictionary Json :=
    .ofList [(Node.standardKey, .object [(name, value)])]

/-- A source and a wrapper with arguments, and an effect. -/
def wrappedSchema : Schema where
  types := .ofList [
    ("drums", { NodeType.ofCategory "drums" .source with argument := some "s" }),
    ("gain", .ofCategory "gain" .modulation),
    ("jux", { NodeType.ofCategory "jux" .wrapper with argument := some "f" })]

/-- The factors on both sides of the wrapper are multiplied, because its stage comes later. -/
theorem code_compile_wrappedPatch :
    ∃ compiled, wrappedPatch.compile wrappedSchema .standard = .ok compiled ∧
      compiled.code = "jux(drums(\"bd\").gain(6), \"rev\")" ∧
      ∃ chains, (wrappedPatch.drawn wrappedSchema .standard).outcome = .ok chains ∧
        (∀ c ∈ chains, c.steps ≠ []) ∧
        compiled.code = " ".intercalate (chains.map (Chain.fragment .standard)) :=
  ⟨_, rfl, by decide +kernel, code_compile rfl⟩

end Graph

end Patchbay
