import Patchbay.Proofs.Datum.Shown
import Patchbay.Report

/-!
# Reports are read back

A report that is turned into a JSON value and read back is the same report
(`Report.decode_toJson`).  Two things do not survive: a number that is not finite, which is `null`
in JSON, and a stage with the name of another one, which is read as that one.

## Shape of the proof

* type by type, what is written is read back from every datum that shows it: `Property.roundTrips`,
  `Step.roundTrips`, `Chain.roundTrips`, `Arrangement.roundTrips`, `Diagnostic.roundTrips`,
  `Metadata.roundTrips` and, out of these, `Report.roundTrips`;
* no object in a report has two members with one key (`Report.distinctKeys_toJson`), so the JSON
  value of the report shows it, with its members in any order.
-/

namespace Patchbay

/-! ## Properties -/

theorem Value.roundTrips {v : Value} (h : v.isFinite) : RoundTrips decode toJson v := by
  intro dialect d hd
  cases v with
  | flag on =>
    obtain rfl : d = .bool on := hd
    rfl
  | number x =>
    have hx : x.isFinite := h
    rw [toJson, if_pos hx] at hd
    obtain rfl : d = .number x := hd
    rfl
  | text s =>
    obtain rfl : d = .text s := hd
    rfl

theorem Property.roundTrips {p : Property} (h : p.value.isFinite) : RoundTrips decode toJson p := by
  intro dialect d hd
  obtain ⟨r, hr, hshows⟩ := Record.exists_shows ["name", "value"] (by simp) hd dialect
  have hname := hshows.required "name" (.text p.name) rfl
  have hvalue := hshows.required "value" (Value.roundTrips h) rfl
  simp [decode, hr, hname, hvalue]

/-! ## Steps -/

theorem Category.roundTrips (c : Category) : RoundTrips decode (fun c => .text c.name) c := by
  rintro dialect _ rfl
  exact ofName?_name c

theorem Combinator.roundTrips (c : Combinator) : RoundTrips decode (fun c => .text c.name) c := by
  rintro dialect _ rfl
  exact ofName?_name c

namespace Stage

/-- A stage that its name stands for: no other stage has the name. -/
def Storable : Stage → Prop
  | standard _ => True
  | custom name => Category.ofName? name = none

instance : DecidablePred Storable
  | standard _ => inferInstanceAs (Decidable True)
  | custom name => inferInstanceAs (Decidable (Category.ofName? name = none))

/-- A storable stage is the one that its name stands for. -/
theorem ofName_name {stage : Stage} (h : stage.Storable) : ofName stage.name = stage := by
  cases stage with
  | standard category => rw [name, ofName, Category.ofName?_name]
  | custom s =>
    have hs : Category.ofName? s = none := h
    rw [name, ofName, hs]

/-- A storable stage is read back from its name. -/
theorem roundTrips {stage : Stage} (h : stage.Storable) :
    RoundTrips decode (fun stage => .text stage.name) stage := by
  rintro dialect _ rfl
  exact congrArg some (ofName_name h)

/-- A stage that is read is the one that its name stands for. -/
theorem storable_of_decode {dialect : Dialect} {d : Datum} {stage : Stage}
    (h : decode dialect d = some stage) : stage.Storable := by
  obtain ⟨name, -, rfl⟩ := Option.map_eq_some_iff.mp h
  unfold ofName
  split
  next => exact trivial
  next hname => exact hname

end Stage

/-- A step with finite numbers, and a stage that its name stands for. -/
def Step.Storable (s : Step) : Prop :=
  (∀ p ∈ s.properties, p.value.isFinite) ∧ ∀ stage ∈ s.stage, stage.Storable

instance (s : Step) : Decidable s.Storable :=
  inferInstanceAs (Decidable ((∀ p ∈ s.properties, p.value.isFinite) ∧ ∀ stage ∈ s.stage, _))

/-- A chain of such steps. -/
def Chain.Storable (c : Chain) : Prop := ∀ s ∈ c.steps, s.Storable

instance (c : Chain) : Decidable c.Storable := inferInstanceAs (Decidable (∀ s ∈ c.steps, _))

/-- An optional name is a text or `null`. -/
theorem Json.ofText?_map {α : Type} (name : α → String) (o : Option α) :
    ofText? (o.map name) = (o.map fun a => text (name a)).getD .null := by
  cases o <;> rfl

theorem Step.roundTrips {s : Step} (h : s.Storable) : RoundTrips decode toJson s := by
  intro dialect d hd
  obtain ⟨r, hr, hshows⟩ := Record.exists_shows ["id", "nodeType", "category", "stage", "wraps",
    "call", "argument", "kind", "properties", "synthetic"]
    (by cases s.argument <;> cases s.kind <;> simp) hd dialect
  have hid := hshows.required "id" (.text s.id) rfl
  have hnodeType := hshows.required "nodeType" (.text s.nodeType) rfl
  have hcategory := hshows.nullable "category" (fun c _ => Category.roundTrips c) (fun c => by simp)
    (congrArg some (Json.ofText?_map Category.name s.category))
  have hstage := hshows.nullable "stage" (fun c hc => Stage.roundTrips (h.2 c hc))
    (fun c => by simp) (congrArg some (Json.ofText?_map Stage.name s.stage))
  have hwraps := hshows.required "wraps" (.bool s.wraps) rfl
  have hcall := hshows.required "call" (.text s.call) rfl
  -- the places of the other members depend on which of the two optional ones there are
  have hargument : r.optional "argument" Datum.text? = some s.argument :=
    hshows.optional "argument" (fun a _ => .text a) (fun a => by simp)
      (by cases s.argument <;> cases s.kind <;> rfl)
  have hkind : r.optional "kind" Combinator.decode = some s.kind :=
    hshows.optional "kind" (fun c _ => Combinator.roundTrips c) (fun c => by simp)
      (by cases s.argument <;> cases s.kind <;> rfl)
  have hproperties : r.required "properties" (Datum.list? Property.decode) = some s.properties :=
    hshows.required "properties" (.list fun p hp => Property.roundTrips (h.1 p hp))
      (by cases s.argument <;> cases s.kind <;> rfl)
  have hsynthetic : r.withDefault "synthetic" Datum.bool? false = some s.synthetic :=
    hshows.withDefault "synthetic" (.bool s.synthetic)
      (.inl (by cases s.argument <;> cases s.kind <;> rfl))
  simp [decode, hr, hid, hnodeType, hcategory, hstage, hwraps, hcall, hargument, hkind,
    hproperties, hsynthetic]

/-! ## Chains -/

theorem Chain.roundTrips {c : Chain} (h : c.Storable) : RoundTrips decode toJson c := by
  intro dialect d hd
  obtain ⟨r, hr, hshows⟩ := Record.exists_shows ["nodes"] (by simp [members]) hd dialect
  have hnodes := hshows.required "nodes" (.list fun s hs => Step.roundTrips (h s hs)) rfl
  simp [decode, hr, hnodes]

/-- An arrangement of such chains. -/
def Arrangement.Storable : Arrangement → Prop
  | plain chain => chain.Storable
  | wrapped wrapper inner outer => wrapper.Storable ∧ inner.Storable ∧ outer.Storable

instance : DecidablePred Arrangement.Storable
  | .plain chain => inferInstanceAs (Decidable chain.Storable)
  | .wrapped wrapper inner outer =>
    inferInstanceAs (Decidable (wrapper.Storable ∧ inner.Storable ∧ outer.Storable))

/-- An arrangement is read back, of the kind that it is tagged with. -/
theorem Arrangement.roundTrips {a : Arrangement} (h : a.Storable) : RoundTrips decode toJson a := by
  intro dialect d hd
  cases a with
  | plain chain =>
    -- a plain arrangement has its steps beside the tag, and not in a member of its own
    obtain ⟨fields, hkind, hfields⟩ := Json.exists_kinded hd
    have hchain := Chain.roundTrips h .tagged fields hfields
    simp [decode, hkind, decodeKind, hchain]
  | wrapped wrapper inner outer =>
    obtain ⟨content, r, hkind, hr, hshows⟩ :=
      Record.exists_shows_kinded ["wrapper", "innerChain", "outerChain"] (by simp) hd .tagged
    have hwrapper := hshows.required "wrapper" (Step.roundTrips h.1) rfl
    have hinner := hshows.required "innerChain" (Chain.roundTrips h.2.1) rfl
    have houter := hshows.required "outerChain" (Chain.roundTrips h.2.2) rfl
    simp [decode, hkind, decodeKind, hr, hwrapper, hinner, houter]

/-! ## Diagnostics -/

/-- A diagnostic is read back: what it holds is read in any case. -/
theorem Diagnostic.roundTrips (d : Diagnostic) : RoundTrips decode toJson d := by
  intro dialect datum hdatum
  cases d with
  | unknownType node type =>
    obtain ⟨content, r, hkind, hr, hshows⟩ :=
      Record.exists_shows_kinded ["node", "node_type"] (by simp) hdatum .tagged
    have hnode := hshows.required "node" (.text node) rfl
    have htype := hshows.required "node_type" (.text type) rfl
    simp [decode, hkind, decodeKind, hr, hnode, htype]
  | dangling source target =>
    obtain ⟨content, r, hkind, hr, hshows⟩ :=
      Record.exists_shows_kinded ["source", "target"] (by simp) hdatum .tagged
    have hsource := hshows.required "source" (.text source) rfl
    have htarget := hshows.required "target" (.text target) rfl
    simp [decode, hkind, decodeKind, hr, hsource, htarget]
  | fanOut node followed skipped =>
    obtain ⟨content, r, hkind, hr, hshows⟩ :=
      Record.exists_shows_kinded ["node", "followed", "skipped"] (by simp) hdatum .tagged
    have hnode := hshows.required "node" (.text node) rfl
    have hfollowed : r.nullable "followed" Datum.text? = some followed :=
      hshows.nullable "followed" (fun s _ => .text s) (fun s => by simp) (by cases followed <;> rfl)
    have hskipped := hshows.required "skipped" (.texts skipped) rfl
    simp [decode, hkind, decodeKind, hr, hnode, hfollowed, hskipped]
  | stranded node =>
    obtain ⟨content, r, hkind, hr, hshows⟩ :=
      Record.exists_shows_kinded ["node"] (by simp) hdatum .tagged
    have hnode := hshows.required "node" (.text node) rfl
    simp [decode, hkind, decodeKind, hr, hnode]
  | headNotSource node =>
    obtain ⟨content, r, hkind, hr, hshows⟩ :=
      Record.exists_shows_kinded ["node"] (by simp) hdatum .tagged
    have hnode := hshows.required "node" (.text node) rfl
    simp [decode, hkind, decodeKind, hr, hnode]
  | unmerged node inputs =>
    obtain ⟨content, r, hkind, hr, hshows⟩ :=
      Record.exists_shows_kinded ["node", "inputs"] (by simp) hdatum .tagged
    have hnode := hshows.required "node" (.text node) rfl
    have hinputs := hshows.required "inputs" (.count inputs) rfl
    simp [decode, hkind, decodeKind, hr, hnode, hinputs]
  | headProperties node properties =>
    obtain ⟨content, r, hkind, hr, hshows⟩ :=
      Record.exists_shows_kinded ["node", "properties"] (by simp) hdatum .tagged
    have hnode := hshows.required "node" (.text node) rfl
    have hproperties := hshows.required "properties" (.texts properties) rfl
    simp [decode, hkind, decodeKind, hr, hnode, hproperties]

/-! ## Reports -/

theorem Metadata.roundTrips (m : Metadata) : RoundTrips decode toJson m := by
  intro dialect d hd
  obtain ⟨r, hr, hshows⟩ := Record.exists_shows
    ["inputChains", "outputPattern", "rulesApplied", "timestamp", "fingerprint"] (by simp) hd
    dialect
  have hinputChains := hshows.required "inputChains" (.count m.inputChains) rfl
  have houtputPattern := hshows.required "outputPattern" (.text m.outputPattern) rfl
  have hrulesApplied := hshows.required "rulesApplied" (.texts m.rulesApplied) rfl
  have htimestamp := hshows.required "timestamp" (.text m.timestamp) rfl
  have hfingerprint := hshows.required "fingerprint" (.text m.fingerprint) rfl
  simp [decode, hr, hinputChains, houtputPattern, hrulesApplied, htimestamp, hfingerprint]

/-- A report on such arrangements. -/
def Report.Storable (r : Report) : Prop := ∀ a ∈ r.chains, a.Storable

instance (r : Report) : Decidable r.Storable := inferInstanceAs (Decidable (∀ a ∈ r.chains, _))

/-- A storable report is read back. -/
theorem Report.roundTrips {report : Report} (h : report.Storable) :
    RoundTrips decode toJson report := by
  intro dialect d hd
  obtain ⟨r, hr, hshows⟩ := Record.exists_shows
    ["success", "code", "metadata", "chains", "error", "diagnostics"]
    (by cases report.error <;> cases report.diagnostics <;> simp) hd dialect
  have hsuccess := hshows.required "success" (.bool report.success) rfl
  have hcode := hshows.required "code" (.text report.code) rfl
  have hmetadata := hshows.nullable "metadata" (fun m _ => Metadata.roundTrips m)
    (fun m => by simp [Metadata.toJson]) rfl
  have hchains := hshows.required "chains" (.list fun a ha => Arrangement.roundTrips (h a ha)) rfl
  have herror : r.optional "error" Datum.text? = some report.error :=
    hshows.optional "error" (fun e _ => .text e) (fun e => by simp)
      (by cases report.error <;> cases report.diagnostics <;> rfl)
  -- no diagnostics are not written, and what is not there is read as none
  have hdiagnostics : r.withDefault "diagnostics" (Datum.list? Diagnostic.decode) []
      = some report.diagnostics := by
    refine hshows.withDefault "diagnostics" (.list fun d _ => Diagnostic.roundTrips d) ?_
    cases report.diagnostics with
    | nil => exact .inr ⟨by cases report.error <;> rfl, rfl⟩
    | cons d more => exact .inl (by cases report.error <;> rfl)
  simp [decode, hr, hsuccess, hcode, hmetadata, hchains, herror, hdiagnostics]

/-! ## Distinct keys -/

namespace Json

/-- An array has distinct keys if its items have. -/
theorem haveDistinctKeys_map {α : Type} {write : α → Json} {items : List α}
    (h : ∀ a ∈ items, (write a).DistinctKeys) : HaveDistinctKeys (items.map write) :=
  haveDistinctKeys_iff.mpr (by simpa using h)

theorem distinctKeys_ofTexts (items : List String) : (ofTexts items).DistinctKeys :=
  haveDistinctKeys_map fun _ _ => trivial

theorem distinctKeys_ofText? (o : Option String) : (ofText? o).DistinctKeys := by
  cases o <;> trivial

end Json

theorem Value.distinctKeys_toJson (v : Value) : v.toJson.DistinctKeys := by
  cases v with
  | number x =>
    rw [toJson]
    split <;> trivial
  | _ => trivial

theorem Property.distinctKeys_toJson (p : Property) : p.toJson.DistinctKeys :=
  ⟨by simp, trivial, p.value.distinctKeys_toJson, trivial⟩

/-- A step has ten members at most, no two of one name. -/
theorem Step.distinctKeys_toJson (s : Step) : s.toJson.DistinctKeys := by
  have hproperties := Json.haveDistinctKeys_map fun p (_ : p ∈ s.properties) =>
    p.distinctKeys_toJson
  -- four forms: each of the two optional members is there or not
  refine ⟨by cases s.argument <;> cases s.kind <;> simp, ?_⟩
  cases s.argument <;> cases s.kind <;>
    simp [Json.MembersHaveDistinctKeys, Json.DistinctKeys, Json.distinctKeys_ofText?, hproperties]

theorem Chain.distinctKeys_toJson (c : Chain) : c.toJson.DistinctKeys :=
  ⟨by simp [members], Json.haveDistinctKeys_map fun s _ => s.distinctKeys_toJson, trivial⟩

/-- The tag of an arrangement is another key than those of its parts. -/
theorem Arrangement.distinctKeys_toJson (a : Arrangement) : a.toJson.DistinctKeys := by
  cases a with
  | plain chain => exact ⟨by simp [Chain.members], trivial, chain.distinctKeys_toJson.2⟩
  | wrapped wrapper inner outer =>
    exact ⟨by simp, trivial, wrapper.distinctKeys_toJson, inner.distinctKeys_toJson,
      outer.distinctKeys_toJson, trivial⟩

/-- The tag of a diagnostic is another key than those of its parts. -/
theorem Diagnostic.distinctKeys_toJson (d : Diagnostic) : d.toJson.DistinctKeys := by
  cases d with
  | unknownType node type => exact ⟨by simp, trivial, trivial, trivial, trivial⟩
  | dangling source target => exact ⟨by simp, trivial, trivial, trivial, trivial⟩
  | fanOut node followed skipped =>
    exact ⟨by simp, trivial, trivial, Json.distinctKeys_ofText? followed,
      Json.distinctKeys_ofTexts skipped, trivial⟩
  | stranded node => exact ⟨by simp, trivial, trivial, trivial⟩
  | headNotSource node => exact ⟨by simp, trivial, trivial, trivial⟩
  | unmerged node inputs => exact ⟨by simp, trivial, trivial, trivial, trivial⟩
  | headProperties node properties =>
    exact ⟨by simp, trivial, trivial, Json.distinctKeys_ofTexts properties, trivial⟩

theorem Metadata.distinctKeys_toJson (m : Metadata) : m.toJson.DistinctKeys :=
  ⟨by simp, trivial, trivial, Json.distinctKeys_ofTexts m.rulesApplied, trivial, trivial, trivial⟩

/-- Neither a report nor anything in it has a key twice. -/
theorem Report.distinctKeys_toJson (r : Report) : r.toJson.DistinctKeys := by
  have hmetadata : ((r.metadata.map Metadata.toJson).getD .null).DistinctKeys := by
    cases r.metadata with
    | none => trivial
    | some m => exact m.distinctKeys_toJson
  have hchains := Json.haveDistinctKeys_map fun a (_ : a ∈ r.chains) => a.distinctKeys_toJson
  have hdiagnostics := Json.haveDistinctKeys_map fun d (_ : d ∈ r.diagnostics) =>
    d.distinctKeys_toJson
  refine ⟨by cases r.error <;> cases r.diagnostics <;> simp, ?_⟩
  cases herror : r.error <;> cases hmore : r.diagnostics <;>
    simp_all [Json.MembersHaveDistinctKeys, Json.DistinctKeys]

/-- A report is read back from its JSON value, with the members of objects in the order in which
they are written or in that of their keys, if its numbers are finite and its stages are what their
names stand for, as stages that were read are. -/
theorem Report.decode_toJson :
    (∀ dialect d stage, Stage.decode dialect d = some stage → stage.Storable) ∧
    ∀ r : Report, r.Storable → decode .json (Datum.ofJson r.toJson) = some r ∧
      ∃ v, (Datum.ofJson r.toJson).toJson? = some v ∧ decode .json (Datum.ofJson v) = some r := by
  refine ⟨fun dialect d stage h => Stage.storable_of_decode h, fun r hr => ?_⟩
  have hread := Report.roundTrips hr .json
  -- the sorted value shows the same, and reading asks for no more than that
  obtain ⟨v, hv, hshown⟩ := Json.exists_sorted r.toJson r.distinctKeys_toJson
  exact ⟨hread _ (Json.shownBy_ofJson r.toJson r.distinctKeys_toJson), v, hv, hread _ hshown⟩

/-- A step of a type that is not in the schema, at a stage that is not in the table. -/
def grainStep : Step where
  id := "grain-1"
  nodeType := "granulate"
  category := none
  stage := some (.custom "texture")
  wraps := false
  call := "granulate"
  properties := [⟨"size", .number (.ofRatio true 1 10)⟩, ⟨"freeze", .flag false⟩]
  synthetic := true

/-- A structural step, which has an argument and a combinator. -/
def stackStep : Step where
  id := "stack-1"
  nodeType := "stack"
  category := some .structural
  stage := some (.standard .structural)
  wraps := true
  call := "stack"
  argument := some "of"
  kind := some .stack
  properties := [⟨"of", .text "bd \"sd\""⟩]

/-- A report with arrangements of both kinds and with diagnostics. -/
def mixedReport : Report where
  success := true
  code := "stack(granulate(), \"bd\")"
  metadata := some ⟨2, "stack(granulate(), \"bd\")", ["size"], "2024-01-01T00:00:00.000Z", "00ff"⟩
  chains := [.plain ⟨[stackStep, grainStep]⟩,
    .wrapped stackStep ⟨[grainStep, stackStep]⟩ ⟨[stackStep]⟩]
  diagnostics := [.unknownType "grain-1" "granulate", .fanOut "a" none ["b", "c"],
    .fanOut "a" (some "b") [], .unmerged "stack-1" 3, .headProperties "grain-1" ["size"]]

/-- A report that shows every kind of member is read back. -/
theorem Report.decode_toJson_mixedReport :
    (Stage.custom "texture").Storable ∧ mixedReport.Storable ∧
      decode .json (Datum.ofJson mixedReport.toJson) = some mixedReport ∧
      ∃ v, (Datum.ofJson mixedReport.toJson).toJson? = some v ∧
        decode .json (Datum.ofJson v) = some mixedReport := by
  have hstage : Stage.decode .json (.text "texture") = some (.custom "texture") := by decide
  have hreport : mixedReport.Storable := by decide +kernel
  exact ⟨decode_toJson.1 _ _ _ hstage, hreport, decode_toJson.2 mixedReport hreport⟩

end Patchbay
