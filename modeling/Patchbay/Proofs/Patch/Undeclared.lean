import Patchbay.Proofs.Compile
import Patchbay.Proofs.Dictionary

/-!
# Types that are not declared

A node whose type is not in the schema is taken for a modulation that does not wrap, is called by
its type and has no argument.  `compile_add_plain` says so of whole patches: declaring the type as
such a one (`NodeType.Plain`) changes nothing but the category, the stage and the combinator that
the nodes of the type show in the chains, and that they are reported no more.

## Shape of the proof

* `Step.unclassified` forgets what a declaration adds to a step, and what is computed from a step
  does not look at it (`Step.Indifferent`);
* a node is resolved alike under both schemas, but for what is forgotten and for the report
  (`Step.mirrors_resolve`), and `Recorded.Mirrors` carries that through the drawing
  (`mirrors_drawn`);
* arranging, folding and rendering go on alike with what is forgotten (`Chain.arrange_unclassified`,
  `Arrangement.mirrors_fold`, `Pattern.code_unclassified`).
-/

namespace Patchbay

/-! ## What a declaration adds -/

/-- A declaration that says of a type what is assumed of one without a declaration. -/
structure NodeType.Plain (type : NodeType) : Prop where
  not_source : type.category ≠ .source
  not_structural : type.category ≠ .structural
  rank : type.execution.stage.priority = 50
  not_wraps : type.execution.wraps = false
  no_call : type.call = none
  no_argument : type.argument = none

/-- A step without its category, its stage and its combinator, if it is a node of the type. -/
def Step.unclassified (type : String) (s : Step) : Step :=
  { s with
    category := if s.nodeType = type then none else s.category
    stage := if s.nodeType = type then none else s.stage
    kind := if s.nodeType = type then none else s.kind }

/-- A chain in which that is forgotten of the nodes of a type. -/
def Chain.unclassified (type : String) (c : Chain) : Chain := ⟨c.steps.map (Step.unclassified type)⟩

/-- An arrangement in which that is forgotten of the nodes of a type. -/
def Arrangement.unclassified (type : String) : Arrangement → Arrangement
  | plain chain => plain (chain.unclassified type)
  | wrapped wrapper inner outer =>
    wrapped (wrapper.unclassified type) (inner.unclassified type) (outer.unclassified type)

/-- A diagnostic reports a node of a type as one of an unknown type. -/
def Diagnostic.isUnknownType (type : String) : Diagnostic → Bool
  | .unknownType _ unknown => unknown == type
  | _ => false

namespace Compiled

/-- A compiled patch in whose chains the category, the stage and the combinator of the nodes of a
type are forgotten. -/
def unclassified (type : String) (c : Compiled) : Compiled :=
  { c with chains := c.chains.map (Arrangement.unclassified type) }

/-- A compiled patch without the reports of a type as unknown. -/
def withoutUnknown (type : String) (c : Compiled) : Compiled :=
  { c with diagnostics := c.diagnostics.filter (!·.isUnknownType type) }

end Compiled

/-! ## Steps -/

namespace Step

variable {type : String} {s : Step}

/-- What is forgotten of the nodes of a type does not tell whether the step is a source or
structural, nor its rank. -/
structure Indifferent (type : String) (s : Step) : Prop where
  source : (s.unclassified type).isSource = s.isSource
  structural : (s.unclassified type).isStructural = s.isStructural
  rank : (s.unclassified type).priority = s.priority

/-- Steps of other types are left as they are. -/
theorem unclassified_of_ne (h : s.nodeType ≠ type) : s.unclassified type = s := by
  simp only [unclassified, if_neg h]

/-- To a step of another type nothing is done at all. -/
theorem indifferent_of_ne (h : s.nodeType ≠ type) : s.Indifferent type := by
  constructor <;> rw [unclassified_of_ne h]

/-- Nothing more is forgotten the second time. -/
theorem unclassified_idem (type : String) (s : Step) :
    (s.unclassified type).unclassified type = s.unclassified type := by
  by_cases h : s.nodeType = type
  · simp [unclassified, h]
  · rw [unclassified_of_ne h, unclassified_of_ne h]

/-- A step with a category and a stage as they are assumed without a declaration. -/
theorem indifferent_of_plain {category : Category} {stage : Stage}
    (hcategory : s.category = category) (hstage : s.stage = stage)
    (hsource : category ≠ .source) (hstructural : category ≠ .structural)
    (hrank : stage.priority = 50) : s.Indifferent type := by
  by_cases h : s.nodeType = type
  · constructor
    case source => simp [isSource, unclassified, h, hcategory, hsource]
    case structural => simp [isStructural, unclassified, h, hcategory, hstructural]
    case rank => simp [priority, unclassified, h, hstage, hrank, Stage.defaultPriority]
  · exact indifferent_of_ne h

end Step

/-- A declaration is found by its id and hides an earlier one of that id. -/
theorem Schema.get?_add (schema : Schema) (type : NodeType) (name : String) :
    (schema.add type).get? name = if name = type.id then some type else schema.get? name :=
  Dictionary.get?_insert schema.types type.id type name

section Declared

variable {schema : Schema} {type : NodeType} (htype : type.Plain)
  (habsent : schema.get? type.id = none)
include htype

/-- A step that is resolved with the declaration. -/
theorem Step.indifferent_of_resolve {key : String} {node : Node} {s : Step}
    (h : (resolve (schema.add type) key node).outcome = .ok s) : s.Indifferent type.id := by
  obtain ⟨properties, -, h⟩ := Recorded.outcome_bind_eq_ok.mp h
  rw [Schema.get?_add] at h
  by_cases hnode : node.type = type.id
  · rw [if_pos hnode] at h
    obtain rfl := Except.ok.inj h
    exact indifferent_of_plain rfl rfl htype.not_source htype.not_structural htype.rank
  -- of another type: whichever way it is resolved, the step has the type of the node
  · rw [if_neg hnode] at h
    have hnodeType : s.nodeType = node.type := by
      cases hfound : schema.get? node.type with
      | some found =>
        rw [hfound] at h
        obtain rfl := Except.ok.inj h
        rfl
      | none =>
        rw [hfound] at h
        obtain rfl := Except.ok.inj h
        rfl
    exact indifferent_of_ne (hnodeType ▸ hnode)

include habsent

/-- A node is resolved alike, but for what the declaration adds, and reported without it. -/
theorem Step.mirrors_resolve (key : String) (node : Node) :
    Recorded.Mirrors (!·.isUnknownType type.id) (Step.unclassified type.id)
      (resolve (schema.add type) key node) (resolve schema key node) := by
  refine (Recorded.Mirrors.ofExcept (node.patternProperties key)).bind fun properties _ => ?_
  rw [Schema.get?_add, id_eq]
  by_cases hnode : node.type = type.id
  -- declared on one side and unknown on the other: the one case in which a report is dropped
  · rw [if_pos hnode, hnode, habsent]
    refine .note_bind (by simp [Diagnostic.isUnknownType]) (.pure ?_)
    simp [Step.unclassified, NodeType.callName, htype.not_wraps, htype.no_call, htype.no_argument]
  · rw [if_neg hnode]
    cases hfound : schema.get? node.type with
    | some found => exact .pure (unclassified_of_ne hnode).symm
    | none =>
      refine (Recorded.Mirrors.refl (by simp [Diagnostic.isUnknownType, hnode])).bind fun _ _ => ?_
      exact .pure (unclassified_of_ne hnode).symm

end Declared

/-! ## Chains -/

/-- Nothing more is forgotten of an arrangement the second time. -/
theorem Arrangement.unclassified_comp_unclassified (type : String) :
    Arrangement.unclassified type ∘ Arrangement.unclassified type =
      Arrangement.unclassified type := by
  have hchain : ∀ c : Chain, (c.unclassified type).unclassified type = c.unclassified type :=
    fun c => by
      rw [Chain.unclassified, Chain.unclassified, List.map_map]
      exact congrArg Chain.mk (List.map_congr_left fun s _ => s.unclassified_idem type)
  funext a
  cases a <;> simp [unclassified, hchain, Step.unclassified_idem]

namespace Chain

variable {type : String} {c : Chain} {config : Config}

/-- The effects of a chain in which something is forgotten. -/
theorem effects_unclassified (type : String) (c : Chain) :
    (c.unclassified type).effects = c.effects.map (Step.unclassified type) :=
  List.map_tail.symm

theorem head?_unclassified (type : String) (c : Chain) :
    (c.unclassified type).head? = c.head?.map (Step.unclassified type) :=
  List.head?_map

/-- The report about the head of a chain asks only whether it is a source. -/
theorem headDiagnostics_unclassified (h : ∀ s ∈ c.steps, s.Indifferent type) :
    (c.unclassified type).headDiagnostics = c.headDiagnostics := by
  obtain ⟨_ | ⟨head, effects⟩⟩ := c
  · rfl
  · have hsource := (h head List.mem_cons_self).source
    simp only [headDiagnostics, unclassified, head?, List.map_cons, List.head?_cons, hsource]
    rfl

/-- The report of missing inputs asks only which steps are structural. -/
theorem unmerged_unclassified (w : Wiring) (h : ∀ s ∈ c.steps, s.Indifferent type) :
    (c.unclassified type).unmerged w = c.unmerged w := by
  rw [unmerged, unclassified, List.filter_map, List.map_map, unmerged]
  refine congrArg _ (List.filter_congr fun s hs => ?_)
  rw [Function.comp_apply, (h s hs).structural]
  rfl

/-- Sorting looks at ranks alone. -/
theorem byStage_unclassified {steps : List Step} (h : ∀ s ∈ steps, s.Indifferent type) :
    byStage (steps.map (Step.unclassified type)) =
      (byStage steps).map (Step.unclassified type) := by
  rw [byStage, byStage, List.map_flatMap]
  refine List.flatMap_congr fun rank _ => ?_
  rw [List.filter_map]
  refine congrArg _ (List.filter_congr fun s hs => ?_)
  rw [Function.comp_apply, (h s hs).rank]

/-- Whether a step wraps is not forgotten, so the chain is split at the same place. -/
theorem lifted_unclassified (type : String) (c : Chain) :
    (c.unclassified type).lifted = c.lifted.unclassified type := by
  -- the list is split where it was before it was mapped
  have hwraps : (fun s : Step => (s.unclassified type).wraps) = Step.wraps := rfl
  rw [lifted, effects_unclassified, splitAtLast_map, hwraps, lifted]
  cases splitAtLast Step.wraps c.effects with
  | none => rfl
  | some split => simp [Arrangement.unclassified, unclassified, List.map_take]

/-- What is forgotten does not change the arrangement. -/
theorem arrange_unclassified (h : ∀ s ∈ c.steps, s.Indifferent type) :
    (c.unclassified type).arrange = c.arrange.unclassified type := by
  have heffects : ∀ s ∈ c.effects, s.Indifferent type := fun s hs => h s (List.mem_of_mem_tail hs)
  have hsorted : (c.unclassified type).sorted = c.sorted.unclassified type := by
    rw [sorted, effects_unclassified, byStage_unclassified heffects]
    simp [sorted, unclassified, List.map_take]
  rw [arrange, hsorted, lifted_unclassified, arrange]

/-- What is folded are the properties, which are not forgotten. -/
theorem occurrences_unclassified (type : String) (c : Chain) (heldBack : Option HeldBack) :
    (c.unclassified type).occurrences heldBack =
      (c.occurrences heldBack).map (Prod.map (Step.unclassified type) id) := by
  rw [occurrences, effects_unclassified, List.flatMap_map, occurrences, List.map_flatMap]
  refine List.flatMap_congr fun s _ => ?_
  rw [List.map_map]
  rfl

/-- A folded half has its head and its last effect, with what was forgotten of them. -/
theorem unclassified_collapsed (type : String) (head : Step) (last? : Option Step)
    (properties : List Property) :
    (collapsed head last? properties).unclassified type =
      collapsed (head.unclassified type) (last?.map (Step.unclassified type)) properties := by
  unfold collapsed unclassified
  split
  · rfl
  · cases last? <;> rfl

/-- What is forgotten does not change what is folded, nor which rules are applied. -/
theorem mirrors_fold (type : String) (config : Config) (c : Chain) (heldBack : Option HeldBack) :
    Recorded.Mirrors (fun _ => true) (Chain.unclassified type) (c.fold config heldBack)
      ((c.unclassified type).fold config heldBack) := by
  obtain ⟨_ | ⟨head, effects⟩⟩ := c
  · exact .pure rfl
  have hoccurrences := occurrences_unclassified type ⟨head :: effects⟩ heldBack
  rw [unclassified, List.map_cons] at hoccurrences ⊢
  rw [fold_cons, fold_cons, hoccurrences, List.foldlM_map, List.getLast?_map]
  refine (Recorded.Mirrors.refl fun _ _ => rfl).bind fun folded _ => .pure ?_
  exact (unclassified_collapsed type head effects.getLast? _).symm

end Chain

/-- Both halves of an arrangement are folded alike. -/
theorem Arrangement.mirrors_fold (type : String) (config : Config) (a : Arrangement) :
    Recorded.Mirrors (fun _ => true) (Arrangement.unclassified type) (a.fold config)
      ((a.unclassified type).fold config) := by
  cases a with
  | plain c => exact (c.mirrors_fold type config none).bind fun _ _ => .pure rfl
  | wrapped wrapper inner outer =>
    exact (inner.mirrors_fold type config (heldBack wrapper)).bind fun _ _ =>
      (outer.mirrors_fold type config none).bind fun _ _ => .pure rfl

namespace Pattern

theorem ofEffects_unclassified (type : String) (c : Chain) :
    Transform.ofEffects (c.unclassified type).effects = Transform.ofEffects c.effects := by
  rw [Transform.ofEffects, Chain.effects_unclassified, List.flatMap_map]
  rfl

theorem ofChain?_unclassified (type : String) (c : Chain) :
    ofChain? (c.unclassified type) = ofChain? c := by
  rw [ofChain?, ofEffects_unclassified, Chain.head?_unclassified, Option.map_map, ofChain?]
  rfl

theorem ofArrangement?_unclassified (type : String) (a : Arrangement) :
    ofArrangement? (a.unclassified type) = ofArrangement? a := by
  cases a with
  | plain c => exact ofChain?_unclassified type c
  | wrapped wrapper inner outer =>
    rw [Arrangement.unclassified, ofArrangement?, ofChain?_unclassified, ofEffects_unclassified,
      Chain.head?_unclassified, ofArrangement?]
    cases outer.head? <;> rfl

/-- What is forgotten does not appear in the code. -/
theorem code_unclassified (type : String) (arrangements : List Arrangement) :
    code (arrangements.map (Arrangement.unclassified type)) = code arrangements := by
  rw [code, List.filterMap_map, code]
  exact congrArg line (List.filterMap_congr fun a _ => ofArrangement?_unclassified type a)

end Pattern

/-! ## Whole patches -/

section Declared

variable {schema : Schema} {type : NodeType} (htype : type.Plain)
  (habsent : schema.get? type.id = none) (config : Config)
include htype

namespace Wiring

/-- The steps of chains that are resolved with the declaration. -/
theorem indifferent_of_chains {config : Config} {w : Wiring} {chains : List Chain}
    (h : (w.chains (schema.add type) config).outcome = .ok chains) {c : Chain} (hc : c ∈ chains) :
    ∀ s ∈ c.steps, s.Indifferent type.id := by
  intro s hs
  obtain ⟨-, -, node, -, hnode⟩ := exists_resolve_of_mem h hc hs
  exact Step.indifferent_of_resolve htype hnode

include habsent

/-- The chain of a route is resolved alike, and the same is said about its head. -/
theorem mirrors_chainOf (w : Wiring) (route : List ℕ) :
    Recorded.Mirrors (!·.isUnknownType type.id) (Chain.unclassified type.id)
      (w.chainOf (schema.add type) config route) (w.chainOf schema config route) := by
  have hnodes : Recorded.Mirrors (!·.isUnknownType type.id) (List.map (Step.unclassified type.id))
      ((route.filterMap w.node?).mapM (Step.resolve (schema.add type) config.patternKey))
      ((route.filterMap w.node?).mapM (Step.resolve schema config.patternKey)) :=
    .mapM fun node _ => Step.mirrors_resolve htype habsent config.patternKey node
  refine hnodes.bind fun steps hsteps => ?_
  have hindifferent : ∀ s ∈ steps, s.Indifferent type.id := fun s hs => by
    obtain ⟨node, -, hnode⟩ := Recorded.exists_of_forall₂ (Recorded.outcome_mapM_eq_ok.mp hsteps) hs
    exact Step.indifferent_of_resolve htype hnode
  have hhead : Chain.headDiagnostics ⟨steps.map (Step.unclassified type.id)⟩ =
      Chain.headDiagnostics ⟨steps⟩ := Chain.headDiagnostics_unclassified hindifferent
  rw [hhead]
  refine (Recorded.Mirrors.refl fun d hd => ?_).bind fun _ _ => .pure rfl
  obtain ⟨head, rfl | rfl⟩ := Chain.exists_of_mem_headDiagnostics hd <;> rfl

/-- All routes are resolved alike, and the forks and the stranded nodes reported alike. -/
theorem mirrors_chains (w : Wiring) :
    Recorded.Mirrors (!·.isUnknownType type.id) (List.map (Chain.unclassified type.id))
      (w.chains (schema.add type) config) (w.chains schema config) := by
  -- neither of these two reports is about a type
  have hforks : ∀ d ∈ (w.checkForks config.fanOut).record, !d.isUnknownType type.id := by
    intro d hd
    obtain ⟨fork, rfl⟩ := exists_of_mem_checkForks hd
    rfl
  have hstranded : ∀ d ∈ w.stranded.map fun p => Diagnostic.stranded (w.id p),
      !d.isUnknownType type.id := fun d hd => by
    obtain ⟨p, -, rfl⟩ := List.mem_map.mp hd
    rfl
  exact (Recorded.Mirrors.refl hforks).bind fun _ _ =>
    (Recorded.Mirrors.refl hstranded).bind fun _ _ =>
      .mapM fun route _ => w.mirrors_chainOf htype habsent config route

end Wiring

namespace Graph

include habsent

/-- A patch is drawn alike, but for what the declaration adds, and reported without it. -/
theorem mirrors_drawn (g : Graph) :
    Recorded.Mirrors (!·.isUnknownType type.id) (List.map (Chain.unclassified type.id))
      (g.drawn (schema.add type) config) (g.drawn schema config) := by
  have hwire : ∀ d ∈ g.wire.record, !d.isUnknownType type.id := fun d hd => by
    obtain ⟨c, -, rfl⟩ := exists_of_mem_record_wire hd
    rfl
  refine (Recorded.Mirrors.refl hwire).bind fun w _ => ?_
  refine (w.mirrors_chains htype habsent config).bind fun chains hchains => ?_
  -- whether a step is structural is not forgotten either, so the last report is the same
  have hunmerged : (chains.map (Chain.unclassified type.id)).flatMap (Chain.unmerged w) =
      chains.flatMap (Chain.unmerged w) := by
    rw [List.flatMap_map]
    exact List.flatMap_congr fun c hc =>
      Chain.unmerged_unclassified w (Wiring.indifferent_of_chains htype hchains hc)
  rw [id_eq, hunmerged]
  refine (Recorded.Mirrors.refl fun d hd => ?_).bind fun _ _ => .pure rfl
  obtain ⟨c, -, hd⟩ := List.mem_flatMap.mp hd
  obtain ⟨s, -, rfl⟩ := List.mem_map.mp hd
  rfl

omit htype habsent in
/-- Chains are folded alike, but for what is forgotten. -/
theorem mirrors_folded {chains : List Chain}
    (h : ∀ c ∈ chains, ∀ s ∈ c.steps, s.Indifferent type.id) :
    Recorded.Mirrors (fun _ => true) (List.map (Arrangement.unclassified type.id))
      (folded config chains) (folded config (chains.map (Chain.unclassified type.id))) := by
  rw [folded, folded, List.mapM_map]
  refine .mapM fun c hc => ?_
  rw [Function.comp_apply, Chain.arrange_unclassified (h c hc)]
  exact c.arrange.mirrors_fold type.id config

/-- **A type without a declaration is a plain type.**  Whether such a type is declared as what it is
taken for or left out of the schema, a patch has the same failure, or the same code, number of
chains and applied rules, the same chains but for the category, the stage and the combinator of the
nodes of the type, and the same diagnostics in their order but for the reports of the type as
unknown. -/
theorem compile_add_plain (g : Graph) :
    (g.compile (schema.add type) config).map (Compiled.unclassified type.id) =
      (g.compile schema config).map fun c =>
        (c.withoutUnknown type.id).unclassified type.id := by
  have hdrawn := g.mirrors_drawn htype habsent config
  cases hchains : (g.drawn (schema.add type) config).outcome with
  | error e =>
    rw [compile_of_drawn_error hchains, compile_of_drawn_error (hdrawn.outcome_of_error hchains)]
    rfl
  | ok chains =>
    rw [compile_of_drawn_ok hchains, compile_of_drawn_ok (hdrawn.outcome_of_ok hchains)]
    -- the steps were resolved with the declaration, which is plain
    have hindifferent : ∀ c ∈ chains, ∀ s ∈ c.steps, s.Indifferent type.id := fun c hc => by
      obtain ⟨w, -, hw⟩ := outcome_drawn_eq_ok.mp hchains
      exact Wiring.indifferent_of_chains htype hw hc
    have hfolded := mirrors_folded config hindifferent
    cases harrangements : (folded config chains).outcome with
    | error e =>
      rw [hfolded.outcome_of_error harrangements]
      rfl
    | ok arrangements =>
      rw [hfolded.outcome_of_ok harrangements]
      have hrules := hfolded.record
      rw [List.filter_true] at hrules
      refine congrArg Except.ok ?_
      simp only [Compiled.unclassified, Compiled.withoutUnknown, hdrawn.record, hrules,
        List.length_map, Pattern.code_unclassified, List.map_map,
        Arrangement.unclassified_comp_unclassified]

end Graph

end Declared

namespace Graph

/-- A chain that begins and ends with nodes of a type which `wrappedSchema` does not have. -/
def grainPatch : Graph where
  nodes := [
    ({ id := "dust", type := "grain" } : Node).setProperty "size" (.integer 4),
    ({ id := "loud", type := "gain" } : Node).setProperty "gain" (.integer 2),
    ({ id := "sand", type := "grain" } : Node).setProperty "gain" (.integer 3)]
  connections := [⟨"dust", "loud"⟩, ⟨"loud", "sand"⟩, ⟨"sand", "ghost"⟩]

/-- A type with a stage outside the table. -/
def grainType : NodeType where
  id := "grain"
  category := .space
  execution := ⟨.custom "texture", false⟩
  kind := some .stack

/-- The two nodes are no longer reported, and their category is shown. -/
theorem compile_add_plain_grainPatch :
    grainType.Plain ∧ wrappedSchema.get? grainType.id = none ∧
      ∃ c c', grainPatch.compile wrappedSchema .standard = .ok c ∧
        grainPatch.compile (wrappedSchema.add grainType) .standard = .ok c' ∧
        c.diagnostics.length = c'.diagnostics.length + 2 ∧ c.chains ≠ c'.chains ∧
        c'.unclassified "grain" = (c.withoutUnknown "grain").unclassified "grain" := by
  have htype : grainType.Plain := ⟨by decide, by decide, rfl, rfl, rfl, rfl⟩
  have habsent : wrappedSchema.get? grainType.id = none := by decide
  have hsame := compile_add_plain htype habsent .standard grainPatch
  exact ⟨htype, habsent, _, _, rfl, rfl, by decide +kernel, by decide +kernel, Except.ok.inj hsame⟩

end Graph

end Patchbay
