import Patchbay.Proofs.Wiring.Routes
import Patchbay.Proofs.Wiring.Tables

/-!
# Walks in bounds

What is done with a wiring reads its tables by position: the walks look up what a position feeds and
keep a table of the positions that are placed, and the reports and the chains look up nodes.  Here
each of these is written with tables that are read and changed only where they have an entry, and
fails otherwise.  In a wiring whose tables have an entry for each position, and whose positions are
in range (`Wiring.IsTabled`), none of them fails (`Wiring.inBounds`).
-/

namespace Patchbay.Wiring

/-! ## Walks with tables -/

/-- The id of the node at a position, if there is one. -/
def id? (w : Wiring) (position : ℕ) : Option String := (w.node? position).map (·.id)

/-- The positions that a position feeds, each once. -/
def targets? (w : Wiring) (position : ℕ) : Option (List ℕ) :=
  w.outgoing[position]?.map List.eraseDups

/-- The positions without a connection into them. -/
def roots? (w : Wiring) : Option (List ℕ) :=
  filter? (fun p => w.incoming[p]?.map (· == 0)) (List.range w.size)

/-- The greedy walk from a position, and the table of placed positions after it. -/
def follow? (w : Wiring) : (fuel : ℕ) → (placed : List Bool) → (position : ℕ) →
    Option (List ℕ × List Bool)
  | 0, placed, p => some ([p], placed)
  | fuel + 1, placed, p => do
    match ← (← w.targets? p).findM? fun q => placed[q]?.map (!·) with
    | none => some ([p], placed)
    | some next =>
      let (route, placed) ← w.follow? fuel (← change? placed next fun _ => true) next
      some (p :: route, placed)

/-- The routes from the roots that are not placed, and the table of placed positions after them. -/
def routesFrom? (w : Wiring) : (placed : List Bool) → (roots : List ℕ) →
    Option (List (List ℕ) × List Bool)
  | placed, [] => some ([], placed)
  | placed, root :: rest => do
    if ← placed[root]? then w.routesFrom? placed rest
    else
      let (route, placed) ← w.follow? w.size (← change? placed root fun _ => true) root
      let (routes, placed) ← w.routesFrom? placed rest
      some (route :: routes, placed)

/-- The routes of a wiring and the positions in none of them. -/
def placement? (w : Wiring) : Option (List (List ℕ) × List ℕ) := do
  let (routes, placed) ← w.routesFrom? (List.replicate w.size false) (← w.roots?)
  some (routes, ← filter? (fun p => placed[p]?.map (!·)) (List.range w.size))

/-- The report of a fork. -/
def forkDiagnostic? (w : Wiring) (fork : ℕ × Option ℕ) : Option Diagnostic := do
  let followed ← fork.2.mapM w.id?
  let skipped ← ((← w.targets? fork.1).filter (some · != fork.2)).mapM w.id?
  some (.fanOut (← w.id? fork.1) followed skipped)

/-- The refusal of a fork. -/
def refusal? (w : Wiring) (fork : ℕ × Option ℕ) : Option Failure := do
  some (.fanOut (← w.id? fork.1) (← (← w.targets? fork.1).mapM w.id?))

/-- The number of connections into the node with an id. -/
def inputsOf? (w : Wiring) (id : String) : Option ℕ := do
  match ← (List.range w.size).findM? fun p => (w.id? p).map (· == id) with
  | none => some 0
  | some p => w.incoming[p]?

/-! ## Wirings with full tables -/

/-- The tables of a wiring have an entry for each position, and what they hold is in range. -/
structure IsTabled (w : Wiring) : Prop where
  length_outgoing : w.outgoing.length = w.size
  length_incoming : w.incoming.length = w.size
  inRange : w.InRange
  nodes : ∀ p < w.size, ∃ node, w.node? p = some node
  fed : ∀ p q, w.Feeds p q → w.inputs q ≠ 0

namespace IsTabled

variable {w : Wiring} (h : w.IsTabled) {p : ℕ}
include h

/-- A position has an entry of targets. -/
theorem targets?_eq (hp : p < w.size) : w.targets? p = some (w.targets p) := by
  have hp' : p < w.outgoing.length := h.length_outgoing ▸ hp
  rw [targets?, targets, feeds, List.getElem?_eq_getElem hp']
  rfl

/-- A position has an entry of inputs. -/
theorem incoming_eq (hp : p < w.size) : w.incoming[p]? = some (w.inputs p) := by
  have hp' : p < w.incoming.length := h.length_incoming ▸ hp
  rw [inputs, List.getElem?_eq_getElem hp']
  rfl

/-- A position has a node. -/
theorem id?_eq (hp : p < w.size) : w.id? p = some (w.id p) := by
  obtain ⟨node, hnode⟩ := h.nodes p hp
  rw [id?, id, hnode]
  rfl

theorem lt_of_mem_targets {q : ℕ} (hq : q ∈ w.targets p) : q < w.size :=
  h.inRange p q (List.mem_eraseDups.mp hq)

/-- The roots are found without a read out of bounds. -/
theorem roots?_eq : w.roots? = some w.roots :=
  filter?_eq fun p hp => by rw [h.incoming_eq (List.mem_range.mp hp), Option.map_some]

end IsTabled

/-! ## Tables of placed positions -/

/-- The table of placed positions. -/
def placedTable (w : Wiring) (placed : List ℕ) : List Bool := table w.size placed.contains

variable {w : Wiring} {placed placed' : List ℕ} {p : ℕ}

/-- Only which positions are placed matters to the table. -/
theorem placedTable_congr (h : ∀ p, p ∈ placed ↔ p ∈ placed') :
    w.placedTable placed = w.placedTable placed' :=
  table_congr fun p _ => by rw [Bool.eq_iff_iff]; simp [h]

/-- The table holds of each position whether it is placed. -/
theorem getElem?_placedTable (hp : p < w.size) :
    (w.placedTable placed)[p]? = some (placed.contains p) := getElem?_table hp _

/-- Marking a position places it. -/
theorem change?_placedTable (hp : p < w.size) :
    change? (w.placedTable placed) p (fun _ => true) = some (w.placedTable (p :: placed)) := by
  rw [placedTable, change?_table hp]
  refine congrArg some (table_congr fun q _ => ?_)
  by_cases hq : q = p
  · subst hq
    simp
  · rw [Function.update_of_ne hq, List.contains_cons, beq_false_of_ne hq, Bool.false_or]

/-! ## Walks -/

/-- A search whose test always answers is a search. -/
theorem findM?_eq {α : Type} {test : α → Option Bool} {pass : α → Bool} {l : List α}
    (h : ∀ a ∈ l, test a = some (pass a)) : l.findM? test = some (l.find? pass) := by
  induction l with
  | nil => rfl
  | cons a l ih =>
    obtain ⟨ha, hl⟩ := List.forall_mem_cons.mp h
    rw [List.findM?, ha, List.find?_cons]
    cases pass a with
    | true => rfl
    | false => exact ih hl

/-- A pass whose step always succeeds is a map. -/
theorem mapM_eq {α β : Type} {f : α → Option β} {g : α → β} {l : List α}
    (h : ∀ a ∈ l, f a = some (g a)) : l.mapM f = some (l.map g) := by
  induction l with
  | nil => rfl
  | cons a l ih =>
    obtain ⟨ha, hl⟩ := List.forall_mem_cons.mp h
    rw [List.mapM_cons, ha, ih hl]
    rfl

/-- A walk goes from its position to positions that are fed. -/
theorem mem_follow {fuel q : ℕ} (hq : q ∈ w.follow fuel placed p) :
    q = p ∨ ∃ r, w.Feeds r q := by
  induction fuel generalizing placed p with
  | zero => exact .inl (List.mem_singleton.mp hq)
  | succ fuel ih =>
    rw [follow] at hq
    split at hq
    next => exact .inl (List.mem_singleton.mp hq)
    next next hnext =>
      rcases List.mem_cons.mp hq with rfl | hq
      · exact .inl rfl
      · rcases ih hq with rfl | hfed
        · exact .inr ⟨p, List.mem_eraseDups.mp (List.mem_of_find?_eq_some hnext)⟩
        · exact .inr hfed

/-- What is placed already may be left out, as may the head of a route that is placed with it. -/
theorem placedTable_cons (hp : p ∈ placed) (route : List ℕ) :
    w.placedTable (p :: route ++ placed) = w.placedTable (route ++ placed) := by
  refine placedTable_congr fun q => ?_
  simp only [List.cons_append, List.mem_cons, List.mem_append]
  exact ⟨fun hq => hq.elim (fun heq => .inr (heq ▸ hp)) (·), .inr⟩

/-- A walk places its own first position, so that need not be placed before. -/
theorem placedTable_follow (fuel : ℕ) (before : List ℕ) :
    w.placedTable (w.follow fuel before p ++ p :: placed)
      = w.placedTable (w.follow fuel before p ++ placed) := by
  have hhead := List.mem_of_head? (head?_follow (w := w) fuel before p)
  refine placedTable_congr fun q => ?_
  simp only [List.mem_append, List.mem_cons]
  exact ⟨fun hq => hq.elim .inl fun hq => hq.elim (fun heq => .inl (heq ▸ hhead)) .inr,
    fun hq => hq.imp_right .inr⟩

/-- A walk with tables is the walk, and its table holds what it places. -/
theorem IsTabled.follow?_eq (h : w.IsTabled) (fuel : ℕ) (hp : p < w.size) (hplaced : p ∈ placed) :
    w.follow? fuel (w.placedTable placed) p
      = some (w.follow fuel placed p, w.placedTable (w.follow fuel placed p ++ placed)) := by
  induction fuel generalizing placed p with
  | zero =>
    rw [follow?, follow, placedTable_cons hplaced]
    rfl
  | succ fuel ih =>
    -- the table answers for every target, as targets are positions
    have hfind : ((w.targets p).findM? fun q => (w.placedTable placed)[q]?.map (!·))
        = some ((w.targets p).find? (!placed.contains ·)) :=
      findM?_eq fun q hq => by
        rw [getElem?_placedTable (h.lt_of_mem_targets hq), Option.map_some]
    simp only [follow?, follow, h.targets?_eq hp, hfind, Option.bind_eq_bind, Option.bind_some]
    cases hnext : (w.targets p).find? (!placed.contains ·) with
    | none =>
      simp only [placedTable_cons hplaced]
      rfl
    | some next =>
      have hlt := h.lt_of_mem_targets (List.mem_of_find?_eq_some hnext)
      simp only [change?_placedTable hlt, ih hlt List.mem_cons_self, Option.bind_some,
        placedTable_cons hplaced, placedTable_follow]

/-! ## Routes -/

/-- A walk stays in range. -/
theorem IsTabled.lt_of_mem_follow (h : w.IsTabled) {fuel q : ℕ} (hp : p < w.size)
    (hq : q ∈ w.follow fuel placed p) : q < w.size := by
  rcases mem_follow hq with rfl | ⟨r, hr⟩
  · exact hp
  · exact h.inRange r q hr

theorem IsTabled.lt_of_mem_routesFrom (h : w.IsTabled) {roots route : List ℕ}
    (hroots : ∀ root ∈ roots, root < w.size) (hroute : route ∈ w.routesFrom placed roots)
    (hp : p ∈ route) : p < w.size := by
  induction roots generalizing placed with
  | nil => cases hroute
  | cons root rest ih =>
    obtain ⟨hroot, hrest⟩ := List.forall_mem_cons.mp hroots
    rcases List.mem_cons.mp hroute with rfl | hroute
    · exact h.lt_of_mem_follow hroot hp
    · exact ih hrest hroute

theorem IsTabled.lt_of_mem_routes (h : w.IsTabled) {route : List ℕ} (hroute : route ∈ w.routes)
    (hp : p ∈ route) : p < w.size :=
  h.lt_of_mem_routesFrom (fun _ => lt_size_of_mem_roots) hroute hp

/-- A root is placed by its own route only: nothing feeds it. -/
theorem IsTabled.routesFrom?_eq (h : w.IsTabled) {roots : List ℕ}
    (hroots : ∀ root ∈ roots, root ∈ w.roots) (hnodup : roots.Nodup)
    (hfresh : ∀ root ∈ roots, root ∉ placed) :
    w.routesFrom? (w.placedTable placed) roots
      = some (w.routesFrom placed roots,
          w.placedTable ((w.routesFrom placed roots).flatten ++ placed)) := by
  induction roots generalizing placed with
  | nil => rfl
  | cons root rest ih =>
    obtain ⟨hroot, hrest⟩ := List.forall_mem_cons.mp hroots
    obtain ⟨hfirst, hbehind⟩ := List.forall_mem_cons.mp hfresh
    obtain ⟨hother, hnodup⟩ := List.nodup_cons.mp hnodup
    have hlt := lt_size_of_mem_roots hroot
    have hread : (w.placedTable placed)[root]? = some false := by
      rw [getElem?_placedTable hlt]
      simpa using hfirst
    have hwalk := h.follow?_eq w.size hlt (List.mem_cons_self : root ∈ root :: placed)
    -- behind its root a route goes through positions that are fed, and no root is
    have hfresh' : ∀ r ∈ rest, r ∉ w.follow w.size (root :: placed) root ++ placed := by
      intro r hr hmem
      rcases List.mem_append.mp hmem with hmem | hmem
      · rcases mem_follow hmem with rfl | ⟨q, hq⟩
        · exact hother hr
        · have hzero := (List.mem_filter.mp (hrest r hr)).2
          exact h.fed q r hq (by simpa using hzero)
      · exact hbehind r hr hmem
    have hroutes := ih hrest hnodup hfresh'
    rw [routesFrom?, hread]
    simp only [Option.bind_eq_bind, Option.bind_some, Bool.false_eq_true, if_false,
      change?_placedTable hlt, hwalk, placedTable_follow, hroutes, routesFrom]
    refine congrArg some (Prod.ext rfl (placedTable_congr fun q => ?_))
    simp only [List.flatten_cons, List.mem_append]
    tauto

/-- The placement with tables is that of the routes. -/
theorem IsTabled.placement?_eq (h : w.IsTabled) : w.placement? = some (w.routes, w.stranded) := by
  have hroutes := h.routesFrom?_eq (fun _ hroot => hroot)
    (List.nodup_range.filter _) (fun _ _ => List.not_mem_nil)
  have hnone : List.replicate w.size false = w.placedTable [] := replicate_eq_table _ _
  have hstranded : filter? (fun p => (w.placedTable w.routes.flatten)[p]?.map (!·))
      (List.range w.size) = some w.stranded :=
    filter?_eq fun p hp => by
      rw [getElem?_placedTable (List.mem_range.mp hp), Option.map_some]
  rw [List.append_nil] at hroutes
  simp only [placement?, h.roots?_eq, hnone, Option.bind_eq_bind, Option.bind_some, hroutes]
  rw [← routes, hstranded]
  rfl

/-- Every table is read where it has an entry: the walks, the reports and the chains are those of
the wiring. -/
structure InBounds (w : Wiring) : Prop where
  placement : w.placement? = some (w.routes, w.stranded)
  forks : ∀ fork ∈ w.forks, w.forkDiagnostic? fork = some (w.forkDiagnostic fork)
  refusals : ∀ fork ∈ w.forks,
    w.refusal? fork = some (.fanOut (w.id fork.1) ((w.targets fork.1).map w.id))
  stranded : w.stranded.mapM w.id? = some (w.stranded.map w.id)
  nodes : ∀ route ∈ w.routes, route.mapM w.node? = some (route.filterMap w.node?)
  inputs : ∀ id, w.inputsOf? id = some (w.inputsOf id)

/-- A fork is on a route, and so is the target that is followed. -/
theorem IsTabled.lt_of_mem_forks (h : w.IsTabled) {fork : ℕ × Option ℕ} (hfork : fork ∈ w.forks) :
    fork.1 < w.size ∧ ∀ q ∈ fork.2, q < w.size := by
  obtain ⟨route, hroute, hstep⟩ := List.mem_flatMap.mp (List.mem_of_mem_filter hfork)
  obtain ⟨hposition, hnext⟩ := List.of_mem_zip hstep
  refine ⟨h.lt_of_mem_routes hroute hposition, fun q hq => ?_⟩
  rw [Option.mem_def.mp hq] at hnext
  rcases List.mem_append.mp hnext with hnext | hnext
  · obtain ⟨q', hq', heq⟩ := List.mem_map.mp hnext
    obtain rfl := Option.some.inj heq
    exact h.lt_of_mem_routes hroute (List.mem_of_mem_tail hq')
  · simp at hnext

/-- With full tables everything is in bounds. -/
theorem IsTabled.inBounds (h : w.IsTabled) : w.InBounds where
  placement := h.placement?_eq
  forks fork hfork := by
    obtain ⟨hposition, hnext⟩ := h.lt_of_mem_forks hfork
    have hfollowed : fork.2.mapM w.id? = some (fork.2.map w.id) := by
      cases hfork : fork.2 with
      | none => rfl
      | some q => simp [h.id?_eq (hnext q hfork)]
    have hskipped : ((w.targets fork.1).filter (some · != fork.2)).mapM w.id?
        = some (((w.targets fork.1).filter (some · != fork.2)).map w.id) :=
      mapM_eq fun q hq => h.id?_eq (h.lt_of_mem_targets (List.mem_of_mem_filter hq))
    simp only [forkDiagnostic?, hfollowed, h.targets?_eq hposition, hskipped, h.id?_eq hposition,
      Option.bind_eq_bind, Option.bind_some, forkDiagnostic]
  refusals fork hfork := by
    obtain ⟨hposition, -⟩ := h.lt_of_mem_forks hfork
    have htargets : (w.targets fork.1).mapM w.id? = some ((w.targets fork.1).map w.id) :=
      mapM_eq fun q hq => h.id?_eq (h.lt_of_mem_targets hq)
    simp only [refusal?, h.targets?_eq hposition, htargets, h.id?_eq hposition,
      Option.bind_eq_bind, Option.bind_some]
  stranded := mapM_eq fun p hp => h.id?_eq (List.mem_range.mp (List.mem_of_mem_filter hp))
  nodes route hroute := by
    have hall : ∀ p ∈ route, ∃ node, w.node? p = some node := fun p hp =>
      h.nodes p (h.lt_of_mem_routes hroute hp)
    -- the induction is on the route, which need not be one of the wiring for this
    clear hroute
    induction route with
    | nil => rfl
    | cons p route ih =>
      obtain ⟨⟨node, hnode⟩, hrest⟩ := List.forall_mem_cons.mp hall
      rw [List.mapM_cons, List.filterMap_cons_some hnode, hnode, ih hrest]
      rfl
  inputs id := by
    have hfind : ((List.range w.size).findM? fun p => (w.id? p).map (· == id))
        = some ((List.range w.size).find? (w.id · == id)) :=
      findM?_eq fun p hp => by rw [h.id?_eq (List.mem_range.mp hp), Option.map_some]
    simp only [inputsOf?, hfind, Option.bind_eq_bind, Option.bind_some, inputsOf]
    cases hposition : (List.range w.size).find? (w.id · == id) with
    | none => rfl
    | some p => exact h.incoming_eq (List.mem_range.mp (List.mem_of_find?_eq_some hposition))

end Patchbay.Wiring
