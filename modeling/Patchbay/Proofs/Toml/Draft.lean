import Patchbay.Proofs.Toml.Statement
import Patchbay.Toml

/-!
# Drafts read back

A draft whose keys are distinct is written as a document that reads as the draft
(`read?_write`).

Its lines are read as statements (`statements?_chars`), and these put its tables together one after
the other: the assignments behind a header extend the table that was opened last
(`Opens.foldlM_assigned`), each header adds a table to the group of the tables before it or begins
the group (`foldlM_tables`), and so the groups are added one by one (`foldlM_groups`).
-/

namespace Patchbay.Toml

/-! ## Members -/

namespace Members

variable {key : String} {members others : Members}

/-- The keys of members. -/
def keys (members : Members) : List String := members.map (·.1)

theorem lookup_of_notMem (h : key ∉ keys members) : members.lookup key = none :=
  List.lookup_eq_none_iff.mpr fun _ hm =>
    bne_iff_ne.mpr fun heq => h (heq ▸ List.mem_map_of_mem hm)

/-- The last member is found if its key is not there before. -/
theorem lookup_last (h : key ∉ keys members) (b : Branch) :
    (members ++ [(key, b)]).lookup key = some b := by
  rw [List.lookup_append, lookup_of_notMem h, Option.none_or, List.lookup_cons_self]

/-- A new member is put at the end. -/
theorem put_of_notMem (h : key ∉ keys members) (b : Branch) :
    put key b members = members ++ [(key, b)] := by
  induction members with
  | nil => rfl
  | cons m members ih =>
    obtain ⟨hne, hothers⟩ := not_or.mp (mt List.mem_cons.mpr h)
    rw [put, if_neg (Ne.symm hne), ih hothers, List.cons_append]

/-- The last member is replaced where it is. -/
theorem put_last (h : key ∉ keys members) (b b' : Branch) :
    put key b' (members ++ [(key, b)]) = members ++ [(key, b')] := by
  induction members with
  | nil => exact if_pos rfl
  | cons m members ih =>
    obtain ⟨hne, hothers⟩ := not_or.mp (mt List.mem_cons.mpr h)
    rw [List.cons_append, put, if_neg (Ne.symm hne), ih hothers, List.cons_append]

/-- The data of members are one behind the other, as the members are. -/
theorem data_append (members others : Members) :
    data (members ++ others) = data members ++ data others := by
  induction members with
  | nil => rfl
  | cons m members ih => simp [data, ih]

end Members

open Members

/-- Assigned values. -/
def leaves (assignments : Assignments) : Members := assignments.map fun a => (a.1, .leaf a.2.datum)

/-- Tables that were opened and filled. -/
def filled (tables : List (String × Assignments)) : Members :=
  tables.map fun t => (t.1, .table .opened (leaves t.2))

/-- A group: implied by its tables, and opened by its name if it has none. -/
def groupBranch (tables : List (String × Assignments)) : Branch :=
  .table (if tables.isEmpty then .opened else .implied) (filled tables)

/-! ## Assignments -/

/-- What is changed at a path is a table with a place in the document, into which the changed table
is plugged again. -/
def Opens (path : List String) (plug : Members → Members) : Prop :=
  ∀ inner change, changeAt change path (plug inner) = (change inner).map plug

variable {members inner root : Members} {name : String} {path : List String}

/-- The document itself is the table at the empty path. -/
theorem opens_nil : Opens [] id := fun inner change => by
  rw [changeAt, Option.map_id]
  rfl

/-- A table in the last member is opened by the key of that in front of its own path. -/
theorem Opens.last {plug : Members → Members} (h : Opens path plug)
    (hname : name ∉ keys members) (origin : Origin) :
    Opens (name :: path) fun inner => members ++ [(name, .table origin (plug inner))] := by
  intro inner change
  rw [changeAt, lookup_last hname]
  simp only [h inner change, Option.map_map]
  congr 1
  funext inner'
  exact put_last hname _ _

/-- Assignments to keys that are free extend a table. -/
theorem Opens.foldlM_assigned {plug : Members → Members} (h : Opens path plug)
    (inner : Members) {assignments : Assignments}
    (hkeys : (keys inner ++ assignments.map (·.1)).Nodup) :
    (assigned assignments).foldlM Assembly.step ⟨plug inner, path⟩
      = some ⟨plug (inner ++ leaves assignments), path⟩ := by
  induction assignments generalizing inner with
  | nil =>
    rw [leaves, List.map_nil, List.append_nil]
    rfl
  | cons a assignments ih =>
    have hfree : a.1 ∉ keys inner := fun hmem =>
      (List.nodup_append.mp hkeys).2.2 _ hmem _ List.mem_cons_self rfl
    -- the path stays that of the last header, and the table there grows
    have hstep : Assembly.step ⟨plug inner, path⟩ (.assign [a.1] a.2.datum)
        = some ⟨plug (inner ++ leaves [a]), path⟩ := by
      have hassign : assign a.2.datum [a.1] inner = some (inner ++ leaves [a]) := by
        rw [assign, lookup_of_notMem hfree, put_of_notMem hfree]
        rfl
      rw [Assembly.step, h inner, hassign, Option.map_some, Option.map_some]
    have hnext : (keys (inner ++ leaves [a]) ++ assignments.map (·.1)).Nodup := by
      simpa [keys, leaves] using hkeys
    have hall : leaves (a :: assignments) = leaves [a] ++ leaves assignments := rfl
    rw [assigned, List.map_cons, List.foldlM_cons, hstep, hall, ← List.append_assoc]
    exact ih _ hnext

/-! ## Tables -/

/-- A table is added to its group, whether the group is there or begins with the table. -/
theorem foldlM_tabled (inner : Members) (hname : name ∉ keys members)
    (hroot : ∀ change, changeAt change [name] root
      = (change inner).map fun inner => members ++ [(name, .table .implied inner)])
    {t : String × Assignments} (ht : t.1 ∉ keys inner) (hkeys : (t.2.map (·.1)).Nodup) :
    (tabled name t).foldlM Assembly.step ⟨root, path⟩
      = some ⟨members ++ [(name, .table .implied (inner ++ filled [t]))], [name, t.1]⟩ := by
  have hopen : Assembly.step ⟨root, path⟩ (.openTable [name, t.1])
      = some ⟨members ++ [(name, .table .implied (inner ++ [(t.1, .table .opened [])]))],
          [name, t.1]⟩ := by
    have hnew : openTable t.1 inner = some (inner ++ [(t.1, .table .opened [])]) := by
      rw [openTable, lookup_of_notMem ht, put_of_notMem ht]
    have hchange := hroot (openTable t.1)
    rw [hnew] at hchange
    exact congrArg (Option.map _) hchange
  have hplace := (opens_nil.last ht .opened).last hname .implied
  have hassign := hplace.foldlM_assigned [] hkeys
  rw [tabled, List.foldlM_cons, hopen]
  exact hassign

/-- The tables of a group that has begun are added one by one. -/
theorem foldlM_tables (inner : Members) (path : List String) (hname : name ∉ keys members)
    {tables : List (String × Assignments)} (hnames : (keys inner ++ tables.map (·.1)).Nodup)
    (hkeys : ∀ t ∈ tables, (t.2.map (·.1)).Nodup) :
    ∃ path', (tables.flatMap (tabled name)).foldlM Assembly.step
        ⟨members ++ [(name, .table .implied inner)], path⟩
      = some ⟨members ++ [(name, .table .implied (inner ++ filled tables))], path'⟩ := by
  induction tables generalizing inner path with
  | nil =>
    refine ⟨path, ?_⟩
    rw [filled, List.map_nil, List.append_nil]
    rfl
  | cons t tables ih =>
    obtain ⟨hfirst, hothers⟩ := List.forall_mem_cons.mp hkeys
    have hfree : t.1 ∉ keys inner := fun hmem =>
      (List.nodup_append.mp hnames).2.2 _ hmem _ List.mem_cons_self rfl
    have hnext : (keys (inner ++ filled [t]) ++ tables.map (·.1)).Nodup := by
      simpa [keys, filled] using hnames
    have htable : (tabled name t).foldlM Assembly.step
        ⟨members ++ [(name, .table .implied inner)], path⟩
          = some ⟨members ++ [(name, .table .implied (inner ++ filled [t]))], [name, t.1]⟩ :=
      foldlM_tabled inner hname (opens_nil.last hname .implied inner) hfree hfirst
    -- the invariant is that the group stays the last member; which of its tables is open changes
    obtain ⟨path', htables⟩ := ih _ [name, t.1] hnext hothers
    have hall : filled (t :: tables) = filled [t] ++ filled tables := rfl
    refine ⟨path', ?_⟩
    rw [List.flatMap_cons, List.foldlM_append, htable, hall, ← List.append_assoc]
    exact htables

/-- A group is added to the document. -/
theorem foldlM_grouped (path : List String) (hname : name ∉ keys members)
    {tables : List (String × Assignments)} (hnames : (tables.map (·.1)).Nodup)
    (hkeys : ∀ t ∈ tables, (t.2.map (·.1)).Nodup) :
    ∃ path', (grouped name tables).foldlM Assembly.step ⟨members, path⟩
      = some ⟨members ++ [(name, groupBranch tables)], path'⟩ := by
  cases tables with
  | nil =>
    have hnew : openTable name members = some (members ++ [(name, .table .opened [])]) := by
      rw [openTable, lookup_of_notMem hname, put_of_notMem hname]
    have hstep : Assembly.step ⟨members, path⟩ (.openTable [name])
        = some ⟨members ++ [(name, .table .opened [])], [name]⟩ :=
      congrArg (Option.map (⟨·, [name]⟩ : Members → Assembly)) hnew
    refine ⟨[name], ?_⟩
    rw [grouped, List.foldlM_cons, hstep]
    rfl
  | cons t tables =>
    obtain ⟨hfirst, hothers⟩ := List.forall_mem_cons.mp hkeys
    -- the first table begins the group, which its name implies
    have hroot (change : Members → Option Members) : changeAt change [name] members
        = (change []).map fun inner => members ++ [(name, .table .implied inner)] := by
      rw [changeAt, lookup_of_notMem hname, changeAt]
      simp only [put_of_notMem hname]
    have htable : (tabled name t).foldlM Assembly.step ⟨members, path⟩
        = some ⟨members ++ [(name, .table .implied (filled [t]))], [name, t.1]⟩ :=
      foldlM_tabled [] hname hroot List.not_mem_nil hfirst
    obtain ⟨path', htables⟩ :=
      foldlM_tables (filled [t]) [name, t.1] hname hnames hothers
    have hall : grouped name (t :: tables) = tabled name t ++ tables.flatMap (tabled name) := rfl
    refine ⟨path', ?_⟩
    rw [hall, List.foldlM_append, htable]
    exact htables

/-- Groups are added to the document one by one. -/
theorem foldlM_groups (path : List String)
    {groups : List (String × List (String × Assignments))}
    (hgroups : (keys members ++ groups.map (·.1)).Nodup)
    (hnames : ∀ g ∈ groups, (g.2.map (·.1)).Nodup)
    (hkeys : ∀ g ∈ groups, ∀ t ∈ g.2, (t.2.map (·.1)).Nodup) :
    ∃ path', (groups.flatMap fun g => grouped g.1 g.2).foldlM Assembly.step ⟨members, path⟩
      = some ⟨members ++ groups.map fun g => (g.1, groupBranch g.2), path'⟩ := by
  induction groups generalizing members path with
  | nil =>
    refine ⟨path, ?_⟩
    rw [List.map_nil, List.append_nil]
    rfl
  | cons g groups ih =>
    obtain ⟨hfirst, hothers⟩ := List.forall_mem_cons.mp hnames
    obtain ⟨hfirst', hothers'⟩ := List.forall_mem_cons.mp hkeys
    -- a new group is a new member, and the one before it is closed by that
    have hfree : g.1 ∉ keys members := fun hmem =>
      (List.nodup_append.mp hgroups).2.2 _ hmem _ List.mem_cons_self rfl
    have hnext : (keys (members ++ [(g.1, groupBranch g.2)]) ++ groups.map (·.1)).Nodup := by
      simpa [keys] using hgroups
    obtain ⟨path', hgroup⟩ := foldlM_grouped path hfree hfirst hfirst'
    obtain ⟨path'', hrest⟩ := ih path' hnext hothers hothers'
    have hall : members ++ (g :: groups).map (fun g => (g.1, groupBranch g.2))
        = members ++ [(g.1, groupBranch g.2)] ++ groups.map fun g => (g.1, groupBranch g.2) :=
      List.append_cons ..
    refine ⟨path'', ?_⟩
    rw [List.flatMap_cons, List.foldlM_append, hgroup, hall]
    exact hrest

/-! ## Drafts -/

/-- No key of a draft is used twice. -/
structure Draft.IsDistinct (d : Draft) : Prop where
  root : (d.assignments.map (·.1) ++ d.groups.map (·.1)).Nodup
  names : ∀ g ∈ d.groups, (g.2.map (·.1)).Nodup
  keys : ∀ g ∈ d.groups, ∀ t ∈ g.2, (t.2.map (·.1)).Nodup

/-- Assigned values hold the data that they were assigned. -/
theorem data_leaves (assignments : Assignments) :
    Members.data (leaves assignments) = assignedTable assignments := by
  induction assignments with
  | nil => rfl
  | cons a assignments ih => exact congrArg ((a.1, a.2.datum) :: ·) ih

/-- Filled tables hold what was assigned in them. -/
theorem data_filled (tables : List (String × Assignments)) :
    Members.data (filled tables) = tables.map fun t => (t.1, .table (assignedTable t.2)) := by
  induction tables with
  | nil => rfl
  | cons t tables ih =>
    have hdatum : (Branch.table .opened (leaves t.2)).datum = .table (assignedTable t.2) := by
      rw [Branch.datum, data_leaves]
    rw [List.map_cons, ← ih, ← hdatum]
    rfl

/-- Groups hold the tables that were filled in them, however they were begun. -/
theorem data_groups (groups : List (String × List (String × Assignments))) :
    Members.data (groups.map fun g => (g.1, groupBranch g.2)) = groups.map fun g =>
      (g.1, .table (g.2.map fun t => (t.1, .table (assignedTable t.2)))) := by
  induction groups with
  | nil => rfl
  | cons g groups ih =>
    rw [List.map_cons, Members.data, ih, groupBranch, Branch.datum, data_filled, List.map_cons]

/-- The statements of a draft put together its document. -/
theorem assemble?_statements {d : Draft} (h : d.IsDistinct) :
    assemble? d.statements = some d.datum := by
  have hroot : (assigned d.assignments).foldlM Assembly.step Assembly.empty
      = some ⟨leaves d.assignments, []⟩ :=
    opens_nil.foldlM_assigned [] (List.nodup_append.mp h.root).1
  have hkeys : Members.keys (leaves d.assignments) = d.assignments.map (·.1) := by
    simp [Members.keys, leaves]
  obtain ⟨path, hgroups⟩ := foldlM_groups [] (hkeys ▸ h.root) h.names h.keys
  rw [assemble?, Draft.statements, List.foldlM_append, hroot, Option.bind_eq_bind, Option.bind_some,
    hgroups, Option.map_some, data_append, data_leaves, data_groups, Draft.datum]

/-- No draft begins with a byte order mark. -/
theorem withoutMark_chars (d : Draft) : withoutMark d.chars = d.chars := by
  -- a draft begins with a key, with a blank line or not at all
  have hfirst : d.chars.head? ≠ some '\uFEFF' := by
    obtain ⟨assignments, groups⟩ := d
    cases assignments with
    | nil =>
      cases groups with
      | nil => exact Option.some_ne_none _ ∘ Eq.symm
      | cons g groups =>
        obtain ⟨name, tables⟩ := g
        cases tables <;> simp [Draft.chars, assignmentLines, groupLines, headerLines]
    | cons a assignments =>
      obtain ⟨c, others, heq, hc⟩ := exists_writeKey_eq a.1
      have hne := ne_of_test hc (d := '\uFEFF') rfl
      simp [Draft.chars, assignmentLines, heq, hne]
  rw [withoutMark]
  rintro rest heq
  exact hfirst (by rw [heq]; rfl)

/-- **Drafts read back.**  A draft whose keys are distinct is written as a document that reads as
the draft. -/
theorem read?_write {d : Draft} (h : d.IsDistinct) : read? d.write = some d.datum := by
  have hchars : withoutMark d.write.toList = d.chars := by
    rw [Draft.write, String.toList_ofList, withoutMark_chars]
  simp only [read?, hchars, statements?_chars, Option.bind_eq_bind, Option.bind_some,
    assemble?_statements h]

end Patchbay.Toml
