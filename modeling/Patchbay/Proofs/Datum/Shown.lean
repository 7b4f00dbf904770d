import Patchbay.Datum.Shape
import Patchbay.Proofs.Dictionary

/-!
# Values that are read back

A record is read from its members by their names, so the order in which a datum shows them makes no
difference (`Json.ShownBy`).  A decoder reads back what is written of a value if it does so from
every datum that shows it (`RoundTrips`).

## Contents

* `Json.shownBy_ofJson`, `Json.exists_sorted`: a JSON value with distinct keys is shown by itself,
  and by itself with its members in the order of their keys.
* `Record.of?_table`: a record is read from a table of its fields, in any order.
* `RoundTrips.list`, `Record.exists_shows`, `Record.exists_shows_kinded`: how lists, records and
  tagged records are read.
* `Record.Shows.required`, `withDefault`, `optional`, `nullable`: how the fields of a record are.
-/

namespace Patchbay

namespace Json

/-! ## Data that show a value -/

mutual

/-- The datum is the JSON value, except that members of objects, which have distinct keys, may be in
another order. -/
def ShownBy : Json → Datum → Prop
  | .null, d => d = .null
  | .bool b, d => d = .bool b
  | .integer n, d => d = .integer n
  | .number x, d => d = .number x
  | .text s, d => d = .text s
  | .array items, d => ∃ data, d = .list data ∧ AreShownBy items data
  | .object members, d =>
    (members.map (·.1)).Nodup ∧ ∃ data, d = .table data ∧ MembersAreShownBy members data

/-- The data are the items. -/
def AreShownBy : List Json → List Datum → Prop
  | [], data => data = []
  | item :: rest, data => ∃ d more, data = d :: more ∧ ShownBy item d ∧ AreShownBy rest more

/-- The data are the members in some order. -/
def MembersAreShownBy : List (String × Json) → List (String × Datum) → Prop
  | [], data => data = []
  | (key, value) :: rest, data =>
    ∃ d more, data.Perm ((key, d) :: more) ∧ ShownBy value d ∧ MembersAreShownBy rest more

end

/-- Only `null` is shown by `null`. -/
theorem eq_null_of_shownBy {j : Json} (h : j.ShownBy .null) : j = .null := by
  cases j <;> simp_all [ShownBy]

section Members

variable {members : List (String × Json)} {data data' : List (String × Datum)}

/-- The order in which members are shown makes no difference. -/
theorem MembersAreShownBy.perm (h : MembersAreShownBy members data) (hperm : data'.Perm data) :
    MembersAreShownBy members data' := by
  cases members with
  | nil =>
    obtain rfl : data = [] := h
    exact hperm.eq_nil
  | cons m rest =>
    obtain ⟨d, more, hdata, hvalue, hrest⟩ := h
    exact ⟨d, more, hperm.trans hdata, hvalue, hrest⟩

/-- Members are shown under their keys. -/
theorem MembersAreShownBy.keys (h : MembersAreShownBy members data) :
    (data.map (·.1)).Perm (members.map (·.1)) := by
  induction members generalizing data with
  | nil =>
    obtain rfl : data = [] := h
    exact .refl _
  | cons m rest ih =>
    obtain ⟨d, more, hdata, -, hrest⟩ := h
    exact (hdata.map _).trans ((ih hrest).cons _)

/-- Every member is shown. -/
theorem MembersAreShownBy.exists_of_mem (h : MembersAreShownBy members data) {key : String}
    {value : Json} (hmem : (key, value) ∈ members) : ∃ d, (key, d) ∈ data ∧ value.ShownBy d := by
  induction members generalizing data with
  | nil => exact absurd hmem List.not_mem_nil
  | cons m rest ih =>
    obtain ⟨d, more, hdata, hvalue, hrest⟩ := h
    rcases List.mem_cons.mp hmem with rfl | hmem
    · exact ⟨d, hdata.mem_iff.mpr List.mem_cons_self, hvalue⟩
    · obtain ⟨d', hmem', hvalue'⟩ := ih hrest hmem
      exact ⟨d', hdata.mem_iff.mpr (List.mem_cons_of_mem _ hmem'), hvalue'⟩

end Members

/-! ## Distinct keys -/

mutual

/-- No object in the value has two members with one key. -/
def DistinctKeys : Json → Prop
  | .array items => HaveDistinctKeys items
  | .object members => (members.map (·.1)).Nodup ∧ MembersHaveDistinctKeys members
  | _ => True

/-- Every item has distinct keys. -/
def HaveDistinctKeys : List Json → Prop
  | [] => True
  | item :: rest => DistinctKeys item ∧ HaveDistinctKeys rest

/-- Every member's value has distinct keys. -/
def MembersHaveDistinctKeys : List (String × Json) → Prop
  | [] => True
  | (_, value) :: rest => DistinctKeys value ∧ MembersHaveDistinctKeys rest

end

/-- Items have distinct keys if each of them has. -/
theorem haveDistinctKeys_iff {items : List Json} :
    HaveDistinctKeys items ↔ ∀ item ∈ items, item.DistinctKeys := by
  induction items with
  | nil => simp [HaveDistinctKeys]
  | cons item rest ih => simp [HaveDistinctKeys, ih]

mutual

/-- A value is shown by itself. -/
theorem shownBy_ofJson : (j : Json) → j.DistinctKeys → j.ShownBy (Datum.ofJson j)
  | .null, _ | .bool _, _ | .integer _, _ | .number _, _ | .text _, _ => rfl
  | .array items, h => ⟨_, rfl, areShownBy_ofJsonItems items h⟩
  | .object members, h => ⟨h.1, _, rfl, membersAreShownBy_ofJsonMembers members h.2⟩

/-- Items are shown by themselves. -/
theorem areShownBy_ofJsonItems : (items : List Json) → HaveDistinctKeys items →
    AreShownBy items (Datum.ofJsonItems items)
  | [], _ => rfl
  | item :: rest, h => ⟨_, _, rfl, shownBy_ofJson item h.1, areShownBy_ofJsonItems rest h.2⟩

/-- Members are shown by themselves. -/
theorem membersAreShownBy_ofJsonMembers : (members : List (String × Json)) →
    MembersHaveDistinctKeys members → MembersAreShownBy members (Datum.ofJsonMembers members)
  | [], _ => rfl
  | (_, value) :: rest, h =>
    ⟨_, _, .refl _, shownBy_ofJson value h.1, membersAreShownBy_ofJsonMembers rest h.2⟩

end

/-- Data of members, member by member. -/
theorem ofJsonMembers_eq_map (members : List (String × Json)) :
    Datum.ofJsonMembers members = members.map fun m => (m.1, Datum.ofJson m.2) := by
  induction members with
  | nil => rfl
  | cons m rest ih => rw [Datum.ofJsonMembers, ih, List.map_cons]

mutual

/-- A value is shown by itself with its members in the order of their keys. -/
theorem exists_sorted : (j : Json) → j.DistinctKeys →
    ∃ v, (Datum.ofJson j).toJson? = some v ∧ j.ShownBy (Datum.ofJson v)
  | .null, _ | .bool _, _ | .integer _, _ | .number _, _ | .text _, _ => ⟨_, rfl, rfl⟩
  | .array items, h => by
    obtain ⟨vs, hvs, hshown⟩ := exists_sortedItems items h
    exact ⟨.array vs, by rw [Datum.ofJson, Datum.toJson?, hvs, Option.map_some], _, rfl, hshown⟩
  | .object members, h => by
    obtain ⟨vs, hvs, hkeys, hshown⟩ := exists_sortedMembers members h.2
    have hperm : (Dictionary.ofList vs).entries.Perm vs := Dictionary.ofList_perm (hkeys ▸ h.1)
    refine ⟨.object (Dictionary.ofList vs).entries, ?_, h.1, _, rfl, hshown.perm ?_⟩
    · rw [Datum.ofJson, Datum.toJson?, hvs, Option.map_some]
    · rw [ofJsonMembers_eq_map, ofJsonMembers_eq_map]
      exact hperm.map _

/-- Items are shown by themselves with all members in order. -/
theorem exists_sortedItems : (items : List Json) → HaveDistinctKeys items →
    ∃ vs, Datum.toJsonItems? (Datum.ofJsonItems items) = some vs ∧
      AreShownBy items (Datum.ofJsonItems vs)
  | [], _ => ⟨[], rfl, rfl⟩
  | item :: rest, h => by
    obtain ⟨v, hv, hshown⟩ := exists_sorted item h.1
    obtain ⟨vs, hvs, hrest⟩ := exists_sortedItems rest h.2
    exact ⟨v :: vs, by simp [Datum.ofJsonItems, Datum.toJsonItems?, hv, hvs],
      _, _, rfl, hshown, hrest⟩

/-- Members are shown by themselves with all members of their values in order. -/
theorem exists_sortedMembers : (members : List (String × Json)) →
    MembersHaveDistinctKeys members →
    ∃ vs, Datum.toJsonMembers? (Datum.ofJsonMembers members) = some vs ∧
      vs.map (·.1) = members.map (·.1) ∧ MembersAreShownBy members (Datum.ofJsonMembers vs)
  | [], _ => ⟨[], rfl, rfl, rfl⟩
  | (key, value) :: rest, h => by
    obtain ⟨v, hv, hshown⟩ := exists_sorted value h.1
    obtain ⟨vs, hvs, hkeys, hrest⟩ := exists_sortedMembers rest h.2
    exact ⟨(key, v) :: vs, by simp [Datum.ofJsonMembers, Datum.toJsonMembers?, hv, hvs],
      congrArg (key :: ·) hkeys, _, _, .refl _, hshown, hrest⟩

end

/-! ## Readable data -/

/-- Members are readable if the datum of each of them is. -/
theorem membersAreReadable_iff {data : List (String × Datum)} :
    Datum.membersAreReadable data ↔ ∀ m ∈ data, m.2.isReadable := by
  induction data with
  | nil => simp [Datum.membersAreReadable]
  | cons m rest ih => simp [Datum.membersAreReadable, ih]

mutual

/-- What shows a value is readable. -/
theorem isReadable_of_shownBy : (j : Json) → ∀ {d}, j.ShownBy d → d.isReadable
  | .null, _, rfl | .bool _, _, rfl | .integer _, _, rfl => rfl
  | .number _, _, rfl | .text _, _, rfl => rfl
  | .array items, _, ⟨_, rfl, h⟩ => areReadable_of_areShownBy items h
  | .object members, _, ⟨_, _, rfl, h⟩ => membersAreReadable_of_membersAreShownBy members h

/-- What shows items is readable. -/
theorem areReadable_of_areShownBy :
    (items : List Json) → ∀ {data}, AreShownBy items data → Datum.areReadable data
  | [], _, rfl => rfl
  | item :: rest, _, ⟨_, _, rfl, h, hrest⟩ =>
    Bool.and_eq_true_iff.mpr ⟨isReadable_of_shownBy item h, areReadable_of_areShownBy rest hrest⟩

/-- What shows members is readable. -/
theorem membersAreReadable_of_membersAreShownBy : (members : List (String × Json)) →
    ∀ {data}, MembersAreShownBy members data → Datum.membersAreReadable data
  | [], _, rfl => rfl
  | (_, value) :: rest, _, ⟨_, _, hdata, h, hrest⟩ => by
    have hmore := membersAreReadable_iff.mp (membersAreReadable_of_membersAreShownBy rest hrest)
    refine membersAreReadable_iff.mpr fun m hm => ?_
    -- in whatever order: a member is the one in front or one of the rest
    rcases List.mem_cons.mp (hdata.mem_iff.mp hm) with rfl | hm
    · exact isReadable_of_shownBy value h
    · exact hmore m hm

end

/-- The kind of a tagged record is read, and the members without it are left. -/
theorem exists_kinded {kind : String} {members : List (String × Json)} {d : Datum}
    (h : (object (("kind", .text kind) :: members)).ShownBy d) :
    ∃ fields, d.kinded? = some (kind, fields) ∧ (object members).ShownBy fields := by
  have hreadable := isReadable_of_shownBy _ h
  obtain ⟨hkeys, data, rfl, d, more, hdata, hkind, hmembers⟩ := h
  obtain rfl : d = .text kind := hkind
  rw [List.map_cons, List.nodup_cons] at hkeys
  -- no other member has the key of the kind
  have hmore : ∀ m ∈ more, m.1 ≠ "kind" := fun m hm heq =>
    hkeys.1 (heq ▸ hmembers.keys.mem_iff.mp (List.mem_map_of_mem hm))
  have htagged : data.filter (·.1 == "kind") = [("kind", .text kind)] := by
    have hnone : more.filter (·.1 == "kind") = [] :=
      List.filter_eq_nil_iff.mpr fun m hm => by simpa using hmore m hm
    have hperm := hdata.filter (·.1 == "kind")
    rw [List.filter_cons_of_pos (by simp), hnone] at hperm
    exact List.perm_singleton.mp hperm
  have hrest : (data.filter (·.1 != "kind")).Perm more := by
    have hall : more.filter (·.1 != "kind") = more :=
      List.filter_eq_self.mpr fun m hm => by simpa using hmore m hm
    have hperm := hdata.filter (·.1 != "kind")
    rwa [List.filter_cons_of_neg (by simp), hall] at hperm
  refine ⟨.table (data.filter (·.1 != "kind")), ?_, hkeys.2, _, rfl, hmembers.perm hrest⟩
  rw [Datum.kinded?, if_pos (show Datum.membersAreReadable data from hreadable), htagged]

end Json

/-! ## Decoders -/

section Decoders

variable {α : Type} {decode : Decoder α} {write : α → Json}

/-- What is written of the value is read as the value, in whatever order members are shown. -/
def RoundTrips (decode : Decoder α) (write : α → Json) (a : α) : Prop :=
  ∀ dialect d, (write a).ShownBy d → decode dialect d = some a

namespace RoundTrips

theorem text (s : String) : RoundTrips Datum.text? Json.text s := by
  rintro dialect _ rfl
  rfl

theorem bool (b : Bool) : RoundTrips Datum.bool? Json.bool b := by
  rintro dialect _ rfl
  rfl

theorem count (n : ℕ) : RoundTrips Datum.count? Json.ofNat n := by
  rintro dialect _ rfl
  rw [Datum.count?, if_pos (Int.natCast_nonneg n), Int.toNat_natCast]

/-- A list is read back if its items are. -/
theorem list {items : List α} (h : ∀ a ∈ items, RoundTrips decode write a) :
    RoundTrips (Datum.list? decode) (fun items => .array (items.map write)) items := by
  rintro dialect _ ⟨data, rfl, hdata⟩
  rw [Datum.list?]
  -- on the items, each of which takes the first of the data that are left
  induction items generalizing data with
  | nil =>
    obtain rfl : data = [] := hdata
    rfl
  | cons a items ih =>
    obtain ⟨d, more, rfl, hd, hmore⟩ := hdata
    rw [List.mapM_cons, h a List.mem_cons_self dialect d hd,
      ih (fun a ha => h a (List.mem_cons_of_mem _ ha)) more hmore]
    rfl

theorem texts (items : List String) : RoundTrips (Datum.list? Datum.text?) Json.ofTexts items :=
  list fun s _ => text s

end RoundTrips

end Decoders

/-! ## Records -/

namespace Record

/-- The fields that were found are those that the members write. -/
structure Shows (r : Record) (members : List (String × Json)) : Prop where
  listed : r.listed = false
  present : ∀ {name value}, members.lookup name = some value →
    ∃ d, r.found.lookup name = some d ∧ value.ShownBy d
  absent : ∀ {name}, members.lookup name = none → r.found.lookup name = none

/-- A field with one name is found by it. -/
theorem find?_singletons {fields : List String} {name : String} (h : name ∈ fields) :
    (fields.map ([·])).find? (·.contains name) = some [name] := by
  induction fields with
  | nil => exact absurd h List.not_mem_nil
  | cons field rest ih =>
    by_cases heq : name = field
    · simp [heq]
    · have hrest := ih ((List.mem_cons.mp h).resolve_left heq)
      simpa [List.find?_cons, heq] using hrest

/-- Members of declared fields are all collected if their keys are distinct. -/
theorem collect_eq {fields : List String} {found data : List (String × Datum)}
    (hkeys : (data.map (·.1)).Nodup) (hfields : data.map (·.1) ⊆ fields)
    (hfresh : ∀ m ∈ data, found.lookup m.1 = none) :
    collect (fields.map ([·])) found data = some (found ++ data) := by
  -- what has been found moves along, and the next key is new to it
  induction data generalizing found with
  | nil => rw [collect, List.append_nil]
  | cons m rest ih =>
    rw [List.map_cons, List.nodup_cons] at hkeys
    rw [List.map_cons, List.cons_subset] at hfields
    have hnext : ∀ m' ∈ rest, (found ++ [m]).lookup m'.1 = none := fun m' hm' => by
      have hne : m'.1 ≠ m.1 := fun heq => hkeys.1 (heq ▸ List.mem_map_of_mem hm')
      rw [List.lookup_append, hfresh m' (List.mem_cons_of_mem _ hm'), Option.none_or,
        List.lookup_cons, beq_false_of_ne hne]
      rfl
    have hcollect := ih hkeys.2 hfields.2 hnext
    rw [List.append_assoc] at hcollect
    rw [collect, find?_singletons hfields.1]
    simp only [List.headD_cons, hfresh m List.mem_cons_self, Option.isSome_none,
      Bool.false_eq_true, if_false]
    exact hcollect

/-- A record is read from a table of declared fields with distinct names. -/
theorem of?_table {fields : List String} {data : List (String × Datum)} (dialect : Dialect)
    (hkeys : (data.map (·.1)).Nodup) (hfields : data.map (·.1) ⊆ fields) :
    of? fields dialect (.table data) = some ⟨dialect, false, data⟩ := by
  have hcollect : collect (fields.map ([·])) [] data = some data :=
    collect_eq hkeys hfields fun _ _ => rfl
  rw [of?, ofNames?, hcollect, Option.map_some]

/-- A record is read from every datum that shows its members. -/
theorem exists_shows (fields : List String) {members : List (String × Json)} {d : Datum}
    (hfields : members.map (·.1) ⊆ fields) (h : (Json.object members).ShownBy d)
    (dialect : Dialect) : ∃ r, of? fields dialect d = some r ∧ r.Shows members := by
  obtain ⟨hkeys, data, rfl, hdata⟩ := h
  have hdataKeys : (data.map (·.1)).Nodup := hdata.keys.nodup_iff.mpr hkeys
  have hdeclared : data.map (·.1) ⊆ fields := fun key hkey =>
    hfields (hdata.keys.mem_iff.mp hkey)
  refine ⟨_, of?_table dialect hdataKeys hdeclared, rfl, ?_, ?_⟩
  · intro name value hvalue
    obtain ⟨d, hd, hshown⟩ := hdata.exists_of_mem (Dictionary.mem_of_lookup hvalue)
    exact ⟨d, Dictionary.lookup_of_mem hdataKeys hd, hshown⟩
  · intro name habsent
    cases hlookup : data.lookup name with
    | none => rfl
    | some d =>
      have hmem := hdata.keys.mem_iff.mp (List.mem_map_of_mem (Dictionary.mem_of_lookup hlookup))
      obtain ⟨m, hm, rfl⟩ := List.mem_map.mp hmem
      exact absurd (Dictionary.lookup_of_mem hkeys hm) (habsent ▸ by simp)

/-- A tagged record is read from every datum that shows its kind and its members. -/
theorem exists_shows_kinded (fields : List String) {kind : String} {members : List (String × Json)}
    {d : Datum} (hfields : members.map (·.1) ⊆ fields)
    (h : (Json.object (("kind", .text kind) :: members)).ShownBy d) (dialect : Dialect) :
    ∃ content r, d.kinded? = some (kind, content) ∧ of? fields dialect content = some r ∧
      r.Shows members := by
  obtain ⟨content, hkind, hcontent⟩ := Json.exists_kinded h
  obtain ⟨r, hr, hshows⟩ := exists_shows fields hfields hcontent dialect
  exact ⟨content, r, hkind, hr, hshows⟩

section Fields

variable {α : Type} {decode : Decoder α} {write : α → Json} {r : Record}
  {members : List (String × Json)} (name : String)

/-- A field that has to be there is read. -/
theorem Shows.required (h : r.Shows members) {a : α} (ha : RoundTrips decode write a)
    (hname : members.lookup name = some (write a)) : r.required name decode = some a := by
  obtain ⟨d, hd, hshown⟩ := h.present hname
  rw [Record.required, hd, Option.bind_some, ha _ d hshown]

/-- A field that may be left out for a standard value is read. -/
theorem Shows.withDefault (h : r.Shows members) {a standard : α} (ha : RoundTrips decode write a)
    (hname : members.lookup name = some (write a) ∨ members.lookup name = none ∧ a = standard) :
    r.withDefault name decode standard = some a := by
  rcases hname with hname | ⟨hname, rfl⟩
  · obtain ⟨d, hd, hshown⟩ := h.present hname
    simp only [Record.withDefault, hd]
    exact ha _ d hshown
  · simp only [Record.withDefault, h.absent hname]

/-- What shows a value that is not `null` is read. -/
theorem Shows.found (h : r.Shows members) {a : α} (ha : RoundTrips decode write a)
    (hnull : write a ≠ .null) (hname : members.lookup name = some (write a)) :
    r.optional name decode = some (some a) ∧ r.nullable name decode = some (some a) := by
  obtain ⟨d, hd, hshown⟩ := h.present hname
  have hread := ha r.dialect d hshown
  cases d with
  | null => exact absurd (Json.eq_null_of_shownBy hshown) hnull
  | _ => simp only [optional, nullable, hd, hread, Option.map_some, and_self]

variable {o : Option α}

/-- A field that is left out without a value is read. -/
theorem Shows.optional (h : r.Shows members) (ho : ∀ a ∈ o, RoundTrips decode write a)
    (hnull : ∀ a, write a ≠ .null) (hname : members.lookup name = o.map write) :
    r.optional name decode = some o := by
  cases o with
  | none => simp only [Record.optional, h.absent hname]
  | some a => exact (h.found name (ho a rfl) (hnull a) hname).1

/-- A field that is `null` without a value is read. -/
theorem Shows.nullable (h : r.Shows members) (ho : ∀ a ∈ o, RoundTrips decode write a)
    (hnull : ∀ a, write a ≠ .null)
    (hname : members.lookup name = some ((o.map write).getD .null)) :
    r.nullable name decode = some o := by
  cases o with
  | none =>
    obtain ⟨d, hd, rfl⟩ := h.present hname
    simp only [Record.nullable, hd]
  | some a => exact (h.found name (ho a rfl) (hnull a) hname).2

end Fields

end Record

end Patchbay
