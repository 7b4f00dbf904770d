import Mathlib.Data.List.Perm.Basic
import Mathlib.Data.List.Sort
import Patchbay.Dictionary

/-!
# Dictionaries and lists of entries

What is looked up is an entry (`mem_of_lookup`), and an entry is looked up by its key if no other
one has it (`lookup_of_mem`).  Putting an entry in changes what is found under its key and nothing
else (`get?_insert`).  The entries of `Dictionary.ofList` are among those of the list
(`mem_of_mem_ofList`); if no key is in the list twice they are all of them in another order
(`ofList_perm`), so a dictionary is the one of its own entries (`ofList_entries`).
-/

namespace Patchbay.Dictionary

variable {α : Type}

theorem mem_of_lookup {key : String} {value : α} {entries : List (String × α)}
    (h : entries.lookup key = some value) : (key, value) ∈ entries := by
  obtain ⟨before, after, hentries, -⟩ := List.lookup_eq_some_iff.mp h
  rw [hentries]
  exact List.mem_append_right _ List.mem_cons_self

/-- An entry is looked up by its key if no other one has the key. -/
theorem lookup_of_mem {key : String} {value : α} {entries : List (String × α)}
    (hkeys : (entries.map (·.1)).Nodup) (h : (key, value) ∈ entries) :
    entries.lookup key = some value := by
  induction entries with
  | nil => exact absurd h List.not_mem_nil
  | cons first rest ih =>
    rw [List.map_cons, List.nodup_cons] at hkeys
    rcases List.mem_cons.mp h with rfl | h
    · exact List.lookup_cons_self
    · have hne : key ≠ first.1 := fun heq => hkeys.1 (heq ▸ List.mem_map_of_mem h)
      rw [List.lookup_cons, beq_false_of_ne hne]
      exact ih hkeys.2 h

/-- What a dictionary has under a key is an entry. -/
theorem mem_of_get? {d : Dictionary α} {key : String} {value : α} (h : d.get? key = some value) :
    (key, value) ∈ d.entries := mem_of_lookup h

/-- An entry that is put in is found under its key, and nothing else changes. -/
theorem lookup_insertEntry (key : String) (value : α) (entries : List (String × α)) (k : String) :
    (insertEntry key value entries).lookup k =
      if k = key then some value else entries.lookup k := by
  induction entries with
  | nil =>
    by_cases h : k = key
    · simp [insertEntry, h]
    · simp [insertEntry, List.lookup_cons, beq_false_of_ne h, h]
  | cons first rest ih =>
    obtain ⟨k', v⟩ := first
    unfold insertEntry
    split
    · by_cases h : k = key
      · simp [h]
      · rw [List.lookup_cons, beq_false_of_ne h, if_neg h]
    split
    next heq =>
      subst heq
      by_cases h : k = key
      · simp [h]
      · simp [List.lookup_cons, beq_false_of_ne h, h]
    next hne =>
      rw [List.lookup_cons, List.lookup_cons, ih]
      by_cases h : k = key
      · subst h
        rw [beq_false_of_ne hne]
      · rw [if_neg h, if_neg h]

/-- The value that is put in is found under its key; under the other keys nothing changes. -/
theorem get?_insert (d : Dictionary α) (key : String) (value : α) (k : String) :
    (d.insert key value).get? k = if k = key then some value else d.get? k :=
  lookup_insertEntry key value d.entries k

/-- The entries put together from a list are entries of it. -/
theorem mem_of_mem_ofList {entries : List (String × α)} {e : String × α}
    (h : e ∈ (ofList entries).entries) : e ∈ entries := by
  -- on the entries that are left; what is there before moves along
  have hfold : ∀ d : Dictionary α,
      e ∈ (entries.foldl (fun d e => d.insert e.1 e.2) d).entries →
        e ∈ d.entries ∨ e ∈ entries := by
    clear h
    induction entries with
    | nil => exact fun d h => .inl h
    | cons first rest ih =>
      intro d h
      rcases ih _ h with h | h
      · rcases mem_insertEntry h with rfl | h
        · exact .inr List.mem_cons_self
        · exact .inl h
      · exact .inr (List.mem_cons_of_mem _ h)
  exact (hfold empty h).resolve_left List.not_mem_nil

/-- An entry with a new key is put in without replacing one. -/
theorem insertEntry_perm {key : String} {value : α} {l : List (String × α)}
    (h : key ∉ l.map (·.1)) : (insertEntry key value l).Perm ((key, value) :: l) := by
  induction l with
  | nil => exact .refl _
  | cons a rest ih =>
    rw [List.map_cons, List.mem_cons, not_or] at h
    unfold insertEntry
    split
    · exact .refl _
    · rw [if_neg h.1]
      exact ((ih h.2).cons a).trans (.swap _ _ _)

/-- Entries with distinct keys are all kept. -/
theorem ofList_perm {entries : List (String × α)} (h : (entries.map (·.1)).Nodup) :
    (ofList entries).entries.Perm entries := by
  -- for any dictionary that the entries are put into, since it grows along the list
  have hfold : ∀ d : Dictionary α, ((d.entries ++ entries).map (·.1)).Nodup →
      (entries.foldl (fun d e => d.insert e.1 e.2) d).entries.Perm (d.entries ++ entries) := by
    clear h
    induction entries with
    | nil => exact fun d _ => (List.append_nil d.entries).symm ▸ .refl _
    | cons first rest ih =>
      intro d hd
      have hfirst : first.1 ∉ d.entries.map (·.1) := by
        rw [List.map_append, List.map_cons] at hd
        exact fun hmem => (List.nodup_append.mp hd).2.2 _ hmem _ List.mem_cons_self rfl
      have hinsert : (d.insert first.1 first.2).entries.Perm (first :: d.entries) :=
        insertEntry_perm hfirst
      have hmove : (first :: d.entries ++ rest).Perm (d.entries ++ first :: rest) :=
        List.perm_middle.symm
      have hperm := (hinsert.append_right rest).trans hmove
      exact (ih _ ((hperm.map _).nodup_iff.mpr hd)).trans hperm
  exact hfold empty h

/-- The keys of a dictionary are distinct, because they are in order. -/
theorem nodup_keys (d : Dictionary α) : (d.entries.map (·.1)).Nodup := by
  refine List.pairwise_map.mpr (d.ordered.imp fun {a b} h heq => ?_)
  rw [heq] at h
  exact String.lt_irrefl _ h

/-- A dictionary is the one of its entries. -/
theorem ofList_entries (d : Dictionary α) : ofList d.entries = d := by
  have hentries : (ofList d.entries).entries = d.entries :=
    (ofList_perm d.nodup_keys).eq_of_pairwise
      (fun _ _ _ _ h h' => absurd (String.lt_trans h h') (String.lt_irrefl _))
      (ofList d.entries).ordered d.ordered
  cases h : ofList d.entries
  cases d
  simp_all

end Patchbay.Dictionary
