import Mathlib.Data.List.Induction
import Mathlib.Data.List.Nodup

/-!
# Lists without repetitions

`List.eraseDups` keeps the first occurrence of each element.  What it does with one more element at
the end (`eraseDups_concat`) carries most of the inductions here, which are from the end of the
list.
-/

namespace Patchbay

variable {α : Type} [BEq α] [LawfulBEq α]

/-- An element that is met once more has no effect, and a new element comes last. -/
theorem eraseDups_concat (l : List α) (a : α) :
    (l ++ [a]).eraseDups = if a ∈ l then l.eraseDups else l.eraseDups ++ [a] := by
  rw [List.eraseDups_append]
  split
  next h => simp [List.removeAll, h]
  next h => simp [List.removeAll, h, List.eraseDups_cons]

/-- What is left has no repetitions. -/
theorem nodup_eraseDups (l : List α) : l.eraseDups.Nodup := by
  induction l using List.reverseRecOn with
  | nil => exact List.nodup_nil
  | append_singleton rest a ih =>
    rw [eraseDups_concat]
    split
    next => exact ih
    next h => exact ih.append (List.nodup_singleton a) (by simpa [List.mem_eraseDups] using h)

/-- What has no repetitions left has none to remove. -/
theorem eraseDups_eraseDups (l : List α) : l.eraseDups.eraseDups = l.eraseDups := by
  induction l using List.reverseRecOn with
  | nil => rfl
  | append_singleton rest a ih =>
    rw [eraseDups_concat]
    split
    next => exact ih
    next hnew => rw [eraseDups_concat, if_neg (mt List.mem_eraseDups.mp hnew), ih]

/-- Repetitions may be removed before or after a choice of elements. -/
theorem filter_eraseDups (p : α → Bool) (l : List α) :
    l.eraseDups.filter p = (l.filter p).eraseDups := by
  induction l using List.reverseRecOn with
  | nil => rfl
  | append_singleton rest a ih =>
    rw [eraseDups_concat, List.filter_append]
    cases hpa : p a with
    | false => split <;> simp [ih, hpa]
    | true =>
      have hmem : a ∈ rest.filter p ↔ a ∈ rest := by simp [hpa]
      rw [List.filter_cons_of_pos hpa, List.filter_nil, eraseDups_concat, if_congr hmem rfl rfl]
      split <;> simp [ih, hpa]

/-- The first element with a property is not a repetition. -/
theorem find?_eraseDups (p : α → Bool) (l : List α) : l.eraseDups.find? p = l.find? p := by
  induction l using List.reverseRecOn with
  | nil => rfl
  | append_singleton rest a ih =>
    rw [eraseDups_concat, List.find?_append]
    split
    next hmem =>
      -- a repeated element with the property is not the first one
      rw [ih]
      cases hfound : rest.find? p with
      | some b => rfl
      | none => simp [List.find?_eq_none.mp hfound a hmem]
    next => rw [List.find?_append, ih]

/-- Removing repetitions commutes with a renaming that keeps the elements apart. -/
theorem eraseDups_map {β : Type} [BEq β] [LawfulBEq β] {f : α → β} {l : List α}
    (hf : ∀ a ∈ l, ∀ b ∈ l, f a = f b → a = b) : (l.map f).eraseDups = l.eraseDups.map f := by
  induction l using List.reverseRecOn with
  | nil => rfl
  | append_singleton rest a ih =>
    have hmem : f a ∈ rest.map f ↔ a ∈ rest := by
      refine ⟨fun h => ?_, List.mem_map_of_mem⟩
      obtain ⟨b, hb, heq⟩ := List.mem_map.mp h
      exact hf b (List.mem_append_left _ hb) a List.mem_concat_self heq ▸ hb
    have hrest := ih fun b hb c hc =>
      hf b (List.mem_append_left _ hb) c (List.mem_append_left _ hc)
    rw [List.map_append, List.map_singleton, eraseDups_concat, eraseDups_concat,
      if_congr hmem rfl rfl, hrest]
    split
    next => rfl
    next => rw [List.map_append, List.map_singleton]

/-- More than one element is left exactly if two are different. -/
theorem one_lt_length_eraseDups {l : List α} :
    1 < l.eraseDups.length ↔ ∃ a ∈ l, ∃ b ∈ l, a ≠ b := by
  cases l with
  | nil => simp
  | cons a rest =>
    have hleft : (rest.filter fun b => !b == a).eraseDups = [] ↔ ∀ b ∈ rest, b = a := by
      simp [List.eq_nil_iff_forall_not_mem, List.mem_eraseDups]
    rw [List.eraseDups_cons, List.length_cons, Nat.lt_add_left_iff_pos, List.length_pos_iff,
      ne_eq, hleft]
    constructor
    · intro h
      push Not at h
      obtain ⟨b, hb, hne⟩ := h
      exact ⟨b, List.mem_cons_of_mem _ hb, a, List.mem_cons_self, hne⟩
    · rintro ⟨b, hb, c, hc, hne⟩ h
      have hall : ∀ d ∈ a :: rest, d = a := List.forall_mem_cons.mpr ⟨rfl, h⟩
      exact hne ((hall b hb).trans (hall c hc).symm)

end Patchbay
