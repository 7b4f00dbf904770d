import Mathlib.Data.List.DropRight
import Mathlib.Data.List.Sort
import Patchbay.Chain.Arrange

/-!
# The arrangement of a chain

Putting the effects of a chain in the order of the stages is a stable sort by rank
(`byStage_eq_mergeSort`), and lifting the wrapper out splits the sorted effects at the last one that
wraps (`splitAtLast_append`).  Together they give the arrangement of a chain in its two forms,
`arrange_plain` and `arrange_wrapped`.
-/

namespace Patchbay

/-! ## Stable sorting by a table of ranks -/

section Ranks

variable {α : Type} {key : α → ℕ}

/-- A sorted list is put together again from its elements of each rank. -/
private theorem flatMap_filter_of_pairwise {ranks : List ℕ} (hranks : ranks.Pairwise (· < ·))
    {l : List α} (hsorted : l.Pairwise fun a b => key a ≤ key b)
    (hl : ∀ a ∈ l, key a ∈ ranks) :
    ranks.flatMap (fun rank => l.filter (key · == rank)) = l := by
  induction l with
  | nil => simp
  | cons a rest ih =>
    obtain ⟨hfirst, hsorted⟩ := List.pairwise_cons.mp hsorted
    have hrest := ih hsorted fun b hb => hl b (List.mem_cons_of_mem _ hb)
    obtain ⟨low, high, hsplit⟩ := List.append_of_mem (hl a List.mem_cons_self)
    rw [hsplit, List.pairwise_append, List.pairwise_cons] at hranks
    obtain ⟨-, ⟨hhigh, -⟩, hlow⟩ := hranks
    -- no element has a rank below that of the first, and the ranks above do not see the first
    have hbelow : ∀ b ∈ a :: rest, key b ∉ low := by
      intro b hb hmem
      have hlt := hlow _ hmem _ List.mem_cons_self
      rcases List.mem_cons.mp hb with rfl | hb
      · exact lt_irrefl _ hlt
      · exact absurd (hfirst b hb) (not_le.mpr hlt)
    have hempty : ∀ l ⊆ a :: rest, low.flatMap (fun rank => l.filter (key · == rank)) = [] := by
      intro l hl
      refine List.flatMap_eq_nil_iff.mpr fun rank hrank => List.filter_eq_nil_iff.mpr ?_
      intro b hb heq
      exact hbelow b (hl hb) (beq_iff_eq.mp heq ▸ hrank)
    have habove : high.flatMap (fun rank => (a :: rest).filter (key · == rank)) =
        high.flatMap (fun rank => rest.filter (key · == rank)) := by
      refine List.flatMap_congr fun rank hrank => List.filter_cons_of_neg ?_
      exact fun h => (hhigh rank hrank).ne (beq_iff_eq.mp h)
    rw [hsplit, List.flatMap_append, List.flatMap_cons,
      hempty rest (List.subset_cons_self a rest), List.nil_append] at hrest
    have hhere : (a :: rest).filter (key · == key a) = a :: rest.filter (key · == key a) :=
      List.filter_cons_of_pos (beq_self_eq_true (key a))
    rw [hsplit, List.flatMap_append, List.flatMap_cons, hempty _ (List.Subset.refl _),
      List.nil_append, habove, hhere, List.cons_append, hrest]

private theorem keyLe_trans (a b c : α) (hab : decide (key a ≤ key b) = true)
    (hbc : decide (key b ≤ key c) = true) : decide (key a ≤ key c) = true :=
  decide_eq_true ((of_decide_eq_true hab).trans (of_decide_eq_true hbc))

private theorem keyLe_total (a b : α) : decide (key a ≤ key b) || decide (key b ≤ key a) := by
  simpa using le_total (key a) (key b)

/-- A stable sort leaves the elements of one rank in their order. -/
theorem filter_mergeSort (l : List α) (rank : ℕ) :
    (l.mergeSort fun a b => key a ≤ key b).filter (key · == rank) = l.filter (key · == rank) := by
  have hperm := (List.mergeSort_perm l fun a b => decide (key a ≤ key b)).filter (key · == rank)
  have hpairwise : (l.filter (key · == rank)).Pairwise
      fun a b => decide (key a ≤ key b) = true := by
    refine List.pairwise_of_forall_mem_list fun a ha b hb => decide_eq_true ?_
    have ha := beq_iff_eq.mp (List.mem_filter.mp ha).2
    have hb := beq_iff_eq.mp (List.mem_filter.mp hb).2
    rw [ha, hb]
  have hsublist := (List.sublist_mergeSort keyLe_trans keyLe_total hpairwise
    List.filter_sublist).filter (key · == rank)
  simp only [List.filter_filter, Bool.and_self] at hsublist
  -- the elements of the rank are a sublist of those of the sorted list, and as many
  exact (hsublist.eq_of_length hperm.length_eq.symm).symm

/-- A sort puts no element before one of a lower rank. -/
theorem pairwise_key_mergeSort (l : List α) :
    (l.mergeSort fun a b => key a ≤ key b).Pairwise fun a b => key a ≤ key b :=
  (List.pairwise_mergeSort keyLe_trans keyLe_total l).imp of_decide_eq_true

/-- Collecting the elements rank by rank is a stable sort. -/
theorem flatMap_filter_eq_mergeSort {ranks : List ℕ} (hranks : ranks.Pairwise (· < ·))
    {l : List α} (hl : ∀ a ∈ l, key a ∈ ranks) :
    ranks.flatMap (fun rank => l.filter (key · == rank)) =
      l.mergeSort fun a b => key a ≤ key b := by
  rw [← flatMap_filter_of_pairwise hranks (pairwise_key_mergeSort l)
    fun a ha => hl a (List.mem_mergeSort.mp ha)]
  exact List.flatMap_congr fun rank _ => (filter_mergeSort l rank).symm

end Ranks

/-- Every step has one of the ranks of the table. -/
theorem Step.priority_mem (s : Step) : s.priority ∈ Stage.priorities := by
  unfold Step.priority
  rcases s.stage with _ | category | name
  · decide
  · exact List.mem_map.mpr ⟨category, by cases category <;> decide, rfl⟩
  · show Stage.defaultPriority ∈ Stage.priorities
    decide

/-! ## Splitting at the last element with a property -/

section Split

variable {α : Type} {p : α → Bool}

/-- A list without an element that passes is not split. -/
theorem splitAtLast_eq_none {l : List α} (h : ∀ a ∈ l, p a = false) : splitAtLast p l = none := by
  induction l with
  | nil => rfl
  | cons a rest ih =>
    rw [splitAtLast, ih fun b hb => h b (List.mem_cons_of_mem _ hb)]
    simp [h a List.mem_cons_self]

/-- A list is split at the element that passes and has none behind it. -/
theorem splitAtLast_append {before after : List α} {x : α} (hx : p x)
    (hafter : ∀ a ∈ after, p a = false) :
    splitAtLast p (before ++ x :: after) = some (before, x, after) := by
  induction before with
  | nil => rw [List.nil_append, splitAtLast, splitAtLast_eq_none hafter, if_pos hx]
  | cons a rest ih => rw [List.cons_append, splitAtLast, ih]

/-- Splitting may be done before or after a map. -/
theorem splitAtLast_map {β : Type} (f : β → α) (l : List β) :
    splitAtLast p (l.map f) = (splitAtLast (fun b => p (f b)) l).map fun (before, x, after) =>
      (before.map f, f x, after.map f) := by
  induction l with
  | nil => rfl
  | cons b rest ih =>
    rw [List.map_cons, splitAtLast, ih, splitAtLast]
    cases splitAtLast (fun b => p (f b)) rest with
    | some split => rfl
    | none => by_cases hb : p (f b) <;> simp [hb]

/-- A list has no element with a property, or it has a last one. -/
theorem exists_last_or_forall_not (p : α → Bool) (l : List α) :
    (∀ a ∈ l, p a = false) ∨
      ∃ before x after, l = before ++ x :: after ∧ p x ∧ ∀ a ∈ after, p a = false := by
  induction l with
  | nil => exact .inl fun _ h => absurd h List.not_mem_nil
  | cons a rest ih =>
    rcases ih with h | ⟨before, x, after, rfl, hx, hafter⟩
    · cases ha : p a with
      | true => exact .inr ⟨[], a, rest, rfl, ha, h⟩
      | false => exact .inl (List.forall_mem_cons.mpr ⟨ha, h⟩)
    · exact .inr ⟨a :: before, x, after, rfl, hx, hafter⟩

section Last

variable {before after : List α} {x : α} (hx : p x) (hafter : ∀ a ∈ after, p a = false)
include hx hafter

/-- What is left without the elements behind the last one with a property. -/
theorem rdropWhile_not_append : (before ++ x :: after).rdropWhile (!p ·) = before ++ [x] := by
  have hpast : ∀ a ∈ after.reverse, (!p a) = true := fun a ha => by
    simp [hafter a (List.mem_reverse.mp ha)]
  rw [List.rdropWhile, List.reverse_append, List.reverse_cons, List.append_assoc,
    List.dropWhile_append_of_pos hpast]
  simp [hx]

/-- The elements behind the last one with a property. -/
theorem rtakeWhile_not_append : (before ++ x :: after).rtakeWhile (!p ·) = after := by
  have hpast : ∀ a ∈ after.reverse, (!p a) = true := fun a ha => by
    simp [hafter a (List.mem_reverse.mp ha)]
  rw [List.rtakeWhile, List.reverse_append, List.reverse_cons, List.append_assoc,
    List.takeWhile_append_of_pos hpast]
  simp [hx]

end Last

end Split

namespace Chain

variable {head : Step} {effects : List Step}

/-- The effects in the order of their stages; those of one stage keep their order. -/
theorem byStage_eq_mergeSort (steps : List Step) :
    byStage steps = steps.mergeSort fun a b => a.priority ≤ b.priority :=
  flatMap_filter_eq_mergeSort (by decide) fun s _ => s.priority_mem

/-- A chain in which no effect wraps is sorted and left whole. -/
theorem arrange_plain (h : ∀ e ∈ byStage effects, e.wraps = false) :
    (Chain.mk (head :: effects)).arrange = .plain ⟨head :: byStage effects⟩ := by
  show lifted ⟨head :: byStage effects⟩ = _
  rw [lifted, Chain.effects, List.tail_cons, splitAtLast_eq_none h]

/-- A chain whose last wrapping effect is `wrapper` is split there, and both halves have it. -/
theorem arrange_wrapped {before after : List Step} {wrapper : Step}
    (h : byStage effects = before ++ wrapper :: after) (hwraps : wrapper.wraps)
    (hafter : ∀ e ∈ after, e.wraps = false) :
    (Chain.mk (head :: effects)).arrange =
      .wrapped wrapper ⟨head :: (before ++ [wrapper])⟩ ⟨wrapper :: after⟩ := by
  show lifted ⟨head :: byStage effects⟩ = _
  rw [lifted, Chain.effects, List.tail_cons, h, splitAtLast_append hwraps hafter]
  rfl

end Chain

end Patchbay
