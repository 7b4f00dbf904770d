import Patchbay.Proofs.Chain.Arrange

/-!
# Where a chain is split

The arrangement of a chain, said of its effects in the order in which they are connected.  Sorting
puts them in the order of the stages (`Chain.StageOrder`).  The wrapper is the wrapping effect of
the highest rank, and of those of one rank the last one; behind it come exactly the effects of
higher rank and those of its rank that are connected after it (`Chain.SplitAt`).

## Shape of the proof

* `stageOrder_byStage`: sorting keeps every rank as it is.
* So the last wrapper of the sorted effects has a place among the effects as they are connected,
  and on either side of it the effects of its rank are the same in both (`exists_place`).
* From the place alone follows which effects can wrap where (`priority_le_of_wraps`,
  `priority_lt_of_wraps`) and what is behind the wrapper (`stageOrder_behind`).
-/

namespace Patchbay.Chain

/-- The steps in the order of their ranks; those of one rank keep their order. -/
structure StageOrder (steps ordered : List Step) : Prop where
  ranks : ordered.Pairwise fun a b => a.priority ≤ b.priority
  ties : ∀ rank, ordered.filter (·.priority == rank) = steps.filter (·.priority == rank)

/-- Sorting puts steps in the order of their stages. -/
theorem stageOrder_byStage (steps : List Step) : StageOrder steps (byStage steps) := by
  rw [byStage_eq_mergeSort]
  exact ⟨pairwise_key_mergeSort steps, filter_mergeSort steps⟩

/-- Every step is in the list of its rank, so no step is lost or doubled. -/
theorem StageOrder.perm {steps ordered : List Step} (h : StageOrder steps ordered) :
    ordered.Perm steps := by
  -- a step is counted among the steps of its own rank, which sorting keeps
  have hcount (l : List Step) (s : Step) :
      (l.filter (·.priority == s.priority)).count s = l.count s :=
    List.count_filter (beq_self_eq_true s.priority)
  refine List.perm_iff_count.mpr fun s => ?_
  rw [← hcount, h.ties, hcount]

/-- The chain is split at a wrapper into an inner and an outer half. -/
structure SplitAt (c : Chain) (wrapper : Step) (inner outer : Chain) : Prop where
  wraps : wrapper.wraps
  /-- The wrapper is in both halves, and nothing else of the sorted chain is lost or doubled. -/
  whole : inner.steps ++ outer.effects = c.sorted.steps
  last : inner.steps.getLast? = some wrapper
  head : outer.head? = some wrapper
  /-- The wrapper is an effect of the inner half, even if the head of the chain wraps. -/
  enclosed : wrapper ∈ inner.effects
  /-- Nothing behind the wrapper wraps. -/
  quiet : ∀ e ∈ outer.effects, e.wraps = false
  /-- The place of the wrapper among the effects as they are connected: no wrapping effect has a
  higher rank, and none of its rank comes later.  Behind it are the effects of higher rank and those
  of its rank that come later. -/
  place : ∃ before after, c.effects = before ++ wrapper :: after ∧
    (∀ e ∈ before, e.wraps → e.priority ≤ wrapper.priority) ∧
    (∀ e ∈ after, e.wraps → e.priority < wrapper.priority) ∧
    StageOrder (before.filter (wrapper.priority < ·.priority) ++
      after.filter (wrapper.priority ≤ ·.priority)) outer.effects

/-! ## The steps of one rank -/

section Rank

variable {l : List Step} {rank : ℕ}

/-- Steps of other ranks leave no step of a rank. -/
theorem filter_rank_eq_nil (h : ∀ s ∈ l, s.priority ≠ rank) :
    l.filter (·.priority == rank) = [] :=
  List.filter_eq_nil_iff.mpr fun s hs heq => h s hs (beq_iff_eq.mp heq)

/-- Of a list from which no step of a rank is left out, the rank is all there. -/
theorem filter_rank_filter {p : Step → Bool} (h : ∀ s, s.priority = rank → p s) :
    (l.filter p).filter (·.priority == rank) = l.filter (·.priority == rank) := by
  rw [List.filter_filter]
  refine List.filter_congr fun s _ => ?_
  by_cases hs : s.priority = rank
  · rw [h s hs, Bool.and_true]
  · rw [beq_eq_false_iff_ne.mpr hs, Bool.false_and]

end Rank

/-! ## The place of the last wrapper -/

section Place

variable {effects front behind before after : List Step} {wrapper : Step}

/-- A step of a sorted list has a place in the list that was sorted, where the later steps of its
rank are the same. -/
theorem exists_place (h : StageOrder effects (front ++ wrapper :: behind)) :
    ∃ before after, effects = before ++ wrapper :: after ∧
      after.filter (·.priority == wrapper.priority) =
        behind.filter (·.priority == wrapper.priority) := by
  have hself : (wrapper.priority == wrapper.priority) = true := beq_self_eq_true _
  -- the list of the rank is the same on both sides, so cut it at the wrapper and go back from there
  have hrank := h.ties wrapper.priority
  rw [List.filter_append, List.filter_cons, if_pos hself] at hrank
  obtain ⟨low, high, rfl, -, hhigh⟩ := List.filter_eq_append_iff.mp hrank.symm
  obtain ⟨between, after, rfl, -, -, hafter⟩ := List.filter_eq_cons_iff.mp hhigh
  exact ⟨low ++ between, after, (List.append_assoc ..).symm, hafter⟩

variable (h : StageOrder effects (front ++ wrapper :: behind))
include h

/-- No step before the wrapper has a higher rank. -/
theorem priority_le_of_mem_front {e : Step} (he : e ∈ front) : e.priority ≤ wrapper.priority :=
  (List.pairwise_append.mp h.ranks).2.2 e he wrapper List.mem_cons_self

/-- No step behind the wrapper has a lower rank. -/
theorem priority_le_of_mem_behind {e : Step} (he : e ∈ behind) : wrapper.priority ≤ e.priority :=
  (List.pairwise_cons.mp (List.pairwise_append.mp h.ranks).2.1).1 e he

/-- No wrapping effect has a higher rank than the last one in the sorted list. -/
theorem priority_le_of_wraps (hquiet : ∀ e ∈ behind, e.wraps = false) {e : Step} (he : e ∈ effects)
    (hwraps : e.wraps) : e.priority ≤ wrapper.priority := by
  rcases List.mem_append.mp (h.perm.mem_iff.mpr he) with hfront | hrest
  · exact priority_le_of_mem_front h hfront
  rcases List.mem_cons.mp hrest with rfl | hbehind
  · exact le_rfl
  · exact absurd hwraps (by simp [hquiet e hbehind])

variable (hplace : effects = before ++ wrapper :: after)
  (hafter : after.filter (·.priority == wrapper.priority) =
    behind.filter (·.priority == wrapper.priority))
include hplace hafter

/-- A wrapping effect that is connected after the last one in the sorted list has a lower rank. -/
theorem priority_lt_of_wraps (hquiet : ∀ e ∈ behind, e.wraps = false) {e : Step} (he : e ∈ after)
    (hwraps : e.wraps) : e.priority < wrapper.priority := by
  have hmem : e ∈ effects := hplace ▸ List.mem_append_right _ (List.mem_cons_of_mem _ he)
  -- one of the same rank would be behind the wrapper in the sorted list, too
  refine (priority_le_of_wraps h hquiet hmem hwraps).lt_of_ne fun heq => ?_
  have hrank : e ∈ after.filter (·.priority == wrapper.priority) :=
    List.mem_filter.mpr ⟨he, beq_iff_eq.mpr heq⟩
  have hbehind := List.mem_of_mem_filter (hafter ▸ hrank)
  exact absurd hwraps (by simp [hquiet e hbehind])

/-- Behind a step of the sorted list are the steps of higher rank and those of its rank that are
connected after it. -/
theorem stageOrder_behind :
    StageOrder (before.filter (wrapper.priority < ·.priority) ++
      after.filter (wrapper.priority ≤ ·.priority)) behind := by
  refine ⟨(List.pairwise_cons.mp (List.pairwise_append.mp h.ranks).2.1).2, fun rank => ?_⟩
  rw [List.filter_append]
  rcases lt_trichotomy rank wrapper.priority with hlow | rfl | hhigh
  · -- lower ranks are on neither side
    have hbehind : ∀ e ∈ behind, e.priority ≠ rank := fun e he => by
      have hle := priority_le_of_mem_behind h he
      omega
    rw [filter_rank_eq_nil hbehind, filter_rank_eq_nil (by simp; omega),
      filter_rank_eq_nil (by simp; omega), List.append_nil]
  · -- of the rank itself only what comes later counts
    have hbefore : (before.filter (wrapper.priority < ·.priority)).filter
        (·.priority == wrapper.priority) = [] := filter_rank_eq_nil (by simp; omega)
    rw [hbefore, filter_rank_filter fun s hs => decide_eq_true hs.ge, hafter, List.nil_append]
  · -- the steps of a higher rank are all behind
    have hfront : ∀ e ∈ front, e.priority ≠ rank := fun e he => by
      have hle := priority_le_of_mem_front h he
      omega
    have hself : ¬ (wrapper.priority == rank) = true := by simp; omega
    have hall := h.ties rank
    rw [hplace, List.filter_append, List.filter_append, filter_rank_eq_nil hfront,
      List.nil_append, List.filter_cons, if_neg hself, List.filter_cons, if_neg hself] at hall
    rw [filter_rank_filter (by simp; omega), filter_rank_filter (by simp; omega), hall]

end Place

/-! ## The arrangement -/

/-- The halves before and behind the last wrapping effect of the sorted ones are split at it. -/
theorem splitAt_of_byStage {head : Step} {effects front behind : List Step} {wrapper : Step}
    (hsplit : byStage effects = front ++ wrapper :: behind) (hwraps : wrapper.wraps)
    (hquiet : ∀ e ∈ behind, e.wraps = false) :
    (Chain.mk (head :: effects)).SplitAt wrapper ⟨head :: (front ++ [wrapper])⟩
      ⟨wrapper :: behind⟩ := by
  have h : StageOrder effects (front ++ wrapper :: behind) := hsplit ▸ stageOrder_byStage effects
  obtain ⟨before, after, hplace, hafter⟩ := exists_place h
  refine ⟨hwraps, ?whole, ?last, rfl, ?enclosed, hquiet, before, after, hplace, ?before, ?after,
    stageOrder_behind h hplace hafter⟩
  case whole =>
    show head :: (front ++ [wrapper]) ++ behind = head :: byStage effects
    rw [hsplit, List.cons_append, List.append_assoc, List.singleton_append]
  case last => exact List.getLast?_concat (l := head :: front)
  case enclosed => exact List.mem_append_right _ List.mem_cons_self
  case before =>
    intro e he
    exact priority_le_of_wraps h hquiet (hplace ▸ List.mem_append_left _ he)
  case after =>
    intro e he
    exact priority_lt_of_wraps h hplace hafter hquiet he

/-- **Sorting and lifting a chain.**  The sorted chain keeps the head and has the effects in the
order of their stages, those of one stage as they are connected.  It stays whole exactly if no
effect wraps, whether the head does or not, and otherwise it is split at the last wrapping effect of
the highest rank. -/
theorem lifted_sorted (c : Chain) :
    c.sorted.head? = c.head? ∧ StageOrder c.effects c.sorted.effects ∧
      (c.sorted.lifted = .plain c.sorted ↔ ∀ e ∈ c.effects, e.wraps = false) ∧
      ((∃ e ∈ c.effects, e.wraps) → ∃ wrapper inner outer,
        c.sorted.lifted = .wrapped wrapper inner outer ∧ c.SplitAt wrapper inner outer) := by
  obtain ⟨_ | ⟨head, effects⟩⟩ := c
  · exact ⟨rfl, stageOrder_byStage [], iff_of_true rfl fun _ he => absurd he List.not_mem_nil,
      fun ⟨_, he, _⟩ => absurd he List.not_mem_nil⟩
  -- the cases are those of the sorted effects, the statement is about the effects as they are
  -- connected
  have hmem (e : Step) : e ∈ byStage effects ↔ e ∈ effects :=
    (stageOrder_byStage effects).perm.mem_iff
  refine ⟨rfl, stageOrder_byStage effects, ?_⟩
  show ((Chain.mk (head :: effects)).arrange = .plain ⟨head :: byStage effects⟩ ↔
      ∀ e ∈ effects, e.wraps = false) ∧ ((∃ e ∈ effects, e.wraps) → _)
  rcases exists_last_or_forall_not Step.wraps (byStage effects) with
    hnone | ⟨front, wrapper, behind, hsplit, hwraps, hquiet⟩
  · have hnone' : ∀ e ∈ effects, e.wraps = false := fun e he => hnone e ((hmem e).mpr he)
    refine ⟨iff_of_true (arrange_plain hnone) hnone', ?_⟩
    rintro ⟨e, he, hwraps⟩
    exact absurd hwraps (by simp [hnone' e he])
  · have hwrapper : wrapper ∈ effects := (hmem wrapper).mp (hsplit ▸ by simp)
    have harrange : (Chain.mk (head :: effects)).arrange = _ :=
      arrange_wrapped hsplit hwraps hquiet
    refine ⟨iff_of_false (by rw [harrange]; simp) fun hnone => ?_, fun _ => ?_⟩
    · exact absurd hwraps (by simp [hnone wrapper hwrapper])
    · exact ⟨wrapper, _, _, harrange, splitAt_of_byStage hsplit hwraps hquiet⟩

/-- A head that wraps, two wrappers of one rank with effects of that rank around them, and a wrapper
of a lower rank that is connected last. -/
def stackedChain : Chain := ⟨[
  step "kick" .source true, step "rev" .wrapper true, step "loud" .modulation false,
  step "early" .wrapper false, step "press" .wrapper true, step "late" .wrapper false,
  step "soft" .modulation true]⟩
where
  /-- A step without properties. -/
  step (id : String) (category : Category) (wraps : Bool) : Step :=
    { id, nodeType := id, category := some category, stage := some (.standard category), wraps,
      call := id, properties := [] }

/-- Of two wrapping effects of one rank the later one encloses the chain. -/
theorem lifted_sorted_stackedChain :
    (∃ e ∈ stackedChain.effects, e.wraps) ∧ ∃ wrapper inner outer,
      stackedChain.sorted.lifted = .wrapped wrapper inner outer ∧
        inner.ids = ["kick", "loud", "soft", "rev", "early", "press"] ∧
        outer.ids = ["press", "late"] ∧ stackedChain.SplitAt wrapper inner outer := by
  have hwraps : ∃ e ∈ stackedChain.effects, e.wraps := by decide
  have hhalves : ∃ wrapper inner outer,
      stackedChain.sorted.lifted = .wrapped wrapper inner outer ∧
        inner.ids = ["kick", "loud", "soft", "rev", "early", "press"] ∧
        outer.ids = ["press", "late"] := ⟨_, _, _, rfl, by decide, by decide⟩
  obtain ⟨wrapper, inner, outer, hlifted, hinner, houter⟩ := hhalves
  obtain ⟨wrapper', inner', outer', hlifted', hsplit⟩ := (lifted_sorted stackedChain).2.2.2 hwraps
  obtain ⟨rfl, rfl, rfl⟩ := Arrangement.wrapped.inj (hlifted'.symm.trans hlifted)
  exact ⟨hwraps, wrapper', inner', outer', hlifted, hinner, houter, hsplit⟩

end Patchbay.Chain
