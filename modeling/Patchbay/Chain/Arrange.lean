import Patchbay.Chain

/-!
# The order of effects

The effects of a chain take effect in the order of their stages, and within a stage in the order
in which they are connected.  The last wrapping effect in that order encloses everything before
it: it is lifted out of the chain and splits it.  A head that wraps has nothing to enclose.
-/

namespace Patchbay

/-- Splits a list at the last element with a property: what is before it, the element, what is
after. -/
def splitAtLast {α : Type} (p : α → Bool) : List α → Option (List α × α × List α)
  | [] => none
  | a :: rest =>
    match splitAtLast p rest with
    | some (before, x, after) => some (a :: before, x, after)
    | none => if p a then some ([], a, rest) else none

namespace Chain

/-- Steps in the order of their stages; those of one stage keep their order. -/
def byStage (steps : List Step) : List Step :=
  Stage.priorities.flatMap fun rank => steps.filter (·.priority == rank)

/-- The chain with its effects in the order of their stages. -/
def sorted (c : Chain) : Chain := ⟨c.steps.take 1 ++ byStage c.effects⟩

/-- The chain split at its last wrapping effect, if it has one. -/
def lifted (c : Chain) : Arrangement :=
  match splitAtLast Step.wraps c.effects with
  | none => .plain c
  | some (before, wrapper, after) =>
    .wrapped wrapper ⟨c.steps.take 1 ++ before ++ [wrapper]⟩ ⟨wrapper :: after⟩

/-- The chain in the order of its stages, split at its last wrapping effect. -/
def arrange (c : Chain) : Arrangement := c.sorted.lifted

end Chain

end Patchbay
