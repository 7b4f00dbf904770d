import Patchbay.Patch.Graph
import Patchbay.Proofs.Recorded

/-!
# Pattern properties that cannot be read

What is stored under the pattern key of a node is to be an object of flags, numbers and texts.
`Node.misread` lists what is not, in the order in which it is met, and reading the properties of a
node fails with the first of it (`Node.failsFirst_patternProperties`).
-/

namespace Patchbay

/-- `null`, an array or an object: nothing that a property can be. -/
def Json.isCompound : Json → Bool
  | .null | .array _ | .object _ => true
  | _ => false

namespace Node

/-- The failure to read a member of the pattern properties, if it is nothing that a property can
be. -/
def misreadMember (node : Node) (member : String × Json) : List Failure :=
  if member.2.isCompound then [.malformed node.id member.1 (.notPrimitive member.2.kindName)]
  else []

/-- The failures to read pattern properties: that they are no object, or those of the members in the
order of their names. -/
def misread (key : String) (node : Node) : List Failure :=
  match node.properties.get? key with
  | none => []
  | some (.object members) =>
    (Dictionary.ofList members).entries.flatMap node.misreadMember
  | some other => [.malformed node.id key (.notTable other.kindName)]

/-- What is stored under the pattern key is no object, or has a member that is `null`, an array or
an object. -/
inductive Unreadable (key : String) (node : Node) : Prop
  | value {value : Json} (stored : node.properties.get? key = some value)
      (noObject : ∀ members, value ≠ .object members)
  | member {members : List (String × Json)} {name : String} {value : Json}
      (stored : node.properties.get? key = some (.object members))
      (mem : (name, value) ∈ (Dictionary.ofList members).entries) (compound : value.isCompound)

variable {key : String} {node : Node}

/-- A member is misread if it is nothing that a property can be. -/
theorem mem_misreadMember {member : String × Json} {e : Failure} :
    e ∈ node.misreadMember member ↔
      member.2.isCompound ∧ e = .malformed node.id member.1 (.notPrimitive member.2.kindName) := by
  unfold misreadMember
  split <;> simp [*]

/-- There is a failure to read a node exactly if it is unreadable. -/
theorem misread_ne_nil_iff : node.misread key ≠ [] ↔ node.Unreadable key := by
  unfold misread
  cases hstored : node.properties.get? key with
  | none =>
    refine iff_of_false (fun h => h rfl) ?_
    rintro (⟨stored, -⟩ | ⟨stored, -, -⟩) <;> exact absurd (hstored.symm.trans stored) (by simp)
  | some value =>
    cases value with
    | object members =>
      rw [ne_eq, List.eq_nil_iff_forall_not_mem, not_forall_not]
      constructor
      · rintro ⟨e, he⟩
        obtain ⟨⟨name, raw⟩, hmem, he⟩ := List.mem_flatMap.mp he
        exact .member hstored hmem (mem_misreadMember.mp he).1
      · rintro (⟨stored, noObject⟩ | ⟨stored, mem, compound⟩)
        · exact absurd (Option.some.inj (stored.symm.trans hstored)) (noObject _)
        · cases Option.some.inj (stored.symm.trans hstored)
          exact ⟨_, List.mem_flatMap.mpr ⟨_, mem, mem_misreadMember.mpr ⟨compound, rfl⟩⟩⟩
    -- anything but an object is misread as a whole
    | _ => exact iff_of_true (by simp) (.value hstored (by simp))

/-- What cannot be read is at the node. -/
theorem exists_of_mem_misread {e : Failure} (h : e ∈ node.misread key) :
    ∃ property flaw, e = .malformed node.id property flaw := by
  unfold misread at h
  split at h
  · exact absurd h List.not_mem_nil
  · obtain ⟨member, -, he⟩ := List.mem_flatMap.mp h
    exact ⟨_, _, (mem_misreadMember.mp he).2⟩
  · exact ⟨_, _, List.mem_singleton.mp h⟩

/-- **Reading the properties of a node fails with the first that cannot be read.** -/
theorem failsFirst_patternProperties (key : String) (node : Node) :
    Recorded.FailsFirst (node.patternProperties key) (node.misread key) := by
  unfold patternProperties misread
  generalize node.properties.get? key = stored
  cases stored with
  | none => exact Recorded.failsFirst_ok []
  | some value =>
    cases value with
    | object members =>
      refine .mapM_outcomes fun ⟨name, raw⟩ _ => ?_
      -- a member passes or fails by its kind alone
      cases raw <;> first | exact Recorded.failsFirst_ok _ | exact Recorded.failsFirst_error _
    | _ => exact Recorded.failsFirst_error _

end Node

end Patchbay
