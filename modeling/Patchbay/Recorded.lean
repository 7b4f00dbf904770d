import Patchbay.Failure

/-!
# Outcomes with a record

A step of the compilation succeeds or fails, and in either case leaves a record of what it met on
the way.  Steps are put in sequence by appending their records; a failure ends the sequence and
keeps the record up to it.
-/

namespace Patchbay

/-- The outcome of a step and what was recorded before it. -/
structure Recorded (ω α : Type) where
  record : List ω
  outcome : Except Failure α

namespace Recorded

variable {ω α β : Type}

/-- Succeeds without a record. -/
protected def pure (a : α) : Recorded ω α := ⟨[], .ok a⟩

/-- One step after another. -/
protected def bind (x : Recorded ω α) (f : α → Recorded ω β) : Recorded ω β :=
  match x.outcome with
  | .ok a => ⟨x.record ++ (f a).record, (f a).outcome⟩
  | .error e => ⟨x.record, .error e⟩

instance : Monad (Recorded ω) where
  pure := Recorded.pure
  bind := Recorded.bind

/-- Steps may be regrouped, and steps that do nothing may be left out. -/
instance : LawfulMonad (Recorded ω) :=
  LawfulMonad.mk' _
    (fun x => by
      obtain ⟨record, outcome⟩ := x
      cases outcome <;> simp [Functor.map, Recorded.bind, Recorded.pure])
    (fun _ _ => by simp [pure, bind, Recorded.bind, Recorded.pure])
    (fun x f g => by
      obtain ⟨record, outcome⟩ := x
      cases outcome with
      | error e => simp [bind, Recorded.bind]
      | ok a => cases h : (f a).outcome <;> simp [bind, Recorded.bind, h])

/-- Records entries. -/
def note (entries : List ω) : Recorded ω Unit := ⟨entries, .ok ()⟩

/-- Fails without a record. -/
def fail (e : Failure) : Recorded ω α := ⟨[], .error e⟩

/-- An outcome without a record. -/
def ofExcept (outcome : Except Failure α) : Recorded ω α := ⟨[], outcome⟩

end Recorded

end Patchbay
