import Patchbay.Chain
import Patchbay.Config

/-!
# Folding the effects of a chain

The properties of all effects of a chain are folded by name into one synthetic step after the
head: by the rule of the property the numbers are multiplied or the last value is kept.  Products
are rounded to nine decimal places at each step.  A number within the tolerance of its neutral
value is dropped, and so is a step without properties.

In the inner half of a wrapped chain the wrapper's own argument is held back, because it becomes
the argument of the enclosing call.  The record of a fold holds the name of each property met that
the table has a rule for, before the value is looked at.
-/

namespace Patchbay

/-- The number of decimal places to which products are rounded. -/
def productPlaces : Nat := 9

/-- The property of a step that takes no part in a fold. -/
structure HeldBack where
  id : String
  property : String
  deriving DecidableEq, Repr

namespace Config

/-- Puts a value under a name: in place of the value there, or at the end. -/
def store (name : String) (value : Value) : List Property → List Property
  | [] => [⟨name, value⟩]
  | p :: rest => if p.name = name then ⟨name, value⟩ :: rest else p :: store name value rest

/-- The number under a name, or 1. -/
def factorSoFar (folded : List Property) (name : String) : Binary64 :=
  ((folded.find? (·.name == name)).bind (·.value.number?)).getD (.ofNat 1)

/-- The value of a property after one more occurrence at a step. -/
def combine (config : Config) (folded : List Property) (step : Step) (p : Property) :
    Except Failure Value :=
  match config.ruleOf p.name with
  | .last => .ok p.value
  | .multiply =>
    match p.value.number? with
    | none => .error (.malformed step.id p.name (.notNumber p.value))
    | some factor =>
      let current := factorSoFar folded p.name
      let product := current * factor
      if product.isFinite then .ok (.number (product.roundToDecimals productPlaces))
      else .error (.malformed step.id p.name (.boundless current factor))

/-- Folds one more occurrence of a property at a step. -/
def foldProperty (config : Config) (folded : List Property) (occurrence : Step × Property) :
    Recorded String (List Property) := do
  let (step, p) := occurrence
  Recorded.note (if config.rules.contains p.name then [p.name] else [])
  let value ← Recorded.ofExcept (config.combine folded step p)
  pure (store p.name value folded)

/-- A property has no audible effect. -/
def isNeutral (config : Config) (p : Property) : Bool :=
  match config.neutralOf? p.name, p.value.number? with
  | some neutral, some x => x.within config.tolerance neutral
  | _, _ => false

end Config

namespace Chain

/-- The properties of a step that take part in a fold.  A synthetic step may have the id of the
wrapper but never has its argument, so nothing of it is held back. -/
def foldedProperties (heldBack : Option HeldBack) (step : Step) : List Property :=
  step.properties.filter fun p => step.synthetic || heldBack != some ⟨step.id, p.name⟩

/-- The occurrences of properties at the effects of a chain, in order. -/
def occurrences (c : Chain) (heldBack : Option HeldBack) : List (Step × Property) :=
  c.effects.flatMap fun step => (foldedProperties heldBack step).map (step, ·)

/-- The step that stands for all effects, a copy of the last one with the folded properties. -/
def syntheticStep (last : Step) (properties : List Property) : Step :=
  { last with properties := properties, synthetic := true }

/-- Folds the effects of a chain into at most one.  A chain without effects stays as it is. -/
def fold (config : Config) (c : Chain) (heldBack : Option HeldBack) : Recorded String Chain :=
  match c.steps, c.effects.getLast? with
  | head :: _, some last => do
    let folded ← (c.occurrences heldBack).foldlM config.foldProperty []
    match folded.filter (!config.isNeutral ·) with
    | [] => pure ⟨[head]⟩
    | properties => pure ⟨[head, syntheticStep last properties]⟩
  | _, _ => pure c

end Chain

namespace Arrangement

/-- What is held back from the inner half: the argument of the wrapper. -/
def heldBack (wrapper : Step) : Option HeldBack :=
  wrapper.argument.map fun argument => ⟨wrapper.id, argument⟩

/-- Folds a chain, or both halves of a wrapped one, the inner half first. -/
def fold (config : Config) : Arrangement → Recorded String Arrangement
  | plain chain => do pure (plain (← chain.fold config none))
  | wrapped wrapper inner outer => do
    let inner ← inner.fold config (heldBack wrapper)
    let outer ← outer.fold config none
    pure (wrapped wrapper inner outer)

end Arrangement

end Patchbay
