import Patchbay.Chain

/-!
# Pattern expressions

The emitted code is a line of expressions with a space between them.  An expression is a call, of a
source or around another expression, with transforms after it:

```text
expression := base transform*
base       := name "(" arguments ")"
            | name "(" expression ("," arguments)? ")"
transform  := "." name "(" value? ")"
```

as in `jux(s("bd sd").fast(2).gain(0.8), "rev").room(0.3)`.
-/

namespace Patchbay

/-- A transform after an expression. -/
structure Transform where
  name : String
  argument : Option Value
  deriving DecidableEq, Repr

/-- An expression of the pattern language. -/
inductive Pattern where
  | call (name : String) (arguments : List Value) (transforms : List Transform)
  | wrap (name : String) (inner : Pattern) (arguments : List Value) (transforms : List Transform)
  deriving DecidableEq, Repr

namespace Transform

/-- The transform that a property becomes: a flag that is set has no argument, and one that is not
set is no transform at all. -/
def ofProperty? (p : Property) : Option Transform :=
  match p.value with
  | .flag true => some ⟨p.name, none⟩
  | .flag false => none
  | value => some ⟨p.name, some value⟩

/-- The transforms of the effects of a chain. -/
def ofEffects (effects : List Step) : List Transform :=
  (effects.flatMap (·.properties)).filterMap ofProperty?

/-- The text of a transform. -/
def chars (t : Transform) : List Char :=
  '.' :: t.name.toList ++ '(' :: (t.argument.map Value.literalChars).getD [] ++ [')']

end Transform

namespace Pattern

/-- A comma and a space before each value. -/
def moreArguments (arguments : List Value) : List Char :=
  arguments.flatMap fun a => ',' :: ' ' :: a.literalChars

/-- The text of an expression. -/
def chars : Pattern → List Char
  | call name arguments transforms =>
    name.toList ++ '(' :: (moreArguments arguments).drop 2
      ++ ')' :: transforms.flatMap Transform.chars
  | wrap name inner arguments transforms =>
    name.toList ++ '(' :: inner.chars ++ moreArguments arguments
      ++ ')' :: transforms.flatMap Transform.chars

/-- The text of an expression. -/
def render (p : Pattern) : String := String.ofList p.chars

/-- The expression of a chain: a call of its head, transformed by its effects. -/
def ofChain? (c : Chain) : Option Pattern :=
  c.head?.map fun head => call head.call head.argumentValue?.toList (Transform.ofEffects c.effects)

/-- The expression of an arrangement.  A wrapper's call encloses the expression of the inner
chain, and the effects of the outer chain transform the call. -/
def ofArrangement? : Arrangement → Option Pattern
  | .plain chain => ofChain? chain
  | .wrapped wrapper inner outer =>
    (ofChain? inner).map fun inner =>
      let head := outer.head?.getD wrapper
      wrap head.call inner head.argumentValue?.toList (Transform.ofEffects outer.effects)

/-- Expressions on one line. -/
def line (patterns : List Pattern) : String := " ".intercalate (patterns.map render)

/-- The code of arrangements; those without an expression are left out. -/
def code (arrangements : List Arrangement) : String :=
  line (arrangements.filterMap ofArrangement?)

end Pattern

end Patchbay
