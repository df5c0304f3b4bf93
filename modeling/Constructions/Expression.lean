/-
# Expressions and declarations

What is written in a source, before names are resolved and types are filled in.
Every expression knows the span of tokens it was read from, and every name and
label the position of its token.

| expression | written |
| --- | --- |
| `var` | `x` |
| `letIn`, `typedLet` | `let x = a; b`, `let x : A = a; b` |
| `ascribe` | `(a : A)` |
| `type` | `Type`, `Type 3` |
| `pi` | `\|x : A\| -> B`, `A -> B` |
| `lam`, `typedLam` | `\|x\| b`, `\|x : A\| b` |
| `call` | `f a` |
| `elim` | `elim a :: M { m, n }` |
-/

import Constructions.Name
import Constructions.Span

namespace Constructions

/-- A surface expression. -/
inductive Expression where
  | var (span : Span) (name : Name)
  | letIn (span : Span) (label : Located Label) (argument body : Expression)
  | typedLet (span : Span) (label : Located Label) (type argument body : Expression)
  | ascribe (span : Span) (term type : Expression)
  | type (span : Span) (level : UInt64)
  | pi (span : Span) (label : Located Label) (domain codomain : Expression)
  | lam (span : Span) (label : Located Label) (body : Expression)
  | typedLam (span : Span) (label : Located Label) (domain body : Expression)
  | call (span : Span) (callee argument : Expression)
  | elim (span : Span) (target motive : Expression) (methods : List Expression)
  deriving Repr

/-- The tokens an expression was read from, without parentheses around it. -/
def Expression.span : Expression → Span
  | .var s .. => s
  | .letIn s .. => s
  | .typedLet s .. => s
  | .ascribe s .. => s
  | .type s .. => s
  | .pi s .. => s
  | .lam s .. => s
  | .typedLam s .. => s
  | .call s .. => s
  | .elim s .. => s

/-- A parameter of a family, with its type. -/
structure Parameter where
  label : Located Label
  type : Expression
  deriving Repr

/-- A constructor as it is written: its type leaves out the parameters of the family. -/
structure ConstructorClause where
  name : Located Name
  type : Expression
  deriving Repr

/-- What a declaration asks for. -/
inductive Command where
  /-- `data D (x : A) : B { c : C, ... }` opens a family, fills it and finalizes it. -/
  | data (name : Located Name) (parameters : List Parameter) (arity : Expression)
      (constructors : List ConstructorClause)
  /-- `axiom c : A` postulates a constant. -/
  | postulate (name : Located Name) (type : Expression)
  /-- `def c = a` and `def c : A = a` define a constant. -/
  | define (name : Located Name) (type : Option Expression) (value : Expression)
  /-- `eval a` shows a term, its type and its normal form. -/
  | evaluate (term : Expression)
  /-- `check a : A` shows a term at a type. -/
  | check (term type : Expression)
  deriving Repr

/-- A command, with the tokens it was read from. -/
structure Declaration where
  span : Span
  command : Command
  deriving Repr

/-- A program is read and run from the first declaration to the last. -/
abbrev Program := List Declaration

end Constructions
