/-
# Core terms

The terms that are checked and computed with.  A bound variable is an index: the
number of binders between it and its own.  Families and constructors are
numbered in the order of their declaration, and a former or a constructor keeps
the list of the arguments it was given so far.

| term | meaning |
| --- | --- |
| `var` | a bound variable |
| `const` | a postulated or defined constant |
| `letIn` | a local definition |
| `type` | a universe |
| `pi`, `lam`, `app` | dependent functions |
| `former`, `con` | a family, or one of its constructors, with arguments |
| `elim` | the elimination of a target, with a motive and one method a constructor |

Labels are carried along for messages and printing only.
-/

import Constructions.Name

namespace Constructions

/-- The number of a family in its signature. -/
structure FamilyId where
  index : Nat
  deriving DecidableEq, Repr

/-- The number of a constructor in its signature. -/
structure ConstructorId where
  index : Nat
  deriving DecidableEq, Repr

/-- A core term. -/
inductive Term where
  | var (label : Label) (index : Nat)
  | const (name : Name)
  | letIn (label : Label) (type argument body : Term)
  | type (level : UInt64)
  | pi (label : Label) (domain codomain : Term)
  | lam (label : Label) (domain body : Term)
  | app (callee argument : Term)
  | former (family : FamilyId) (arguments : List Term)
  | con (constructor : ConstructorId) (arguments : List Term)
  | elim (target motive : Term) (methods : List Term)
  deriving Repr

namespace Term

/-- Applies a term to an argument.  A former or constructor takes it into its
list of arguments. -/
def apply (callee argument : Term) : Term :=
  match callee with
  | .former family arguments => .former family (arguments ++ [argument])
  | .con constructor arguments => .con constructor (arguments ++ [argument])
  | callee => .app callee argument

mutual

/-- Does the former of `family` occur in a term? -/
def mentions (family : FamilyId) : Term → Bool
  | .var _ _ => false
  | .const _ => false
  | .letIn _ annotation argument body =>
    mentions family annotation || mentions family argument || mentions family body
  | .type _ => false
  | .pi _ domain codomain => mentions family domain || mentions family codomain
  | .lam _ domain body => mentions family domain || mentions family body
  | .app callee argument => mentions family callee || mentions family argument
  | .former id arguments => id == family || mentionsAny family arguments
  | .con _ arguments => mentionsAny family arguments
  | .elim target motive methods =>
    mentions family target || mentions family motive || mentionsAny family methods

/-- Does the former of `family` occur in one of the terms? -/
def mentionsAny (family : FamilyId) : List Term → Bool
  | [] => false
  | t :: ts => mentions family t || mentionsAny family ts

end

/-- Function types over `telescope`, the first binder outermost, into `body`. -/
def pis (telescope : List (Label × Term)) (body : Term) : Term :=
  telescope.foldr (fun binder body => .pi binder.1 binder.2 body) body

end Term

/-- The largest universe level has no successor. -/
def nextLevel? (level : UInt64) : Option UInt64 :=
  if level.toNat + 1 < UInt64.size then some (level + 1) else none

end Constructions
