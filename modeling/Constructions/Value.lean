/-
# Values

What terms compute to.  A value is either built up (a universe, a function type,
a function, a former or a constructor with arguments) or neutral: a computation
that waits for a variable or a constant.

A bound variable is a level: the number of binders outside its own.  So a value
keeps its meaning when more variables come into scope.

The body of a binder is not computed: a closure keeps the term together with the
values of the variables around it, the innermost first.
-/

import Constructions.Term

namespace Constructions

mutual

/-- The result of computing a term. -/
inductive Value where
  | neutral (neutral : Neutral)
  | type (level : UInt64)
  | pi (domain : Value) (codomain : Closure)
  | lam (domain : Value) (body : Closure)
  | former (family : FamilyId) (arguments : List Value)
  | con (constructor : ConstructorId) (arguments : List Value)

/-- A computation that waits for a variable or a constant. -/
inductive Neutral where
  | var (label : Label) (level : Nat)
  | const (name : Name)
  | app (callee : Neutral) (argument : Value)
  | elim (target : Neutral) (motive : Value) (methods : List Value)

/-- A term under a binder, with the values of the variables outside the binder. -/
inductive Closure where
  | mk (env : List Value) (label : Label) (body : Term)

end

/-- The values of the variables in scope, the innermost first. -/
abbrev Env := List Value

/-- The values of the variables outside the binder. -/
def Closure.env : Closure → Env
  | .mk env _ _ => env

/-- The label of the binder. -/
def Closure.label : Closure → Label
  | .mk _ label _ => label

/-- The term under the binder. -/
def Closure.body : Closure → Term
  | .mk _ _ body => body

/-- The variable at `level`. -/
def Value.var (label : Label) (level : Nat) : Value := .neutral (.var label level)

/-- The variable that a binder entered at `level` stands for. -/
def Closure.parameter (c : Closure) (level : Nat) : Value := .var c.label level

end Constructions
