/-
# Telescopes

The leading binders of a function type, opened one after the other.  Each binder
is given its own variable, so a domain lives in the scope extended by the
variables before it, and the body in the scope extended by all of them.
-/

import Constructions.Evaluation

namespace Constructions

/-- An opened binder: its label, its domain, and the variable it was opened with. -/
structure OpenedBinder where
  label : Label
  domain : Value
  parameter : Value

/-- The opened binders of a function type, and what stands behind them. -/
structure Telescope where
  binders : List OpenedBinder
  body : Value

namespace Telescope

/-- The number of opened binders. -/
def length (T : Telescope) : Nat := T.binders.length

/-- The domains of the binders. -/
def domains (T : Telescope) : List Value := T.binders.map (·.domain)

/-- The variables of the binders. -/
def parameters (T : Telescope) : List Value := T.binders.map (·.parameter)

end Telescope

/-- Opens the leading binders of a type, at most `limit` of them if there is a
limit.  The first is entered at `level`. -/
def Value.telescope (S : Signature) : Nat → Nat → Option Nat → Value → Except Halt Telescope
  | 0, _, _, _ => .error .exhausted
  | n + 1, level, limit, ty =>
    match limit, ty with
    | some 0, _ => .ok ⟨[], ty⟩
    | _, .pi domain codomain => do
      let body ← codomain.enter S n level
      let rest ← Value.telescope S n (level + 1) (limit.map (· - 1)) body
      .ok ⟨⟨codomain.label, domain, codomain.parameter level⟩ :: rest.binders, rest.body⟩
    | _, _ => .ok ⟨[], ty⟩

/-- Instantiates the leading binders of a type with arguments. -/
def Value.instantiate (S : Signature) (n : Nat) (ty : Value) (arguments : List Value) :
    Except Halt Value :=
  arguments.foldlM (fun ty a =>
    match ty with
    | .pi _ codomain => codomain.instantiate S n a
    | _ => .error (.violation .shortTelescope)) ty

end Constructions
