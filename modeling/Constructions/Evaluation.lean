/-
# Evaluation

Computing a term to a value, in an environment that gives the values of its
variables.  The rules are those of a strict language with computation under no
binder:

* an argument is computed before it is substituted;
* a defined constant computes to its definition, any other to itself;
* a former or constructor collects its arguments;
* an elimination of a constructor computes to the method for it, applied to the
  fields and then to the results for the recursive fields:

```
elim (succ n) :: P { z, s }  computes to  s n (elim n :: P { z, s })
```

Terms that were not checked may compute forever, so every step takes fuel.  With
fuel `n` no chain of nested steps is longer than `n`.
-/

import Constructions.Halt
import Constructions.Signature

namespace Constructions

mutual

/-- Computes a term. -/
def Term.eval (S : Signature) : Nat → Env → Term → Except Halt Value
  | 0, _, _ => .error .exhausted
  | n + 1, env, t =>
    match t with
    | .var _ i => orDangling env[i]?
    | .const name => .ok (S.unfold name)
    | .letIn _ _ argument body => do
      let a ← Term.eval S n env argument
      Term.eval S n (a :: env) body
    | .type level => .ok (.type level)
    | .pi label domain codomain => do
      let d ← Term.eval S n env domain
      .ok (.pi d (.mk env label codomain))
    | .lam label domain body => do
      let d ← Term.eval S n env domain
      .ok (.lam d (.mk env label body))
    | .app callee argument => do
      let f ← Term.eval S n env callee
      let a ← Term.eval S n env argument
      Value.apply S n f a
    | .former family arguments => do
      let as ← arguments.mapM fun a => Term.eval S n env a
      .ok (.former family as)
    | .con constructor arguments => do
      let as ← arguments.mapM fun a => Term.eval S n env a
      .ok (.con constructor as)
    | .elim target motive methods => do
      let t ← Term.eval S n env target
      let m ← Term.eval S n env motive
      let ms ← methods.mapM fun a => Term.eval S n env a
      (Value.eliminate S n m ms t).mapError Stop.toHalt

/-- Applies a value to an argument. -/
def Value.apply (S : Signature) : Nat → Value → Value → Except Halt Value
  | 0, _, _ => .error .exhausted
  | n + 1, f, a =>
    match f with
    | .lam _ body => Term.eval S n (a :: body.env) body.body
    | .neutral f => .ok (.neutral (.app f a))
    | .former family arguments => .ok (.former family (arguments ++ [a]))
    | .con constructor arguments => .ok (.con constructor (arguments ++ [a]))
    | .type _ => .error (.violation .notAFunction)
    | .pi _ _ => .error (.violation .notAFunction)

/-- Eliminates a target.  Its own violations are reported; those met while the
methods compute are halts. -/
def Value.eliminate (S : Signature) :
    Nat → Value → List Value → Value → Except (Stop Violation) Value
  | 0, _, _, _ => .error (.halt .exhausted)
  | n + 1, motive, methods, target =>
    match target with
    | .neutral t => .ok (.neutral (.elim t motive methods))
    | .con id arguments => do
      let K ← orDangling (S.constructor? id)
      if arguments.length ≠ K.arity then
        .error (.error (.partialConstruction id))
      else do
        let F ← orDangling (S.family? K.family)
        match F.dispatch? with
        | none => .error (.error (.unfinalizedFamily K.family))
        | some table =>
          match table.select? id methods with
          | none => .error (.error (.missingMethod id))
          | some method => do
            let results ← K.recursiveFields.mapM fun i => do
              let a ← orDangling arguments[i]?
              Value.eliminate S n motive methods a
            (arguments.drop K.parameterCount ++ results).foldlM
              (fun f a => Value.apply S n f a) method
    | _ => .error (.error .nonConstructorTarget)

end

/-- Applies a value to arguments, one after the other. -/
def Value.applyAll (S : Signature) (n : Nat) (f : Value) (arguments : List Value) :
    Except Halt Value :=
  arguments.foldlM (Value.apply S n) f

/-- Computes the body of a closure for an argument. -/
def Closure.instantiate (S : Signature) (n : Nat) (c : Closure) (a : Value) : Except Halt Value :=
  c.body.eval S n (a :: c.env)

/-- Computes the body of a closure for its own variable, entered at `level`. -/
def Closure.enter (S : Signature) (n : Nat) (level : Nat) (c : Closure) : Except Halt Value :=
  c.instantiate S n (c.parameter level)

end Constructions
