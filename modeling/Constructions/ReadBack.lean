/-
# Reading values back

A value is read back as a term in a scope of `level` variables: a variable at
level `l` becomes the index `level - (l + 1)`, and the body of a binder is
computed for a fresh variable and read back in the scope extended by it.  A
variable outside the scope cannot be read back, and neither can a binder in a
scope that takes no further variable.

The result holds nothing left to compute, so reading back the value of a closed
term gives its normal form.
-/

import Constructions.Evaluation

namespace Constructions

mutual

/-- Reads a value back in a scope of `level` variables. -/
def Value.readBack (S : Signature) : Nat → Nat → Value → Except Halt Term
  | 0, _, _ => .error .exhausted
  | n + 1, level, v =>
    match v with
    | .neutral m => Neutral.readBack S n level m
    | .type l => .ok (.type l)
    | .pi domain codomain => do
      let d ← Value.readBack S n level domain
      let v ← codomain.enter S n level
      let inner ← nextNumber level
      let b ← Value.readBack S n inner v
      .ok (.pi codomain.label d b)
    | .lam domain body => do
      let d ← Value.readBack S n level domain
      let v ← body.enter S n level
      let inner ← nextNumber level
      let b ← Value.readBack S n inner v
      .ok (.lam body.label d b)
    | .former family arguments => do
      let as ← arguments.mapM fun a => Value.readBack S n level a
      .ok (.former family as)
    | .con constructor arguments => do
      let as ← arguments.mapM fun a => Value.readBack S n level a
      .ok (.con constructor as)

/-- Reads a neutral value back in a scope of `level` variables. -/
def Neutral.readBack (S : Signature) : Nat → Nat → Neutral → Except Halt Term
  | 0, _, _ => .error .exhausted
  | n + 1, level, m =>
    match m with
    | .var label l =>
      if l < level then .ok (.var label (level - (l + 1)))
      else .error (.violation .escapedVariable)
    | .const name => .ok (.const name)
    | .app callee argument => do
      let f ← Neutral.readBack S n level callee
      let a ← Value.readBack S n level argument
      .ok (.app f a)
    | .elim target motive methods => do
      let t ← Neutral.readBack S n level target
      let m ← Value.readBack S n level motive
      let ms ← methods.mapM fun a => Value.readBack S n level a
      .ok (.elim t m ms)

end

/-- Reads a value back, or gives `none` if a variable escapes the scope. -/
def Value.readBack? (S : Signature) (n : Nat) (level : Nat) (v : Value) :
    Except Halt (Option Term) :=
  match v.readBack S n level with
  | .ok t => .ok (some t)
  | .error (.violation .escapedVariable) => .ok none
  | .error h => .error h

/-- The normal form of a closed term. -/
def Term.normalize (S : Signature) (n : Nat) (t : Term) : Except Halt Term := do
  let v ← t.eval S n []
  v.readBack S n 0

end Constructions
