/-
# Motives and methods

An elimination of a target in the family `D` at parameters `p` takes a motive and
one method for each constructor.

* The motive is a function of the indices of `D` and of an element of `D` at them,
  into a universe.
* The method for a constructor `c` takes the fields of `c`, then for each recursive
  field the motive at its indices and the field itself, and gives the motive at
  the indices of `c` and at the construction.  For the successor of a natural
  number:

```
|n : Nat| -> M n -> M (succ n)
```
-/

import Constructions.Conversion
import Constructions.ReadBack
import Constructions.Telescope

namespace Constructions

/-- The domains of a motive for `F` at `parameters`: the indices, then the family
itself.  Each lives in the scope extended by the domains before it. -/
def motiveDomains (S : Signature) (n level : Nat) (F : Family) (parameters : List Value) :
    Except Halt (List Value) := do
  let type ← F.type.instantiate S n parameters
  let indices ← type.telescope S n level none
  .ok (indices.domains ++ [.former F.id (parameters ++ indices.parameters)])

/-- The universe level of a motive, if its type binds `domains` and ends in a universe. -/
def motiveLevel? (S : Signature) (n level : Nat) (domains : List Value) (type : Value) :
    Except Halt (Option UInt64) := do
  let motive ← type.telescope S n level (some domains.length)
  if motive.length = domains.length then
    if ← convertDomains S n level motive.domains domains then
      match motive.body with
      | .type l => .ok (some l)
      | _ => .ok none
    else .ok none
  else .ok none

/-- The arguments of a former after its parameters; other types have no indices. -/
def Value.indices (parameterCount : Nat) : Value → Except Halt (List Value)
  | .former _ arguments =>
    if parameterCount ≤ arguments.length then .ok (arguments.drop parameterCount)
    else .error .dangling
  | _ => .ok []

/-- Reads binders back around a body, the first at `level`. -/
def readBackPis (S : Signature) (n : Nat) :
    Nat → List (Label × Value) → Except Halt Term → Except Halt Term
  | _, [], body => body
  | level, (label, domain) :: binders, body => do
    let b ← readBackPis S n (level + 1) binders body
    let d ← domain.readBack S n level
    .ok (.pi label d b)

/-- The motive at the indices of `type` and at `element`. -/
def motiveAt (S : Signature) (n parameterCount : Nat) (motive type element : Value) :
    Except Halt Value := do
  let indices ← type.indices parameterCount
  motive.applyAll S n (indices ++ [element])

/-- What a recursive field adds to a method: the motive at the field. -/
def hypothesis (S : Signature) (n parameterCount : Nat) (fields : Telescope) (motive : Value)
    (position : Nat) : Except Halt Value := do
  let field ← orDangling fields.binders[position - parameterCount]?
  motiveAt S n parameterCount motive field.domain field.parameter

/-- The type of the method for the constructor `K`. -/
def methodType (S : Signature) (n level : Nat) (env : Env) (K : Constructor)
    (parameters : List Value) (motive : Value) : Except Halt Value := do
  let type ← K.type.instantiate S n parameters
  let fields ← type.telescope S n level (some K.fieldCount)
  let hypotheses ← K.recursiveFields.mapM (hypothesis S n K.parameterCount fields motive)
  let construction : Value := .con K.id (parameters ++ fields.parameters)
  let result ← motiveAt S n K.parameterCount motive fields.body construction
  let binders := fields.binders.map (fun b => (b.label, b.domain)) ++ hypotheses.map (none, ·)
  let t ← readBackPis S n level binders (result.readBack S n (level + binders.length))
  t.eval S n env

end Constructions
