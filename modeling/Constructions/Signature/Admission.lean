/-
# Admitting declarations

A signature grows by five operations.  Each checks what it is given against the
signature as it stands, and either returns a larger signature or refuses.

| operation | admits |
| --- | --- |
| `postulate` | a constant with a type |
| `define` | a constant with a type and a value of it |
| `openFamily` | a family whose former binds its parameters and ends in a universe |
| `declareConstructor` | a constructor of an open family |
| `closeFamily` | no more constructors of a family that has one |

The type of a constructor binds the parameters of its family, then the fields, and
returns the family at the same parameters.  A field may mention the family only as
its whole type, at the same parameters, and never in an index: it is then a
recursive field.
-/

import Constructions.Typing

namespace Constructions

namespace Signature

/-- A name that is not taken yet. -/
def reserve (S : Signature) (name : Name) : Check Unit :=
  match S.entry? name with
  | some _ => (SignatureError.duplicateName name).throw
  | none => .ok ()

/-- The value of a closed term that has to be a type. -/
def admitType (S : Signature) (n : Nat) (type : Term) : Check Value := do
  let _ ← Context.checkType n (.empty S) type
  type.eval S n []

/-- Postulates a constant. -/
def postulate (S : Signature) (n : Nat) (name : Name) (type : Term) : Check Signature := do
  S.reserve name
  let A ← S.admitType n type
  .ok (S.addGlobal name ⟨A, none⟩)

/-- Defines a constant. -/
def define (S : Signature) (n : Nat) (name : Name) (type value : Term) : Check Signature := do
  S.reserve name
  let A ← S.admitType n type
  Context.check n (.empty S) value A
  let a ← value.eval S n []
  .ok (S.addGlobal name ⟨A, some a⟩)

/-- The number of binders after the parameters, in the type of a family. -/
def indexCount (S : Signature) (n : Nat) (name : Name) (parameterCount : Nat) (type : Value) :
    Check Nat := do
  let telescope ← type.telescope S n 0 none
  if telescope.length < parameterCount then
    (SignatureError.parameterCount name parameterCount).throw
  else
    match telescope.body with
    | .type _ => .ok (telescope.length - parameterCount)
    | _ => (SignatureError.familyArity name).throw

/-- Opens a family of which the first `parameterCount` binders are parameters and
the others indices. -/
def openFamily (S : Signature) (n : Nat) (name : Name) (parameterCount : Nat) (type : Term) :
    Check (Signature × FamilyId) := do
  S.reserve name
  let A ← S.admitType n type
  let indexCount ← S.indexCount n name parameterCount A
  .ok (S.addFamily name parameterCount indexCount A)

/-- The family with a name. -/
def familyNamed (S : Signature) (name : Name) : Check Family :=
  match S.familyNamed? name with
  | some F => .ok F
  | none => (SignatureError.unknownFamily name).throw

/-- Does `family` occur in none of the values, read back in a scope of `level` variables? -/
def noneMentions (S : Signature) (n level : Nat) (family : FamilyId) :
    List Value → Except Halt Bool
  | [] => .ok true
  | v :: vs => do
    let t ← v.readBack S n level
    if t.mentions family then .ok false else noneMentions S n level family vs

/-- Is a value the family `F` at `parameters`, with no mention of `F` in its indices? -/
def isUniform (S : Signature) (n : Nat) (F : Family) (parameters : List Value) (level : Nat)
    (v : Value) : Except Halt Bool :=
  match v with
  | .former id arguments =>
    if id = F.id ∧ arguments.length = F.arity then do
      if ← convertList (fun a b => a.convert S n level b)
          (arguments.take F.parameterCount) parameters then
        noneMentions S n level F.id (arguments.drop F.parameterCount)
      else .ok false
    else .ok false
  | _ => .ok false

/-- The positions of the recursive fields among the given field domains.  The
first domain stands at `position`, which is also the number of variables before
it. -/
def recursivePositions (S : Signature) (n : Nat) (F : Family) (parameters : List Value)
    (name : Name) : Nat → List Value → Check (List Nat)
  | _, [] => .ok []
  | position, domain :: domains => do
    if ← S.isUniform n F parameters position domain then
      let rest ← recursivePositions S n F parameters name (position + 1) domains
      .ok (position :: rest)
    else do
      let t ← domain.readBack S n position
      if t.mentions F.id then (SignatureError.nonPositive name position).throw
      else recursivePositions S n F parameters name (position + 1) domains

/-- The number of fields in the type of a constructor of `F`, and the positions of the
recursive ones. -/
def constructorFields (S : Signature) (n : Nat) (F : Family) (name : Name) (type : Value) :
    Check (Nat × List Nat) := do
  let parameters ← type.telescope S n 0 (some F.parameterCount)
  let expected ← F.type.telescope S n 0 (some F.parameterCount)
  let agree ←
    if parameters.length = F.parameterCount then
      convertDomains S n 0 parameters.domains expected.domains
    else .ok false
  if !agree then
    (SignatureError.constructorParameters name).throw
  else do
    let fields ← parameters.body.telescope S n F.parameterCount none
    let recursiveFields ←
      S.recursivePositions n F parameters.parameters name F.parameterCount fields.domains
    let level := F.parameterCount + fields.length
    if ← S.isUniform n F parameters.parameters level fields.body then
      .ok (fields.length, recursiveFields)
    else (SignatureError.constructorTarget name).throw

/-- Adds a constructor to an open family. -/
def declareConstructor (S : Signature) (n : Nat) (family name : Name) (type : Term) :
    Check (Signature × ConstructorId) := do
  let F ← S.familyNamed family
  if F.isFinalized then
    (SignatureError.familyFinalized family).throw
  else do
    S.reserve name
    let A ← S.admitType n type
    let (fieldCount, recursiveFields) ← S.constructorFields n F name A
    .ok (S.addConstructor name F fieldCount recursiveFields A)

/-- Closes a family to further constructors. -/
def closeFamily (S : Signature) (family : Name) : Check (Signature × FamilyId) := do
  let F ← S.familyNamed family
  if F.isFinalized then
    (SignatureError.familyFinalized F.name).throw
  else if F.constructors.isEmpty then
    (SignatureError.noConstructors F.name).throw
  else .ok (S.finalize F, F.id)

/-- Eliminates a constructed value, after a look at the shape of the call. -/
def eliminate (S : Signature) (n : Nat) (target motive : Value) (methods : List Value) :
    Check Value :=
  match target with
  | .con id _ => do
    let K ← orDangling (S.constructor? id)
    let F ← orDangling (S.family? K.family)
    let table ← Context.dispatch F
    if methods.length ≠ table.constructors.length then
      (SignatureError.methodCount F.name table.constructors.length methods.length).throw
    else
      match Value.eliminate S n motive methods target with
      | .ok v => .ok v
      | .error (.halt h) => .error (.halt h)
      | .error (.error v) => .error (.error (.violation v))
  | _ => .error (.error (.violation .nonConstructorTarget))

end Signature

end Constructions
