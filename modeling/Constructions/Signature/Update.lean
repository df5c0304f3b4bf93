/-
# Changing a signature in place

A declaration writes to the signature step by step, and what it has written stays when it is
refused later on.  So each operation makes all its checks before it writes, with one exception:
to close a family its state is taken out, and put back if the family cannot be closed.

| operation | reads | writes |
| --- | --- | --- |
| `postulate`, `define` | the name, the type, the value | the constant |
| `openFamily` | the name, the type | the family |
| `declareConstructor` | the family, the name, the type | the list of the family, the constructor |
| `closeFamily` | the family | its state |

The operations of `Signature` return the new signature instead.
-/

import Constructions.Signature.Admission

namespace Constructions

/-- An operation on a signature that may be refused.  What it has written before stays. -/
abbrev Update (α : Type) := ExceptT (Stop KernelError) (StateM Signature) α

namespace Update

/-- Looks at the signature as it stands. -/
def reading {α : Type} (f : Signature → Check α) : Update α := do
  match f (← get) with
  | .ok a => pure a
  | .error e => throw e

/-- Ends with an error. -/
def refuse {α : Type} (e : SignatureError) : Update α := throw (.error (.signature e))

/-- Writes a family, open and without constructors. -/
def insertFamily (name : Name) (parameterCount indexCount : Nat) (type : Value) :
    Update FamilyId := do
  let (S, id) := (← get).addFamily name parameterCount indexCount type
  set S
  pure id

/-- Writes a constructor, first to its family and then to the tables. -/
def insertConstructor (name : Name) (family : FamilyId) (fieldCount : Nat)
    (recursiveFields : List Nat) (type : Value) : Update ConstructorId := do
  let id : ConstructorId := ⟨(← get).constructors.size⟩
  let F ← reading fun S => orDangling (S.family? family)
  match F.state with
  | .finalized _ => refuse (.familyFinalized F.name)
  | .opened constructors =>
    modify (·.setFamily { F with state := .opened (constructors ++ [id]) })
    let K : Constructor := ⟨id, name, family, F.parameterCount, fieldCount, recursiveFields, type⟩
    modify fun S => { S with constructors := S.constructors.push K }
    modify fun S => { S with entries := (name, .constructor id) :: S.entries }
    pure id

/-- Closes a family.  Its state is taken out, and an empty one stands in its place meanwhile. -/
def sealFamily (family : FamilyId) : Update Unit := do
  let F ← reading fun S => orDangling (S.family? family)
  modify (·.setFamily { F with state := .opened [] })
  match F.state with
  | .finalized table =>
    modify (·.setFamily { F with state := .finalized table })
    refuse (.familyFinalized F.name)
  | .opened constructors =>
    if constructors.isEmpty then
      modify (·.setFamily { F with state := .opened constructors })
      refuse (.noConstructors F.name)
    else modify (·.setFamily { F with state := .finalized (.build constructors) })

/-- Postulates a constant. -/
def postulate (n : Nat) (name : Name) (type : Term) : Update Unit := do
  reading (·.reserve name)
  let A ← reading (·.admitType n type)
  modify (·.addGlobal name ⟨A, none⟩)

/-- Defines a constant. -/
def define (n : Nat) (name : Name) (type value : Term) : Update Unit := do
  reading (·.reserve name)
  let A ← reading (·.admitType n type)
  reading fun S => Context.check n (.empty S) value A
  let a ← reading fun S => value.eval S n []
  modify (·.addGlobal name ⟨A, some a⟩)

/-- Opens a family of which the first `parameterCount` binders are parameters. -/
def openFamily (n : Nat) (name : Name) (parameterCount : Nat) (type : Term) :
    Update FamilyId := do
  reading (·.reserve name)
  let A ← reading (·.admitType n type)
  let indexCount ← reading (·.indexCount n name parameterCount A)
  insertFamily name parameterCount indexCount A

/-- Adds a constructor to an open family. -/
def declareConstructor (n : Nat) (family name : Name) (type : Term) :
    Update ConstructorId := do
  let F ← reading (·.familyNamed family)
  if F.isFinalized then
    refuse (.familyFinalized family)
  else do
    reading (·.reserve name)
    let A ← reading (·.admitType n type)
    let (fieldCount, recursiveFields) ← reading (·.constructorFields n F name A)
    insertConstructor name F.id fieldCount recursiveFields A

/-- Closes a family to further constructors. -/
def closeFamily (family : Name) : Update FamilyId := do
  let F ← reading (·.familyNamed family)
  sealFamily F.id
  pure F.id

end Update

end Constructions
