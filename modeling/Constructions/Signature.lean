/-
# Signatures

A signature holds everything declared so far.  Four tables keep it:

| table | from | to |
| --- | --- | --- |
| `entries` | a name | what it refers to |
| `globals` | a name | the type of a constant, and its definition if it has one |
| `families` | a number | an inductive family |
| `constructors` | a number | a constructor |

A family is declared in stages: it is open while constructors are added.  When it is
finalized, the table is built that the methods of an elimination are found with.
-/

import Constructions.Value

namespace Constructions

/-- What a declared name refers to. -/
inductive Entry where
  | global
  | family (id : FamilyId)
  | constructor (id : ConstructorId)
  deriving DecidableEq, Repr

/-- A constant: postulated, or defined if it has a definition. -/
structure Global where
  type : Value
  definition : Option Value

/-- Where the methods of an elimination are found.  They stand in the order in which the
constructors of the family were declared. -/
structure Dispatch where
  constructors : List ConstructorId
  /-- The position of the method that handles a constructor. -/
  positions : List (ConstructorId × Nat)
  indexed : positions = constructors.zipIdx

/-- The table for the constructors of a family. -/
def Dispatch.build (constructors : List ConstructorId) : Dispatch :=
  ⟨constructors, constructors.zipIdx, rfl⟩

/-- The method for constructor `id`. -/
def Dispatch.select? {α : Type} (table : Dispatch) (id : ConstructorId) (methods : List α) :
    Option α :=
  (table.positions.lookup id).bind (methods[·]?)

/-- A family collects constructors as long as it is open. -/
inductive FamilyState where
  | opened (constructors : List ConstructorId)
  | finalized (table : Dispatch)

/-- An inductive family. -/
structure Family where
  id : FamilyId
  name : Name
  /-- The number of leading arguments that all its constructors share. -/
  parameterCount : Nat
  /-- The number of arguments after the parameters. -/
  indexCount : Nat
  /-- The type of its former. -/
  type : Value
  state : FamilyState

/-- A constructor of a family. -/
structure Constructor where
  id : ConstructorId
  name : Name
  family : FamilyId
  /-- The number of leading arguments that are parameters of the family. -/
  parameterCount : Nat
  /-- The number of arguments after the parameters. -/
  fieldCount : Nat
  /-- The positions, among all arguments, of those that belong to the family itself. -/
  recursiveFields : List Nat
  type : Value

/-- The number of arguments of a full application of the former. -/
def Family.arity (F : Family) : Nat := F.parameterCount + F.indexCount

/-- The number of arguments of a full application of the constructor. -/
def Constructor.arity (K : Constructor) : Nat := K.parameterCount + K.fieldCount

/-- The constructors of a family, in the order of their declaration. -/
def Family.constructors (F : Family) : List ConstructorId :=
  match F.state with
  | .opened constructors => constructors
  | .finalized table => table.constructors

/-- Is the family closed to further constructors? -/
def Family.isFinalized (F : Family) : Bool :=
  match F.state with
  | .opened _ => false
  | .finalized _ => true

/-- Where the methods for a family are found; an open family has no answer yet. -/
def Family.dispatch? (F : Family) : Option Dispatch :=
  match F.state with
  | .opened _ => none
  | .finalized table => some table

/-- Everything declared so far. -/
structure Signature where
  entries : List (Name × Entry) := []
  globals : List (Name × Global) := []
  families : Array Family := #[]
  constructors : Array Constructor := #[]
  /-- Each family is kept under its own number. -/
  numbered : ∀ i (h : i < families.size), families[i].id = ⟨i⟩ := by decide

namespace Signature

/-- The signature in which nothing is declared. -/
def empty : Signature := {}

/-- What a name refers to. -/
def entry? (S : Signature) (name : Name) : Option Entry := S.entries.lookup name

/-- The constant with a name. -/
def global? (S : Signature) (name : Name) : Option Global := S.globals.lookup name

/-- The family with a number. -/
def family? (S : Signature) (id : FamilyId) : Option Family := S.families[id.index]?

/-- The constructor with a number. -/
def constructor? (S : Signature) (id : ConstructorId) : Option Constructor :=
  S.constructors[id.index]?

/-- The family with a name. -/
def familyNamed? (S : Signature) (name : Name) : Option Family :=
  match S.entry? name with
  | some (.family id) => S.family? id
  | _ => none

/-- What a constant computes to: its definition, or itself. -/
def unfold (S : Signature) (name : Name) : Value :=
  match (S.global? name).bind (·.definition) with
  | some v => v
  | none => .neutral (.const name)

/-- Adds a constant. -/
def addGlobal (S : Signature) (name : Name) (g : Global) : Signature :=
  { S with entries := (name, .global) :: S.entries, globals := (name, g) :: S.globals }

theorem numbered_push {families : Array Family} {F : Family}
    (h : ∀ i (hi : i < families.size), families[i].id = ⟨i⟩) (hF : F.id = ⟨families.size⟩) :
    ∀ i (hi : i < (families.push F).size), (families.push F)[i].id = ⟨i⟩ := by
  intro i hi
  rw [Array.getElem_push]
  split
  · exact h i _
  · rw [hF, show i = families.size by simp at hi; omega]

theorem numbered_set {families : Array Family} (F : Family)
    (h : ∀ i (hi : i < families.size), families[i].id = ⟨i⟩) :
    ∀ i (hi : i < (families.setIfInBounds F.id.index F).size),
      (families.setIfInBounds F.id.index F)[i].id = ⟨i⟩ := by
  intro i hi
  rw [Array.getElem_setIfInBounds (by rwa [Array.size_setIfInBounds] at hi)]
  split
  · next he => exact he ▸ rfl
  · exact h i _

/-- Adds a family, open and without constructors. -/
def addFamily (S : Signature) (name : Name) (parameterCount indexCount : Nat) (type : Value) :
    Signature × FamilyId :=
  let id : FamilyId := ⟨S.families.size⟩
  let F : Family := ⟨id, name, parameterCount, indexCount, type, .opened []⟩
  ({ S with
      entries := (name, .family id) :: S.entries
      families := S.families.push F
      numbered := numbered_push S.numbered rfl }, id)

/-- Replaces the family with the number of `F`. -/
def setFamily (S : Signature) (F : Family) : Signature :=
  { S with
    families := S.families.setIfInBounds F.id.index F
    numbered := numbered_set F S.numbered }

/-- Adds a constructor to the family `F`. -/
def addConstructor (S : Signature) (name : Name) (F : Family) (fieldCount : Nat)
    (recursiveFields : List Nat) (type : Value) : Signature × ConstructorId :=
  let id : ConstructorId := ⟨S.constructors.size⟩
  let K : Constructor :=
    ⟨id, name, F.id, F.parameterCount, fieldCount, recursiveFields, type⟩
  let S := S.setFamily { F with state := .opened (F.constructors ++ [id]) }
  ({ S with
      entries := (name, .constructor id) :: S.entries
      constructors := S.constructors.push K }, id)

/-- Closes the family `F` to further constructors. -/
def finalize (S : Signature) (F : Family) : Signature :=
  S.setFamily { F with state := .finalized (.build F.constructors) }

end Signature

end Constructions
