/-
# Typing rules

A declarative account of which terms have which types, against which the procedures
of the kernel are measured.  A `Theory` holds what is declared: the types of
constants, their definitions, and the shapes of families and constructors.

Types are compared without domains, labels and local definitions: `Θ.Equal A B` says
that the bare terms of `A` and `B` are convertible.  The rule `conv` asks for nothing
else, so a term may also be given a type that is equal to a sensible one without
being sensible itself; what is needed of types is asked for where it is used.

| rule | gives |
| --- | --- |
| `letIn` | the type of the body with the argument in it |
| `type` | `Type n : Type (n + 1)` for every number `n` |
| `pi` | the larger of the two universes |
| `atom` | constants, formers and constructors have their declared types |
| `elim` | the motive at the indices of the target and at the target |

The type of a motive and those of the methods are instances of terms that only depend
on the declarations (`FamilyShape.motiveType`, `ConstructorShape.methodType`).
-/

import Constructions.Proofs.Bare.Conversion
import Constructions.Proofs.Plain

namespace Constructions

open Plain

/-- A declared family.  The indices are under the parameters. -/
structure FamilyShape where
  parameters : List Plain
  indices : List Plain
  /-- The universe that the family lives in. -/
  level : Nat
  /-- The constructors, once the family is finalized. -/
  constructors : Option (List ConstructorId)

/-- A declared constructor.  The fields are under the parameters; the indices of the
recursive fields and of the target are under the parameters and all fields. -/
structure ConstructorShape where
  family : FamilyId
  parameters : List Plain
  fields : List Plain
  /-- The recursive fields: their positions among all arguments, and their indices. -/
  recursive : List (Nat × List Plain)
  target : List Plain

/-- The type of the former. -/
def FamilyShape.type (D : FamilyShape) : Plain :=
  pis (D.parameters ++ D.indices) (.atom (.type D.level))

/-- The type of the motives of a family at given parameters, into a universe. -/
def FamilyShape.motiveType (D : FamilyShape) (id : FamilyId) (parameters : List Plain)
    (level : Nat) : Plain :=
  (pis D.indices (.pi (spine (.atom (.former id)) (vars (D.parameters.length + D.indices.length)))
    (.atom (.type level)))).subst (ofList parameters.reverse)

/-- The renaming that makes room for one more variable outside of `n` binders. -/
def skip (n i : Nat) : Nat := if i < n then i else i + 1

namespace ConstructorShape

variable (K : ConstructorShape)

/-- The number of arguments of a full application of the constructor. -/
def arity : Nat := K.parameters.length + K.fields.length

/-- The family at the parameters and at given indices, under all fields. -/
def familyAt (indices : List Plain) : Plain :=
  spine (.atom (.former K.family)) ((vars K.arity).take K.parameters.length ++ indices)

/-- The type of the constructor. -/
def type : Plain := pis (K.parameters ++ K.fields) (K.familyAt K.target)

/-- The motive, a variable outside of the fields, at indices and at an element. -/
def motiveAt (indices : List Plain) (element : Plain) : Plain :=
  spine (.var K.fields.length) (indices.map (rename (skip K.fields.length)) ++ [element])

/-- What a recursive field adds to a method: the motive at the field. -/
def hypothesis (field : Nat × List Plain) : Plain :=
  K.motiveAt field.2 (.var (K.fields.length - 1 - (field.1 - K.parameters.length)))

/-- The parameters and the fields, seen from under the fields and outside of them the motive. -/
def arguments : List Plain := (vars K.arity).map (rename (skip K.fields.length))

/-- The type of the method, under the parameters and the motive. -/
def methodScheme (id : ConstructorId) : Plain :=
  pis (renameTele Nat.succ K.fields) (arrows (K.recursive.map K.hypothesis)
    (K.motiveAt K.target (spine (.atom (.con id)) K.arguments)))

/-- The type of the method for a constructor, at given parameters and a given motive. -/
def methodType (id : ConstructorId) (parameters : List Plain) (motive : Plain) : Plain :=
  (K.methodScheme id).subst (ofList (motive :: parameters.reverse))

end ConstructorShape

/-- What is declared. -/
structure Theory where
  /-- The types of constants. -/
  constant : Name → Option Plain
  /-- What defined constants unfold to. -/
  definition : Name → Option Plain
  family : FamilyId → Option FamilyShape
  constructor : ConstructorId → Option ConstructorShape
  constant_closed : ∀ {c T}, constant c = some T → T.Closed
  definition_closed : ∀ {c t}, definition c = some t → t.Closed
  family_closed : ∀ {F D}, family F = some D → D.type.Closed
  constructor_closed : ∀ {c K}, constructor c = some K → K.type.Closed

namespace Theory

variable (Θ : Theory)

/-- The type of a declared thing. -/
def typeOf : Atom → Option Plain
  | .const c => Θ.constant c
  | .former F => (Θ.family F).map (·.type)
  | .con c => (Θ.constructor c).map (·.type)
  | _ => none

theorem typeOf_closed {a : Atom} {T : Plain} (h : Θ.typeOf a = some T) : T.Closed := by
  cases a <;> simp only [typeOf, Option.map_eq_some_iff, reduceCtorEq] at h
  · exact Θ.constant_closed h
  · obtain ⟨D, hD, rfl⟩ := h
    exact Θ.family_closed hD
  · obtain ⟨K, hK, rfl⟩ := h
    exact Θ.constructor_closed hK

/-- How an elimination computes on a constructor of a finalized family. -/
def branch (c : ConstructorId) : Option Branch := do
  let K ← Θ.constructor c
  let D ← Θ.family K.family
  let cs ← D.constructors
  let position ← cs.idxOf? c
  some ⟨K.arity, K.parameters.length, K.recursive.map (·.1), position⟩

/-- The rules of computation. -/
def rules : Rules where
  unfold c := (Θ.definition c).map bare
  branch := Θ.branch
  closed := by
    intro c r h σ
    obtain ⟨t, ht, rfl⟩ := Option.map_eq_some_iff.1 h
    have hc := Θ.definition_closed ht
    -- Closing `t` with holes leaves nothing for `σ` to act on.
    rw [← hc fun _ => .atom .hole, bare_subst, Bare.subst_subst]
    rfl

/-- Two terms are equal up to computation, domains and local definitions. -/
def Equal (A B : Plain) : Prop := Conv Θ.rules A.bare B.bare

end Theory

/-- The variable at an index has a type; the type is moved into the whole scope. -/
inductive Lookup : List Plain → Nat → Plain → Prop where
  | zero (Γ : List Plain) (A : Plain) : Lookup (A :: Γ) 0 A.shift
  | succ {Γ : List Plain} {i : Nat} {A : Plain} (B : Plain) :
      Lookup Γ i A → Lookup (B :: Γ) (i + 1) A.shift

/-- The typing rules. -/
inductive HasType (Θ : Theory) : List Plain → Plain → Plain → Prop where
  | var {Γ : List Plain} {i : Nat} {A : Plain} : Lookup Γ i A → HasType Θ Γ (.var i) A
  | atom {Γ : List Plain} {a : Atom} {T : Plain} :
      Θ.typeOf a = some T → HasType Θ Γ (.atom a) T
  | type {Γ : List Plain} (n : Nat) :
      HasType Θ Γ (.atom (.type n)) (.atom (.type (n + 1)))
  | letIn {Γ : List Plain} {A a b B : Plain} {n : Nat} :
      HasType Θ Γ A (.atom (.type n)) → HasType Θ Γ a A → HasType Θ Γ (b.inst a) B →
      HasType Θ Γ (.letIn A a b) B
  | pi {Γ : List Plain} {A B : Plain} {n m : Nat} :
      HasType Θ Γ A (.atom (.type n)) → HasType Θ (A :: Γ) B (.atom (.type m)) →
      HasType Θ Γ (.pi A B) (.atom (.type (max n m)))
  | lam {Γ : List Plain} {A b B : Plain} {n : Nat} :
      HasType Θ Γ A (.atom (.type n)) → HasType Θ (A :: Γ) b B →
      HasType Θ Γ (.lam A b) (.pi A B)
  | app {Γ : List Plain} {f a A B : Plain} :
      HasType Θ Γ f (.pi A B) → HasType Θ Γ a A → HasType Θ Γ (.app f a) (B.inst a)
  | elim {Γ : List Plain} {F : FamilyId} {D : FamilyShape} {cs : List ConstructorId}
      {ps is ms : List Plain} {M t : Plain} {n : Nat} :
      Θ.family F = some D → D.constructors = some cs →
      ps.length = D.parameters.length → is.length = D.indices.length → ms.length = cs.length →
      HasType Θ Γ t (spine (.atom (.former F)) (ps ++ is)) →
      HasType Θ Γ M (D.motiveType F ps n) →
      (∀ {j : Nat} {m c K}, ms[j]? = some m → cs[j]? = some c → Θ.constructor c = some K →
        HasType Θ Γ m (K.methodType c ps M)) →
      HasType Θ Γ (Plain.elim M ms t) (spine M (is ++ [t]))
  | conv {Γ : List Plain} {t A B : Plain} :
      HasType Θ Γ t A → Θ.Equal A B → HasType Θ Γ t B

end Constructions
