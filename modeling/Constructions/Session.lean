/-
# Sessions

A session is a signature that grows as programs run on it, and the outcomes of
the declarations that were run.

A program runs from its first declaration to its last and ends at the first error.
What was declared before stays, and a `data` declaration that fails midway leaves
its family open, with the constructors that were admitted.
-/

import Constructions.Elaboration
import Constructions.Signature.Update

namespace Constructions

/-- What running a declaration shows. -/
inductive Outcome where
  | declared (name : Name)
  | evaluated (term normal type : Term)
  | checked (term type : Term)

/-- A running declaration: it changes the signature, and may end without an outcome.
The changes made before it ends are kept. -/
abbrev Declare (α : Type) := ExceptT (Stop ElaborationError) (StateM Signature) α

namespace Declare

/-- Elaboration in the signature as it stands. -/
def elaborating {α : Type} (f : Signature → Elaborate α) : Declare α := do
  match f (← get) with
  | .ok a => pure a
  | .error e => throw e

/-- An update that the kernel makes or refuses; errors are about `span`. -/
def admitting {α : Type} (span : Span) (u : Update α) : Declare α := u.adapt (·.at span)

end Declare

/-- Elaborates parameters, each in the scope of those before it. -/
def elaborateParameters (n : Nat) : Context → List Parameter → Elaborate (List (Label × Term))
  | _, [] => .ok []
  | Γ, p :: ps => do
    let (t, _) ← Γ.elaborateType n p.type
    let v ← Γ.eval n t
    let rest ← elaborateParameters n (Γ.bind p.label.value v) ps
    .ok ((p.label.value, t) :: rest)

/-- The context extended by the variables of a telescope. -/
def Context.bindAll (n : Nat) : Context → List (Label × Term) → Except Halt Context
  | Γ, [] => .ok Γ
  | Γ, (label, t) :: rest => do
    let v ← Γ.eval n t
    (Γ.bind label v).bindAll n rest

/-- Elaborates a type in the scope of a telescope, and abstracts over the telescope. -/
def elaborateOver (S : Signature) (n : Nat) (telescope : List (Label × Term)) (e : Expression) :
    Elaborate Term := do
  let Γ ← (Context.empty S).bindAll n telescope
  let (t, _) ← Γ.elaborateType n e
  .ok (.pis telescope t)

namespace Command

/-- Opens a family, adds its constructors and closes it. -/
def runData (n : Nat) (span : Span) (name : Located Name) (parameters : List Parameter)
    (arity : Expression) (constructors : List ConstructorClause) : Declare Outcome := do
  let telescope ← Declare.elaborating fun S => elaborateParameters n (.empty S) parameters
  let type ← Declare.elaborating fun S => elaborateOver S n telescope arity
  let _ ← Declare.admitting span (Update.openFamily n name.value telescope.length type)
  constructors.forM fun c => do
    let type ← Declare.elaborating fun S => elaborateOver S n telescope c.type
    let _ ← Declare.admitting (.at c.name.locus)
      (Update.declareConstructor n name.value c.name.value type)
  let _ ← Declare.admitting span (Update.closeFamily name.value)
  pure (.declared name.value)

/-- The value of a definition with its type, given or synthesized. -/
def elaborateDefinition (S : Signature) (n : Nat) (type : Option Expression)
    (value : Expression) : Elaborate (Term × Term) :=
  match type with
  | some type => do
    let (t, A) ← type.elaborateType S n
    let (a, _) ← value.elaborate S n (some A)
    .ok (t, a)
  | none => do
    let (a, A) ← value.elaborate S n none
    let t ← A.readBack S n 0
    .ok (t, a)

/-- Runs a command whose errors are about `span`, unless they are about a part of it. -/
def run (n : Nat) (span : Span) : Command → Declare Outcome
  | .data name parameters arity constructors => runData n span name parameters arity constructors
  | .postulate name type => do
    let (t, _) ← Declare.elaborating fun S => type.elaborateType S n
    Declare.admitting span (Update.postulate n name.value t)
    pure (.declared name.value)
  | .define name type value => do
    let (t, a) ← Declare.elaborating fun S => elaborateDefinition S n type value
    Declare.admitting span (Update.define n name.value t a)
    pure (.declared name.value)
  | .evaluate term => Declare.elaborating fun S => do
    let (t, A) ← term.elaborate S n none
    let normal ← t.normalize S n
    let type ← A.readBack S n 0
    .ok (.evaluated t normal type)
  | .check term type => Declare.elaborating fun S => do
    let (t, A) ← type.elaborateType S n
    let (a, _) ← term.elaborate S n (some A)
    .ok (.checked a t)

end Command

/-- Runs one declaration. -/
def Declaration.run (n : Nat) (d : Declaration) : Declare Outcome := d.command.run n d.span

/-- A signature, and the outcomes of what was run on it. -/
structure Session where
  signature : Signature := .empty
  outcomes : List Outcome := []

/-- Runs a program, up to the first declaration that fails. -/
def Session.run (n : Nat) : Session → Program → Session × Option (Stop ElaborationError)
  | σ, [] => (σ, none)
  | σ, d :: ds =>
    match (d.run n).run σ.signature with
    | (.ok outcome, S) => Session.run n ⟨S, σ.outcomes ++ [outcome]⟩ ds
    | (.error e, S) => (⟨S, σ.outcomes⟩, some e)

end Constructions
