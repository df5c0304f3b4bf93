/-
# What elaboration refuses, and why

An error names the span of tokens it is about.  Its text is written for a reader
of the source: terms are printed as expressions.  Only what the kernel alone can
say shows terms constructor by constructor.
-/

import Constructions.Span
import Constructions.Term.Printer
import Constructions.Typing.Error

namespace Constructions

/-- Why an expression or declaration is refused. -/
inductive ElaborationCause where
  | notInScope (name : Name)
  | synthesizedLambda
  | expectedUniverse (found : Term)
  | expectedFunction (found : Term)
  | unexpectedLambda (expected : Term)
  | methodCount (expected found : Nat)
  | invalidMotive (found : Term)
  | mismatch (synthesized expected : Term)
  | kernel (e : KernelError)

/-- A cause, with the tokens it is about. -/
structure ElaborationError where
  span : Span
  cause : ElaborationCause

/-- A procedure of elaboration. -/
abbrev Elaborate (α : Type) := Except (Stop ElaborationError) α

/-- Refuses the expression at a span. -/
def ElaborationCause.throwAt {α : Type} (cause : ElaborationCause) (span : Span) : Elaborate α :=
  .error (.error ⟨span, cause⟩)

/-- The end of a procedure of the kernel, whose error is about a span. -/
def Stop.at (span : Span) : Stop KernelError → Stop ElaborationError
  | .halt h => .halt h
  | .error e => .error ⟨span, .kernel e⟩

/-- A procedure of the kernel, whose errors are about a span. -/
def Check.at {α : Type} (span : Span) : Check α → Elaborate α
  | .ok a => .ok a
  | .error s => .error (s.at span)

/-- A name as it stands in a message about a declaration. -/
def quotedName (name : Name) : String := "`" ++ name ++ "`"

/-- The text of a term in a message. -/
def Term.inMessage (S : Signature) (t : Term) : Except Halt String := orDangling (t.print S)

/-- The text of two terms that should be the same. -/
def mismatchText (S : Signature) (kind : String) (expected found : Term) :
    Except Halt String := do
  let e ← expected.inMessage S
  let f ← found.inMessage S
  .ok (kind ++ ": type mismatch\nexpected: " ++ e ++ "\nfound: " ++ f)

/-- The text of a cause; `shown` gives the text of a name inside a term that is
shown constructor by constructor. -/
def ElaborationCause.text (S : Signature) (shown : Name → String) :
    ElaborationCause → Except Halt String
  | .notInScope name => .ok ("elaboration error: " ++ quotedName name ++ " is not in scope")
  | .synthesizedLambda =>
    .ok "elaboration error: cannot infer the type of an unannotated lambda"
  | .expectedUniverse found => do
    let t ← found.inMessage S
    .ok ("elaboration error: expected a type, found a term of type " ++ t)
  | .expectedFunction found => do
    let t ← found.inMessage S
    .ok ("elaboration error: expected a function, found a term of type " ++ t)
  | .unexpectedLambda expected => do
    let t ← expected.inMessage S
    .ok ("elaboration error: expected a term of type " ++ t ++ ", found a lambda")
  | .methodCount expected found =>
    .ok ("elaboration error: eliminator needs " ++ toString expected
      ++ " methods, but was given " ++ toString found)
  | .invalidMotive found => do
    let t ← found.inMessage S
    .ok ("elaboration error: motive of type " ++ t ++ " does not eliminate the target")
  | .mismatch synthesized expected => mismatchText S "elaboration error" expected synthesized
  | .kernel (.type (.mismatch expected found)) => mismatchText S "type error" expected found
  | .kernel (.signature e) => .ok ("configuration error: " ++ e.message quotedName)
  | .kernel e => .ok ("kernel error: " ++ e.message shown)

end Constructions
