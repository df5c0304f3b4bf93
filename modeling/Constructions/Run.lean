/-
# Running a source

A source is cut into tokens, read as a program, and run.  What the declarations
show goes to the output, also when a later one fails; the first error goes to the
error output, as a diagnostic.
-/

import Constructions.Diagnostic
import Constructions.Expression.Grammar
import Constructions.Session

namespace Constructions

/-- What running a source leaves behind. -/
structure Report where
  /-- Zero if everything ran, and one otherwise. -/
  exitCode : Nat
  output : String
  errors : String

/-- The text that an outcome adds to the output. -/
def Outcome.text (S : Signature) : Outcome → Except Halt String
  | .declared _ => .ok ""
  | .evaluated term normal type => do
    let t ← term.inMessage S
    let A ← type.inMessage S
    let v ← normal.inMessage S
    .ok ("Elaborated term: " ++ t ++ "\nSynthesized type: " ++ A ++ "\nEvaluation: " ++ v ++ "\n\n")
  | .checked term type => do
    let t ← term.inMessage S
    let A ← type.inMessage S
    .ok ("Checked: " ++ t ++ " : " ++ A ++ "\n\n")

/-- A name by its number among the names of a source, counted from one. -/
def numbered (names : List Name) (name : Name) : String :=
  match names.idxOf? name with
  | some i => "Spur(" ++ toString (i + 1) ++ ")"
  | none => name

/-- The report of a source that cannot be run at all. -/
def Report.failure (errors : String) : Report := ⟨1, "", errors⟩

/-- Runs the declarations of a program that was read from `source`. -/
def Program.report (width : List Char → Nat) (n : Nat) (source : String) (ranges : List Span)
    (names : List Name) (program : Program) : Except Halt Report := do
  match Session.run n {} program with
  | (σ, failure) =>
    let output ← σ.outcomes.mapM (·.text σ.signature)
    match failure with
    | none => .ok ⟨0, String.join output, ""⟩
    | some (.halt h) => .error h
    | some (.error e) => do
      let errors ← e.report width source ranges σ.signature (numbered names)
      .ok ⟨1, String.join output, errors⟩

/-- Runs a source.  Texts are as wide as `width` says. -/
def runSource (width : List Char → Nat) (n : Nat) (source : String) : Except Halt Report :=
  match Token.lexed source with
  | .error e => do .ok (.failure (← e.report width source))
  | .ok ⟨tokens, ranges⟩ =>
    let reading := Program.parse tokens
    match reading.result with
    | .error e => do .ok (.failure (← e.report width source ranges))
    | .ok program => program.report width n source ranges reading.names

end Constructions
