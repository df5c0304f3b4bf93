/-
# How a computation ends without a result

Computing with terms that were not checked can go wrong, and even then it does
so in a definite way.  A computation halts when

| halt | because |
| --- | --- |
| `violation` | it met a value of a shape that checking rules out |
| `dangling` | it followed a variable, family or constructor that does not exist |
| `overflow` | it counted further than 64 bits reach, or below zero |
| `exhausted` | it used up the fuel it was given; more fuel may let it finish |

A procedure that can also refuse its input ends with a `Stop`: it halted, or it
reports an error of its own.
-/

import Constructions.Term

namespace Constructions

/-- A state that checking rules out. -/
inductive Violation where
  | nonConstructorTarget
  | partialConstruction (id : ConstructorId)
  | missingMethod (id : ConstructorId)
  | unfinalizedFamily (id : FamilyId)
  | notAFunction
  | shortTelescope
  | escapedVariable
  deriving DecidableEq, Repr

/-- The text of a constructor's number in messages. -/
def ConstructorId.text (id : ConstructorId) : String :=
  "ConstructorId(" ++ toString id.index ++ ")"

/-- The text of a family's number in messages. -/
def FamilyId.text (id : FamilyId) : String := "FamilyId(" ++ toString id.index ++ ")"

/-- The message of a violation. -/
def Violation.message : Violation → String
  | .nonConstructorTarget => "cannot eliminate a value that is neither neutral nor constructed"
  | .partialConstruction id =>
    "constructor " ++ id.text ++ " is applied to the wrong number of fields"
  | .missingMethod id => "no method for constructor " ++ id.text
  | .unfinalizedFamily id =>
    "inductive family " ++ id.text ++ " was eliminated before being finalized"
  | .notAFunction => "applied a value that is not a function"
  | .shortTelescope => "telescope is shorter than its declared arity"
  | .escapedVariable => "read back a variable outside of its scope"

/-- Why a computation has no result. -/
inductive Halt where
  | violation (v : Violation)
  | dangling
  | overflow
  | exhausted
  deriving DecidableEq, Repr

/-- The end of a procedure without a result: it halted, or it reports an error. -/
inductive Stop (ε : Type) where
  | halt (h : Halt)
  | error (e : ε)

/-- A computation is a procedure that reports no errors. -/
instance {ε : Type} : MonadLift (Except Halt) (Except (Stop ε)) where
  monadLift
    | .ok a => .ok a
    | .error h => .error (.halt h)

/-- What has to exist. -/
def orDangling {α : Type} : Option α → Except Halt α
  | some a => .ok a
  | none => .error .dangling

/-- The number after `n`.  Variables in scope and positions in a text are counted
with 64 bits. -/
def nextNumber (n : Nat) : Except Halt Nat :=
  if n + 1 < UInt64.size then .ok (n + 1) else .error .overflow

/-- **Below the last number, counting on is adding one.** -/
theorem nextNumber_of_lt {n : Nat} (h : n + 1 < UInt64.size) : nextNumber n = .ok (n + 1) :=
  if_pos h

/-- **Counting on succeeds only by adding one.** -/
theorem eq_of_nextNumber {n m : Nat} (h : nextNumber n = .ok m) : m = n + 1 := by
  unfold nextNumber at h
  split at h
  · exact (Except.ok.inj h).symm
  · cases h

/-- What is left of `n` without `m`. -/
def numberLeft (n m : Nat) : Except Halt Nat := if m ≤ n then .ok (n - m) else .error .overflow

/-- **What is there can be taken away.** -/
theorem numberLeft_add (m n : Nat) : numberLeft (m + n) m = .ok n := by
  rw [numberLeft, if_pos (Nat.le_add_right m n), Nat.add_sub_cancel_left]

/-- Violations that are reported become halts where nobody takes the report. -/
def Stop.toHalt : Stop Violation → Halt
  | .halt h => h
  | .error v => .violation v

end Constructions
