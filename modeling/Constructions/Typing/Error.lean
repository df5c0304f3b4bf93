/-
# What is refused, and why

A term is refused with a `TypeError`, a declaration or an elimination with a
`SignatureError`.  A `KernelError` is either of the two, or a violation that a
caller asked to be told about.
-/

import Constructions.Halt
import Constructions.Term.Record

namespace Constructions

/-- Why a term has no type, or not the expected one. -/
inductive TypeError where
  | unboundVariable (index : Nat)
  | unknownConstant (name : Name)
  | expectedUniverse (found : Term)
  | expectedFunction (found : Term)
  | expectedInductive (found : Term)
  | overapplied (arity found : Nat)
  | invalidMotive (found : Term)
  | universeOverflow (level : UInt64)
  | mismatch (expected found : Term)

/-- Why a signature does not allow what was asked of it. -/
inductive SignatureError where
  | duplicateName (name : Name)
  | unknownFamily (name : Name)
  | familyFinalized (name : Name)
  | familyUnfinalized (name : Name)
  | noConstructors (name : Name)
  | parameterCount (family : Name) (count : Nat)
  | familyArity (name : Name)
  | constructorParameters (name : Name)
  | constructorTarget (name : Name)
  | nonPositive (constructor : Name) (field : Nat)
  | methodCount (family : Name) (expected found : Nat)
  deriving DecidableEq

/-- Why the kernel refuses something. -/
inductive KernelError where
  | type (e : TypeError)
  | signature (e : SignatureError)
  | violation (v : Violation)

/-- The message of a type error; `shown` gives the text of a name. -/
def TypeError.message (shown : Name → String) : TypeError → String
  | .unboundVariable index => "variable Index(" ++ toString index ++ ") is not bound"
  | .unknownConstant name => "unknown constant " ++ shown name
  | .expectedUniverse t => "expected a type, found a term of type " ++ t.record shown
  | .expectedFunction t => "expected a function, found a term of type " ++ t.record shown
  | .expectedInductive t => "expected an inductive family, found " ++ t.record shown
  | .overapplied arity found =>
    "tag applied to " ++ toString found ++ " arguments, but accepts at most " ++ toString arity
  | .invalidMotive t =>
    "motive of type " ++ t.record shown ++ " does not eliminate the target"
  | .universeOverflow level =>
    "universe level " ++ toString level.toNat ++ " has no successor"
  | .mismatch expected found =>
    "type mismatch: expected " ++ expected.record shown ++ ", found " ++ found.record shown

/-- The message of a signature error; `shown` gives the text of a name. -/
def SignatureError.message (shown : Name → String) : SignatureError → String
  | .duplicateName n => shown n ++ " is already declared"
  | .unknownFamily n => "unknown inductive family " ++ shown n
  | .familyFinalized n => "inductive family " ++ shown n ++ " is already finalized"
  | .familyUnfinalized n => "inductive family " ++ shown n ++ " is not finalized"
  | .noConstructors n => "inductive family " ++ shown n ++ " has no constructors"
  | .parameterCount n count =>
    "type former of " ++ shown n ++ " binds fewer than " ++ toString count ++ " parameters"
  | .familyArity n => "type former of " ++ shown n ++ " does not end in a universe"
  | .constructorParameters n =>
    "constructor " ++ shown n ++ " does not bind the parameters of its family"
  | .constructorTarget n => "constructor " ++ shown n ++ " does not return its own family"
  | .nonPositive n field =>
    "constructor " ++ shown n ++ " has a non-positive occurrence of its family in field "
      ++ toString field
  | .methodCount n expected found =>
    "eliminator for " ++ shown n ++ " needs " ++ toString expected
      ++ " methods, but was given " ++ toString found

/-- The message of a kernel error; `shown` gives the text of a name. -/
def KernelError.message (shown : Name → String) : KernelError → String
  | .type e => e.message shown
  | .signature e => e.message shown
  | .violation v => v.message

/-- A procedure of the kernel. -/
abbrev Check (α : Type) := Except (Stop KernelError) α

/-- Refuses a term. -/
def TypeError.throw {α : Type} (e : TypeError) : Check α := .error (.error (.type e))

/-- Refuses a declaration or an elimination. -/
def SignatureError.throw {α : Type} (e : SignatureError) : Check α :=
  .error (.error (.signature e))

end Constructions
