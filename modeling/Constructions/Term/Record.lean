/-
# The structure of a term as text

Messages about terms that may make no sense to a reader of the source show them
constructor by constructor, with the fields in order.  How a name is shown is
left open: a caller gives the text for it.
-/

import Constructions.Halt

namespace Constructions

/-- The structure of a label. -/
def Label.record (shown : Name → String) : Label → String
  | none => "None"
  | some name => "Some(" ++ shown name ++ ")"

/-- A binder over a body. -/
def binderRecord (label body : String) : String :=
  "Binder \x7b parameters: [" ++ label ++ "], body: " ++ body ++ " \x7d"

namespace Term

mutual

/-- The structure of a term. -/
def record (shown : Name → String) : Term → String
  | .var label index =>
    "Variable(" ++ label.record shown ++ ", Index(" ++ toString index ++ "))"
  | .const name => "Constant(" ++ shown name ++ ")"
  | .letIn label annotation argument body =>
    "Let \x7b ty: " ++ record shown annotation ++ ", argument: " ++ record shown argument
      ++ ", tail: " ++ binderRecord (label.record shown) (record shown body) ++ " \x7d"
  | .type level => "Universe(" ++ toString level.toNat ++ ")"
  | .pi label domain codomain =>
    "Pi \x7b base: " ++ record shown domain
      ++ ", family: " ++ binderRecord (label.record shown) (record shown codomain) ++ " \x7d"
  | .lam label domain body =>
    "Function \x7b domain: " ++ record shown domain
      ++ ", body: " ++ binderRecord (label.record shown) (record shown body) ++ " \x7d"
  | .app callee argument =>
    "Apply \x7b scrutinee: " ++ record shown callee
      ++ ", argument: " ++ record shown argument ++ " \x7d"
  | .former id arguments =>
    "Former(" ++ id.text ++ ", [" ++ ", ".intercalate (recordAll shown arguments) ++ "])"
  | .con id arguments =>
    "Constructor(" ++ id.text ++ ", [" ++ ", ".intercalate (recordAll shown arguments) ++ "])"
  | .elim target motive methods =>
    "Eliminate \x7b target: " ++ record shown target ++ ", motive: " ++ record shown motive
      ++ ", methods: [" ++ ", ".intercalate (recordAll shown methods) ++ "] \x7d"

/-- The structure of each of the terms. -/
def recordAll (shown : Name → String) : List Term → List String
  | [] => []
  | t :: ts => record shown t :: recordAll shown ts

end

end Term

end Constructions
