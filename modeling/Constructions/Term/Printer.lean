/-
# Printing terms

A term is printed as the tokens of an expression, with single spaces between
them, so that its text is what those tokens spell.  Three places take terms of
different shapes:

| place | taken without parentheses |
| --- | --- |
| alone | every term |
| head of a call, domain of an arrow, target of an elimination | an atom, a call, a former or constructor with arguments |
| argument | an atom: a variable, a constant, `Type`, a former or constructor without arguments |

A family or constructor that is not in the signature has no name, and a term that
holds one has no text.
-/

import Constructions.Signature
import Constructions.Token

namespace Constructions

/-- The token of a label. -/
def Label.token : Label → Token
  | none => .symbol .lowDash
  | some name => .name name

namespace Term

/-- Does a term stand as an argument without parentheses? -/
def isAtomic : Term → Bool
  | .var _ _ => true
  | .const _ => true
  | .type level => level == 0
  | .former _ arguments => arguments.isEmpty
  | .con _ arguments => arguments.isEmpty
  | _ => false

/-- Does a term stand as the head of a call without parentheses? -/
def isSpine : Term → Bool
  | .app _ _ => true
  | .former _ _ => true
  | .con _ _ => true
  | t => t.isAtomic

/-- Tokens, in parentheses unless they may stand bare. -/
def wrap (bare : Bool) (tokens : List Token) : List Token :=
  if bare then tokens else .symbol .parenL :: tokens ++ [.symbol .parenR]

/-- Methods in braces, with commas between them. -/
def bracedTokens : List (List Token) → List Token
  | [] => [.symbol .curlyL, .symbol .curlyR]
  | methods =>
    [.symbol .curlyL, .space] ++ [Token.symbol .comma, .space].intercalate methods
      ++ [.space, .symbol .curlyR]

mutual

/-- The tokens of a term that stands alone. -/
def tokens (S : Signature) : Term → Option (List Token)
  | .var label _ => some [label.token]
  | .const name => some [.name name]
  | .letIn label annotation argument body => do
    let t ← tokens S annotation
    let a ← tokens S argument
    let b ← tokens S body
    some ([.word .letIn, .space, label.token, .space, .symbol .colon, .space] ++ t
      ++ [.space, .symbol .equal, .space] ++ a ++ [.symbol .semi, .space] ++ b)
  | .type level =>
    if level = 0 then some [.word .type]
    else some [.word .type, .space, .number (toString level.toNat)]
  | .pi label domain codomain => do
    let d ← tokens S domain
    let b ← tokens S codomain
    if label.text = "_" then
      some (wrap domain.isSpine d ++ [.space, .symbol .arrow, .space] ++ b)
    else
      some ([.symbol .pipe, label.token, .space, .symbol .colon, .space] ++ d
        ++ [.symbol .pipe, .space, .symbol .arrow, .space] ++ b)
  | .lam label domain body => do
    let d ← tokens S domain
    let b ← tokens S body
    some ([.symbol .pipe, label.token, .space, .symbol .colon, .space] ++ d
      ++ [.symbol .pipe, .space] ++ b)
  | .app callee argument => do
    let f ← tokens S callee
    let a ← tokens S argument
    some (wrap callee.isSpine f ++ .space :: wrap argument.isAtomic a)
  | .former id arguments => do
    let F ← S.family? id
    let as ← argumentTokens S arguments
    some (.name F.name :: as)
  | .con id arguments => do
    let K ← S.constructor? id
    let as ← argumentTokens S arguments
    some (.name K.name :: as)
  | .elim target motive methods => do
    let t ← tokens S target
    let m ← tokens S motive
    let ms ← methodTokens S methods
    some ([.word .elim, .space] ++ wrap target.isSpine t ++ [.space, .symbol .twoColon, .space]
      ++ m ++ .space :: bracedTokens ms)

/-- The tokens of arguments, each after a space. -/
def argumentTokens (S : Signature) : List Term → Option (List Token)
  | [] => some []
  | t :: ts => do
    let a ← tokens S t
    let as ← argumentTokens S ts
    some (.space :: wrap t.isAtomic a ++ as)

/-- The tokens of each method. -/
def methodTokens (S : Signature) : List Term → Option (List (List Token))
  | [] => some []
  | t :: ts => do
    let m ← tokens S t
    let ms ← methodTokens S ts
    some (m :: ms)

end

/-- The text of a term. -/
def print (S : Signature) (t : Term) : Option String := (t.tokens S).map Token.textAll

end Term

end Constructions
