/-
# The grammar

Each rule is written so that the next token decides which way to go:

```
program  ::= declaration*
declaration ::= data name group* : full { clause, ... }  |  axiom name : full
           |  def name [: full] = full  |  eval full  |  check full : full
group    ::= ( label : full )
clause   ::= name : full
full     ::= let label [: headed] = headed ; full  |  headed
headed   ::= | label : headed | -> headed  |  | label : headed | headed
           |  | label+ | headed  |  elim spine :: headed { full, ... }
           |  spine -> headed  |  spine
spine    ::= atom+
atom     ::= ( full : full )  |  ( full )  |  Type [number]  |  name
label    ::= name  |  _
```

The rules of expressions refer to each other, so each takes the reader of inner
expressions as an argument, and `expression` closes the circle.  Every inner
expression comes after a token of its own, so there are no more levels of them
than tokens.
-/

import Constructions.Expression
import Constructions.Expression.Reader

namespace Constructions
namespace Grammar

open Reader

/-- Where an expression stands: only a `full` one may be a `let`. -/
inductive Place where
  | full
  | headed
  deriving DecidableEq, Repr

/-- A reader of inner expressions. -/
abbrev Inner := Place → Reader (Option Expression)

/-- A label: a name, or `_` for none. -/
def label? : Reader (Option (Located Label)) := do
  match ← name? with
  | some n => pure (some ⟨some n.value, n.locus⟩)
  | none => do
    let locus ← here
    if ← acceptSymbol .lowDash then pure (some ⟨none, locus⟩) else pure none

/-- The rest of `( full : full )` or `( full )`, after the parenthesis at `start`. -/
def parenthesized (inner : Inner) (start : Nat) : Reader Expression := do
  let term ← require (inner .full)
  if ← acceptSymbol .colon then
    let type ← require (inner .full)
    expectSymbol .parenR
    pure (.ascribe (← spanFrom start) term type)
  else
    expectSymbol .parenR
    pure term

/-- An atom, if one comes next. -/
def atom? (inner : Inner) : Reader (Option Expression) := do
  let start ← here
  if ← acceptSymbol .parenL then
    some <$> parenthesized inner start
  else if ← acceptWord .type then
    let level ← universeLevel?
    pure (some (.type (← spanFrom start) (level.getD 0)))
  else
    match ← name? with
    | some n => pure (some (.var (← spanFrom start) n.value))
    | none => pure none

/-- An argument of a call, with the position at which it ends. -/
def argument? (inner : Inner) : Reader (Option (Expression × Nat)) := do
  match ← atom? inner with
  | some a => pure (some (a, (← get).stop))
  | none => pure none

/-- Calls of `callee` with one argument after the other, all beginning at `start`. -/
def calls (start : Nat) (callee : Expression) (arguments : List (Expression × Nat)) : Expression :=
  arguments.foldl (fun f a => .call ⟨start, a.2⟩ f a.1) callee

/-- An atom and its arguments, if an atom comes next. -/
def spine? (inner : Inner) : Reader (Option Expression) := do
  let start ← here
  match ← atom? inner with
  | some callee => do
    let arguments ← many (argument? inner)
    pure (some (calls start callee arguments))
  | none => pure none

/-- The rest of a function or function type, after the pipe at `start`. -/
def binder (inner : Inner) (start : Nat) : Reader Expression := do
  let label ← require label?
  if ← acceptSymbol .colon then
    let domain ← require (inner .headed)
    expectSymbol .pipe
    if ← acceptSymbol .arrow then
      let codomain ← require (inner .headed)
      pure (.pi (← spanFrom start) label domain codomain)
    else
      let body ← require (inner .headed)
      pure (.typedLam (← spanFrom start) label domain body)
  else
    let labels ← many label?
    expectSymbol .pipe
    let body ← require (inner .headed)
    let span ← spanFrom start
    pure ((label :: labels).foldr (fun l b => .lam span l b) body)

/-- The rest of an elimination, after the word at `start`. -/
def elimination (inner : Inner) (start : Nat) : Reader Expression := do
  let target ← require (spine? inner)
  expectSymbol .twoColon
  let motive ← require (inner .headed)
  let methods ← braced (inner .full)
  pure (.elim (← spanFrom start) target motive methods)

/-- A headed expression, if one comes next. -/
def headed? (inner : Inner) : Reader (Option Expression) := do
  let start ← here
  if ← acceptSymbol .pipe then
    some <$> binder inner start
  else if ← acceptWord .elim then
    some <$> elimination inner start
  else
    match ← spine? inner with
    | some domain => do
      if ← acceptSymbol .arrow then
        let codomain ← require (inner .headed)
        pure (some (.pi (← spanFrom start) ⟨none, start⟩ domain codomain))
      else pure (some domain)
    | none => pure none

/-- The rest of a `let`, after the word at `start`. -/
def binding (inner : Inner) (start : Nat) : Reader Expression := do
  let label ← require label?
  if ← acceptSymbol .colon then
    let type ← require (inner .headed)
    expectSymbol .equal
    let argument ← require (inner .headed)
    expectSymbol .semi
    let body ← require (inner .full)
    pure (.typedLet (← spanFrom start) label type argument body)
  else
    expectSymbol .equal
    let argument ← require (inner .headed)
    expectSymbol .semi
    let body ← require (inner .full)
    pure (.letIn (← spanFrom start) label argument body)

/-- A full expression, if one comes next. -/
def full? (inner : Inner) : Reader (Option Expression) := do
  let start ← here
  if ← acceptWord .letIn then
    some <$> binding inner start
  else headed? inner

/-- An expression with at most `n` levels of inner expressions, if one comes next. -/
def expressionUpTo : Nat → Inner
  | 0, _ => fail
  | n + 1, .full => full? (expressionUpTo n)
  | n + 1, .headed => headed? (expressionUpTo n)

/-- A full expression, if one comes next. -/
def expression? : Reader (Option Expression) := fun c =>
  expressionUpTo (c.rest.length + 1) .full c

/-- A full expression, which has to come next. -/
def expression : Reader Expression := require expression?

/-- A parameter `( label : full )`, if one comes next. -/
def parameter? : Reader (Option Parameter) := do
  if ← acceptSymbol .parenL then
    let label ← require label?
    expectSymbol .colon
    let type ← expression
    expectSymbol .parenR
    pure (some ⟨label, type⟩)
  else pure none

/-- A clause `name : full`, if one comes next. -/
def clause? : Reader (Option ConstructorClause) := do
  match ← name? with
  | some name => do
    expectSymbol .colon
    let type ← expression
    pure (some ⟨name, type⟩)
  | none => pure none

/-- The command that begins with the given word, of which the word is read already. -/
def commandOf : Keyword → Reader Command
  | .data => do
    let name ← require name?
    let parameters ← many parameter?
    expectSymbol .colon
    let arity ← expression
    let constructors ← braced clause?
    pure (.data name parameters arity constructors)
  | .postulate => do
    let name ← require name?
    expectSymbol .colon
    let type ← expression
    pure (.postulate name type)
  | .define => do
    let name ← require name?
    if ← acceptSymbol .colon then
      let type ← expression
      expectSymbol .equal
      let value ← expression
      pure (.define name (some type) value)
    else
      expectSymbol .equal
      let value ← expression
      pure (.define name none value)
  | .evaluate => do
    let term ← expression
    pure (.evaluate term)
  | .check => do
    let term ← expression
    expectSymbol .colon
    let type ← expression
    pure (.check term type)
  | _ => fail

/-- The words that begin a command. -/
def commandWords : List Keyword := [.data, .postulate, .define, .evaluate, .check]

/-- The first of the given words that comes next. -/
def acceptAnyOf : List Keyword → Reader (Option Keyword)
  | [] => pure none
  | k :: ks => do if ← acceptWord k then pure (some k) else acceptAnyOf ks

/-- A declaration, if one comes next. -/
def declaration? : Reader (Option Declaration) := do
  let start ← here
  match ← acceptAnyOf commandWords with
  | some k => do
    let command ← commandOf k
    pure (some ⟨← spanFrom start, command⟩)
  | none => pure none

end Grammar

/-- Reads the tokens of a source as a program. -/
def Program.parse (tokens : List Token) : Reading Program :=
  (Reader.toEnd (Reader.many Grammar.declaration?)).read tokens

/-- Reads the tokens of a source as one expression. -/
def Expression.parse (tokens : List Token) : Reading Expression :=
  (Reader.toEnd Grammar.expression).read tokens

end Constructions
