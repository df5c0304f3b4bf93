/-
# Reading tokens from left to right

A reader looks at the next token that is not blank and either takes it or notes
that it was looked for.  It never goes back, so when nothing fits, the failure
lies at the token it stands before, and what was looked for there is everything
that could have stood in its place.

Blank tokens are dropped at the start, but positions keep counting them.  A
blank could always have stood before the next token, so each set of expected
things begins with it.

Names are entered into a list as they are read, each once, and the list is part
of the outcome whether reading succeeds or fails.
-/

import Constructions.Name
import Constructions.Token

namespace Constructions

/-- Something a reader looked for. -/
inductive Expectation where
  | token (kind : Token.Kind)
  /-- A number that fits a universe level. -/
  | universeLevel
  /-- The end of the source. -/
  | ending
  deriving DecidableEq, Repr

/-- The text of an expectation in messages. -/
def Expectation.text : Expectation → String
  | .token .blank => "[Token::Whitespace]"
  | .token (.word k) => "[Token::Keyword(Keyword::" ++ k.title ++ ")]"
  | .token .name => "[Token::Identifier]"
  | .token .number => "[Token::Number]"
  | .token (.symbol s) => "[Token::" ++ s.title ++ "]"
  | .universeLevel => "universe level"
  | .ending => "EOF"

/-- A failed reading: the position of the token that does not fit, and what was
looked for there. -/
structure ParseError where
  location : Nat
  expected : List Expectation
  deriving DecidableEq, Repr

/-- The texts of what was expected, in order and without repetition. -/
def ParseError.texts (e : ParseError) : List String :=
  (e.expected.eraseDups.map Expectation.text).mergeSort

/-- How far a reading has come. -/
structure Cursor where
  /-- The tokens still to be read, with their positions. -/
  rest : List (Located Token)
  /-- The number of tokens of the source, blank ones included. -/
  limit : Nat
  /-- The position after the last token read. -/
  stop : Nat
  /-- What was looked for at the next token and not found. -/
  expected : List Expectation
  /-- The names read so far, in order of their first reading. -/
  names : List Name
  deriving Repr

namespace Cursor

/-- What is expected before every token: a blank. -/
def fresh : List Expectation := [.token .blank]

/-- The tokens that are not blank, with their positions from `i` on. -/
def place (i : Nat) : List Token → List (Located Token)
  | [] => []
  | .blank _ :: ts => place (i + 1) ts
  | t :: ts => ⟨t, i⟩ :: place (i + 1) ts

/-- The cursor before the first token of a source. -/
def start (tokens : List Token) : Cursor where
  rest := place 0 tokens
  limit := tokens.length
  stop := 0
  expected := fresh
  names := []

/-- The position of the next token, or the end of the source. -/
def here (c : Cursor) : Nat :=
  match c.rest with
  | [] => c.limit
  | t :: _ => t.locus

/-- Notes that `e` was looked for. -/
def note (c : Cursor) (e : Expectation) : Cursor := { c with expected := e :: c.expected }

/-- Moves past a token at `locus`, leaving `rest`. -/
def advance (c : Cursor) (locus : Nat) (rest : List (Located Token)) : Cursor :=
  { c with rest, stop := locus + 1, expected := fresh }

/-- Enters a name, unless it is known already. -/
def enter (c : Cursor) (n : Name) : Cursor :=
  if n ∈ c.names then c else { c with names := c.names ++ [n] }

end Cursor

/-- A failed reading, with the names that were read before it failed. -/
structure ReadFailure where
  error : ParseError
  names : List Name
  deriving Repr

/-- A reader of an `α` at the place of a cursor. -/
abbrev Reader (α : Type) := StateT Cursor (Except ReadFailure) α

namespace Reader

variable {α : Type}

/-- The position of the next token. -/
def here : Reader Nat := do return (← get).here

/-- The span from `start` through the last token read. -/
def spanFrom (start : Nat) : Reader Span := do return ⟨start, (← get).stop⟩

/-- Fails at the next token, with everything that was looked for there. -/
def fail : Reader α := fun c => .error ⟨⟨c.here, c.expected⟩, c.names⟩

/-- Takes the next token if it is of the given kind, and says whether it was. -/
def accept (kind : Token.Kind) : Reader Bool := fun c =>
  match c.rest with
  | t :: rest =>
    if t.value.kind = kind then .ok (true, c.advance t.locus rest)
    else .ok (false, c.note (.token kind))
  | [] => .ok (false, c.note (.token kind))

/-- Takes the next token, which has to be of the given kind. -/
def expect (kind : Token.Kind) : Reader Unit := do
  if ← accept kind then pure () else fail

/-- Takes the given symbol if it comes next. -/
def acceptSymbol (s : Symbol) : Reader Bool := accept (.symbol s)

/-- Takes the given symbol, which has to come next. -/
def expectSymbol (s : Symbol) : Reader Unit := expect (.symbol s)

/-- Takes the given word if it comes next. -/
def acceptWord (k : Keyword) : Reader Bool := accept (.word k)

/-- A name if one comes next, entered into the list of names. -/
def name? : Reader (Option (Located Name)) := fun c =>
  match c.rest with
  | ⟨.name n, locus⟩ :: rest => .ok (some ⟨n, locus⟩, (c.advance locus rest).enter n)
  | _ => .ok (none, c.note (.token .name))

/-- The universe level that digits stand for, if it is one. -/
def level? (digits : String) : Option UInt64 :=
  let n := digits.toList.foldl (fun n c => 10 * n + (c.toNat - '0'.toNat)) 0
  if n < UInt64.size then some (UInt64.ofNat n) else none

/-- A universe level if a number comes next.  A number that is no level fails
right after itself. -/
def universeLevel? : Reader (Option UInt64) := fun c =>
  match c.rest with
  | ⟨.number digits, locus⟩ :: rest =>
    match level? digits with
    | some level => .ok (some level, c.advance locus rest)
    | none => .error ⟨⟨locus + 1, [.universeLevel]⟩, c.names⟩
  | _ => .ok (none, c.note (.token .number))

/-- Reads what has to come next. -/
def require (p : Reader (Option α)) : Reader α := do
  match ← p with
  | some a => pure a
  | none => fail

/-- Reads at most `n` things, up to the first place where none comes next. -/
def manyUpTo (p : Reader (Option α)) : Nat → Reader (List α)
  | 0 => pure []
  | n + 1 => do
    match ← p with
    | none => pure []
    | some a => do
      let as ← manyUpTo p n
      pure (a :: as)

/-- Reads things up to the first place where none comes next.  Each takes a
token at least, so no more can come than there are tokens. -/
def many (p : Reader (Option α)) : Reader (List α) := fun c => manyUpTo p (c.rest.length + 1) c

/-- What follows the first thing of a list: more things, each after a comma, and
perhaps a last comma. -/
def moreUpTo (p : Reader (Option α)) : Nat → Reader (List α)
  | 0 => pure []
  | n + 1 => do
    if ← acceptSymbol .comma then
      match ← p with
      | none => pure []
      | some a => do
        let as ← moreUpTo p n
        pure (a :: as)
    else pure []

/-- Things in braces with commas between them.  A comma may stand after the last
thing, also when there is none before it. -/
def braced (p : Reader (Option α)) : Reader (List α) := do
  expectSymbol .curlyL
  let items ← do
    match ← p with
    | some a => do
      let as ← fun c => moreUpTo p (c.rest.length + 1) c
      pure (a :: as)
    | none => do
      let _ ← acceptSymbol .comma
      pure []
  expectSymbol .curlyR
  pure items

/-- Reads to the end of the source. -/
def toEnd (p : Reader α) : Reader α := do
  let a ← p
  fun c => match c.rest with
    | [] => .ok (a, c)
    | _ :: _ => fail (c.note .ending)

end Reader

/-- The outcome of a reading: what was read, or why it failed, and the names met. -/
structure Reading (α : Type) where
  result : Except ParseError α
  names : List Name

/-- Runs a reader on the tokens of a source. -/
def Reader.read {α : Type} (p : Reader α) (tokens : List Token) : Reading α :=
  match p (Cursor.start tokens) with
  | .ok (a, c) => ⟨.ok a, c.names⟩
  | .error f => ⟨.error f.error, f.names⟩

end Constructions
