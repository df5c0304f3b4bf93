/-
# Tokens

A source text is cut into tokens, and every character of it belongs to exactly
one token:

| token | text |
| --- | --- |
| `blank` | a run of spaces, tabs, carriage returns and newlines; or a comment, from `%` through the end of its line |
| `word` | one of `data` `axiom` `def` `eval` `check` `let` `elim` `Type` |
| `name` | a letter, then letters, digits, `_` and `'`, that is not a word |
| `number` | a run of decimal digits |
| `symbol` | one of `_` `\|` `:` `::` `;` `,` `=` `(` `)` `{` `}` `->` |

A token carries its text, so a text is the concatenation of its tokens, and the
place of a token is the length of what stands before it.
-/

import Constructions.Span

namespace Constructions

/-- The reserved words: five that open a declaration, three inside terms. -/
inductive Keyword where
  | data | postulate | define | evaluate | check
  | letIn | elim | type
  deriving DecidableEq, Repr

/-- The spelling of a reserved word. -/
def Keyword.text : Keyword → String
  | .data => "data"
  | .postulate => "axiom"
  | .define => "def"
  | .evaluate => "eval"
  | .check => "check"
  | .letIn => "let"
  | .elim => "elim"
  | .type => "Type"

/-- The name a message gives to a reserved word. -/
def Keyword.title : Keyword → String
  | .data => "Data"
  | .postulate => "Axiom"
  | .define => "Def"
  | .evaluate => "Eval"
  | .check => "Check"
  | .letIn => "Let"
  | .elim => "Elim"
  | .type => "Type"

/-- All reserved words. -/
def Keyword.all : List Keyword :=
  [.data, .postulate, .define, .evaluate, .check, .letIn, .elim, .type]

/-- The reserved word with the given spelling. -/
def Keyword.ofText? (text : String) : Option Keyword :=
  Keyword.all.find? (·.text == text)

/-- The punctuation. -/
inductive Symbol where
  | lowDash | pipe | colon | twoColon | semi | comma | equal
  | parenL | parenR | curlyL | curlyR | arrow
  deriving DecidableEq, Repr

/-- The spelling of a symbol. -/
def Symbol.text : Symbol → String
  | .lowDash => "_"
  | .pipe => "|"
  | .colon => ":"
  | .twoColon => "::"
  | .semi => ";"
  | .comma => ","
  | .equal => "="
  | .parenL => "("
  | .parenR => ")"
  | .curlyL => "\x7b"
  | .curlyR => "\x7d"
  | .arrow => "->"

/-- The name a message gives to a symbol. -/
def Symbol.title : Symbol → String
  | .lowDash => "LowDash"
  | .pipe => "Pipe"
  | .colon => "Colon"
  | .twoColon => "TwoColon"
  | .semi => "Semi"
  | .comma => "Comma"
  | .equal => "Equal"
  | .parenL => "ParenL"
  | .parenR => "ParenR"
  | .curlyL => "CurlyL"
  | .curlyR => "CurlyR"
  | .arrow => "Arrow"

/-- A piece of source text. -/
inductive Token where
  | blank (text : String)
  | word (keyword : Keyword)
  | name (text : String)
  | number (digits : String)
  | symbol (symbol : Symbol)
  deriving DecidableEq, Repr

namespace Token

/-- What a token is, apart from its text. -/
inductive Kind where
  | blank
  | word (keyword : Keyword)
  | name
  | number
  | symbol (symbol : Symbol)
  deriving DecidableEq, Repr

/-- The kind of a token. -/
def kind : Token → Kind
  | .blank _ => .blank
  | .word k => .word k
  | .name _ => .name
  | .number _ => .number
  | .symbol s => .symbol s

/-- The characters of a token. -/
def text : Token → String
  | .blank t => t
  | .word k => k.text
  | .name t => t
  | .number d => d
  | .symbol s => s.text

/-- The number of bytes of a token. -/
def size (t : Token) : Nat := t.text.utf8ByteSize

/-- A single space between two tokens. -/
def space : Token := .blank " "

/-- Tokens written one after the other. -/
def textAll (ts : List Token) : String := String.join (ts.map text)

end Token

end Constructions
