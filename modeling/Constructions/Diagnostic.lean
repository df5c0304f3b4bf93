/-
# Diagnostics

An error is shown with the line it lies on and carets below the place:

```
[2:5] error: elaboration error: `missing` is not in scope
  |
2 | eval missing
  |      ^^^^^^^
```

The numbers are the line, counted from one, and the byte column, counted from
zero.  The carets begin below the start of the span, with tabs shown as three
spaces.  How many columns a text takes is up to the caller, who gives the `width`.
There is one caret a byte, at least one, and none behind the end of the line.  A
place behind the end of the source is shown at the end of its last line.
-/

import Constructions.Elaboration.Error
import Constructions.Expression.Reader
import Constructions.Text.Blank
import Constructions.Text.Bytes
import Constructions.Text.Escape
import Constructions.Token.Lexer

namespace Constructions

namespace Diagnostic

/-- A place in a source: the line, its number and the byte column in it, and how
many bytes to mark. -/
structure Place where
  number : Nat
  line : List Char
  column : Nat
  marked : Nat

/-- The place of a span, of which the lines before `number` are passed already and
`left` bytes are left to pass. -/
def placeAmong (span : Span) : Nat → Nat → List (List Char) → Except Halt (Option Place)
  | _, _, [] => .ok none
  | number, left, line :: lines =>
    if Text.byteLength line ≤ left then do
      let left ← numberLeft left (Text.byteLength line)
      placeAmong span (number + 1) left lines
    else do
      let lineStart ← numberLeft span.start left
      let lineEnd := lineStart + Text.byteLength (Text.trimEnd line)
      let stop := max (min span.stop lineEnd) (span.start + 1)
      let marked ← numberLeft stop span.start
      .ok (some ⟨number, line, left, marked⟩)

/-- The place behind the end of a source. -/
def placeAtEnd (source : List Char) : Place where
  number := source.count '\n' + 1
  line := Text.lastLine source
  column := Text.byteLength (Text.lastLine source)
  marked := 1

/-- The place of a span of bytes. -/
def place (source : List Char) (span : Span) : Except Halt Place := do
  let place ← placeAmong span 1 span.start (Text.lines source)
  .ok (place.getD (placeAtEnd source))

/-- Characters with each tab shown as three spaces. -/
def expandTabs (cs : List Char) : List Char :=
  cs.flatMap fun c => if c = '\t' then [' ', ' ', ' '] else [c]

/-- The given number of copies of a character. -/
def repeated (n : Nat) (c : Char) : String := String.ofList (List.replicate n c)

/-- The text of a diagnostic.  A column inside a character has none. -/
def render (width : List Char → Nat) (source : String) (span : Span) (message : String) :
    Except Halt String := do
  let p ← place source.toList span
  let before ← orDangling (Text.takeBytes p.column p.line)
  let number := toString p.number
  let margin := repeated number.length ' '
  .ok ("[" ++ number ++ ":" ++ toString p.column ++ "] error: " ++ message ++ "\n"
    ++ margin ++ " |\n"
    ++ number ++ " | " ++ String.ofList (Text.trimEnd (expandTabs p.line)) ++ "\n"
    ++ margin ++ " | " ++ repeated (width (expandTabs before)) ' '
    ++ repeated p.marked '^' ++ "\n")

end Diagnostic

/-- Characters in quotes, with commas between them. -/
def quotedChars (cs : List Char) : String :=
  ", ".intercalate (cs.map fun c => "`" ++ String.singleton c ++ "`")

/-- The character at the place of a lexical error; a space where there is none. -/
def LexError.found (source : String) (e : LexError) : Char :=
  match Text.dropBytes e.position source.toList with
  | some (c :: _) => c
  | _ => ' '

/-- The message of a lexical error. -/
def LexError.message (source : String) (e : LexError) : String :=
  match e.cause with
  | .unrecognized =>
    "lex error: unrecognized lexeme prefix `" ++ String.singleton (e.found source) ++ "`"
  | .unexpectedCharacter expected =>
    "lex error: expected one of " ++ quotedChars expected ++ "; found `"
      ++ Text.escape (e.found source) ++ "`"
  | .unexpectedEnd expected =>
    "lex error: expected one of " ++ quotedChars expected ++ "; found end of input"

/-- The diagnostic of a lexical error, at the byte where it was found. -/
def LexError.report (width : List Char → Nat) (source : String) (e : LexError) :
    Except Halt String := do
  let stop ← nextNumber e.position
  Diagnostic.render width source ⟨e.position, stop⟩ (e.message source)

/-- The message of a parse error. -/
def ParseError.message (e : ParseError) : String :=
  "parse error: expected one of: ["
    ++ ", ".intercalate (e.texts.map fun t => "\"" ++ t ++ "\"") ++ "]"

/-- The diagnostic of a parse error: at its token, or behind the end of the source. -/
def ParseError.report (width : List Char → Nat) (source : String) (ranges : List Span)
    (e : ParseError) : Except Halt String :=
  let span := (ranges[e.location]?).getD (.at source.utf8ByteSize)
  Diagnostic.render width source span e.message

/-- The bytes of a span of tokens; at least one byte, also behind the end. -/
def Span.bytes (source : String) (ranges : List Span) (span : Span) : Span :=
  let start := (ranges[span.start]?.map (·.start)).getD source.utf8ByteSize
  let last := if span.stop = 0 then none else ranges[span.stop - 1]?
  match last with
  | some s => if start < s.stop then ⟨start, s.stop⟩ else .at start
  | none => .at start

/-- The diagnostic of an elaboration error. -/
def ElaborationError.report (width : List Char → Nat) (source : String) (ranges : List Span)
    (S : Signature) (shown : Name → String) (e : ElaborationError) : Except Halt String := do
  let message ← e.cause.text S shown
  Diagnostic.render width source (e.span.bytes source ranges) message

end Constructions
