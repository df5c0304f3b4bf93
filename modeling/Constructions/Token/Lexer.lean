/-
# Cutting a text into tokens

The cut takes the longest token at each place.  It fails at a character that
begins no token, and at a dash that is not the start of an arrow:

| failure | position |
| --- | --- |
| `unrecognized` | the character that begins no token |
| `unexpectedCharacter` | the character after the dash |
| `unexpectedEnd` | the end of the text, after the dash |

The scanner counts the bytes that it passed, so each token is recorded with the
position before and after it.
-/

import Constructions.Text.Bytes
import Constructions.Token

namespace Constructions

/-- Why a text cannot be cut further. -/
inductive LexCause where
  | unrecognized
  | unexpectedCharacter (expected : List Char)
  | unexpectedEnd (expected : List Char)
  deriving DecidableEq, Repr

/-- A failed cut: the byte position of the failure, and its cause. -/
structure LexError where
  position : Nat
  cause : LexCause
  deriving DecidableEq, Repr

/-- A text that was cut: its tokens, and the bytes from which to which each lies. -/
structure Lexed where
  tokens : List Token
  ranges : List Span
  deriving DecidableEq, Repr

/-- How far a text is read: the bytes that were passed, and what is left of it. -/
structure Scanner where
  position : Nat
  rest : List Char

/-- The scanner behind the characters `passed`, where `rest` is left. -/
def Scanner.pass (s : Scanner) (passed rest : List Char) : Scanner :=
  ⟨s.position + Text.byteLength passed, rest⟩

/-- The scanner behind a run of characters of a kind. -/
def Scanner.passWhile (s : Scanner) (p : Char → Bool) : Scanner :=
  s.pass (s.rest.takeWhile p) (s.rest.dropWhile p)

namespace Token

/-- The characters of a run of blanks. -/
def isBlankChar (c : Char) : Bool := c == ' ' || c == '\n' || c == '\r' || c == '\t'

/-- The characters of a name after its first, which is a letter. -/
def isNameChar (c : Char) : Bool := c.isAlphanum || c == '_' || c == '\x27'

/-- Splits after the first newline, or at the end if there is none. -/
def splitLine : List Char → List Char × List Char
  | [] => ([], [])
  | c :: cs => if c = '\n' then ([c], cs) else (c :: (splitLine cs).1, (splitLine cs).2)

/-- Nothing is lost in `splitLine`. -/
theorem splitLine_append (cs : List Char) : (splitLine cs).1 ++ (splitLine cs).2 = cs := by
  induction cs with
  | nil => rfl
  | cons c cs ih => by_cases h : c = '\n' <;> simp [splitLine, h, ih]

/-- A word if the text is reserved, and a name otherwise. -/
def ofLetters (text : String) : Token :=
  match Keyword.ofText? text with
  | some k => .word k
  | none => .name text

/-- The token that begins with `c` at `start`, and the scanner behind it.  The scanner `s` stands
behind `c`. -/
def scan (start : Nat) (c : Char) (s : Scanner) : Except LexError (Token × Scanner) :=
  if isBlankChar c then
    .ok (.blank (String.ofList (c :: s.rest.takeWhile isBlankChar)), s.passWhile isBlankChar)
  else if c = '%' then
    .ok (.blank (String.ofList (c :: (splitLine s.rest).1)),
      s.pass (splitLine s.rest).1 (splitLine s.rest).2)
  else if c.isAlpha then
    .ok (ofLetters (String.ofList (c :: s.rest.takeWhile isNameChar)), s.passWhile isNameChar)
  else if c.isDigit then
    .ok (.number (String.ofList (c :: s.rest.takeWhile Char.isDigit)), s.passWhile Char.isDigit)
  else match c with
    | '_' => .ok (.symbol .lowDash, s)
    | '|' => .ok (.symbol .pipe, s)
    | ':' => match s.rest with
      | ':' :: rest => .ok (.symbol .twoColon, s.pass [':'] rest)
      | _ => .ok (.symbol .colon, s)
    | ';' => .ok (.symbol .semi, s)
    | ',' => .ok (.symbol .comma, s)
    | '=' => .ok (.symbol .equal, s)
    | '(' => .ok (.symbol .parenL, s)
    | ')' => .ok (.symbol .parenR, s)
    | '{' => .ok (.symbol .curlyL, s)
    | '}' => .ok (.symbol .curlyR, s)
    | '-' => match s.rest with
      | '>' :: rest => .ok (.symbol .arrow, s.pass ['>'] rest)
      | _ :: _ => .error ⟨s.position, .unexpectedCharacter ['>']⟩
      | [] => .error ⟨s.position, .unexpectedEnd ['>']⟩
    | _ => .error ⟨start, .unrecognized⟩

/-- A token takes at least its first character. -/
theorem scan_length_le {start : Nat} {c : Char} {s s' : Scanner} {t : Token}
    (h : scan start c s = .ok (t, s')) : s'.rest.length ≤ s.rest.length := by
  have hdrop (p : Char → Bool) : (s.passWhile p).rest.length ≤ s.rest.length :=
    (List.dropWhile_sublist p).length_le
  have hline : (splitLine s.rest).2.length ≤ s.rest.length := by
    have := congrArg List.length (splitLine_append s.rest)
    simp only [List.length_append] at this
    omega
  unfold scan at h
  repeat' split at h
  all_goals
    first
      | (simp only [Except.ok.injEq, Prod.mk.injEq] at h
         obtain ⟨-, rfl⟩ := h
         first | exact hdrop _ | exact hline | simp [Scanner.pass, *])
      | simp at h

/-- The tokens of the text that a scanner has left, each with its range. -/
def lexFrom (s : Scanner) : Except LexError Lexed :=
  match s with
  | ⟨_, []⟩ => .ok ⟨[], []⟩
  | ⟨position, c :: cs⟩ =>
    match h : scan position c ⟨position + c.utf8Size, cs⟩ with
    | .error e => .error e
    | .ok (t, s') =>
      have : s'.rest.length ≤ cs.length := scan_length_le h
      match lexFrom s' with
      | .error e => .error e
      | .ok L => .ok ⟨t :: L.tokens, ⟨position, s'.position⟩ :: L.ranges⟩
termination_by s.rest.length

/-- Cuts a text into tokens. -/
def lexed (source : String) : Except LexError Lexed := lexFrom ⟨0, source.toList⟩

/-- The tokens of a text. -/
def lex (source : String) : Except LexError (List Token) := (lexed source).map (·.tokens)

end Token

end Constructions
