/-
# Display width

The number of columns that a text takes on a terminal.  A character alone takes

* none if it combines with another one or is not shown;
* two if it is wide: East Asian letters and fullwidth forms, and pictures;
* one otherwise.

Some sequences take fewer or more columns than their characters do: pictures that
are joined, toned or chosen by a variation selector, and ligatures.  So a text is
measured from its end, and `Ahead` keeps what begins there that the character
before it may become part of.
-/

import Constructions.Text.Emoji
import Constructions.Text.Ligature
import Constructions.Text.ZeroWidth

namespace Constructions
namespace Text

/-- The ranges of characters that take two columns. -/
def wideRanges : List (Nat × Nat) :=
  [(0x1100, 0x115F), (0x17A4, 0x17A4), (0x231A, 0x231B), (0x2329, 0x232A), (0x23E9, 0x23EC),
   (0x23F0, 0x23F0), (0x23F3, 0x23F3), (0x25FD, 0x25FE), (0x2614, 0x2615), (0x2648, 0x2653),
   (0x267F, 0x267F), (0x2693, 0x2693), (0x26A1, 0x26A1), (0x26AA, 0x26AB), (0x26BD, 0x26BE),
   (0x26C4, 0x26C5), (0x26CE, 0x26CE), (0x26D4, 0x26D4), (0x26EA, 0x26EA), (0x26F2, 0x26F3),
   (0x26F5, 0x26F5), (0x26FA, 0x26FA), (0x26FD, 0x26FD), (0x2705, 0x2705), (0x270A, 0x270B),
   (0x2728, 0x2728), (0x274C, 0x274C), (0x274E, 0x274E), (0x2753, 0x2755), (0x2757, 0x2757),
   (0x2795, 0x2797), (0x27B0, 0x27B0), (0x27BF, 0x27BF), (0x2B1B, 0x2B1C), (0x2B50, 0x2B50),
   (0x2B55, 0x2B55), (0x2E80, 0x2E99), (0x2E9B, 0x2EF3), (0x2F00, 0x2FD5), (0x2FF0, 0x3029),
   (0x3030, 0x303E), (0x3041, 0x3096), (0x309B, 0x30FF), (0x3105, 0x312F), (0x3131, 0x3163),
   (0x3165, 0x318E), (0x3190, 0x31E3), (0x31EF, 0x321E), (0x3220, 0x3247), (0x3250, 0x4DBF),
   (0x4E00, 0xA48C), (0xA490, 0xA4C6), (0xA960, 0xA97C), (0xAC00, 0xD7A3), (0xF900, 0xFAFF),
   (0xFE10, 0xFE19), (0xFE30, 0xFE52), (0xFE54, 0xFE66), (0xFE68, 0xFE6B), (0xFF01, 0xFF60),
   (0xFFE0, 0xFFE6), (0x16FE0, 0x16FE3), (0x16FF0, 0x16FF1), (0x17000, 0x187F7),
   (0x18800, 0x18CD5), (0x18D00, 0x18D08), (0x1AFF0, 0x1AFF3), (0x1AFF5, 0x1AFFB),
   (0x1AFFD, 0x1AFFE), (0x1B000, 0x1B122), (0x1B132, 0x1B132), (0x1B150, 0x1B152),
   (0x1B155, 0x1B155), (0x1B164, 0x1B167), (0x1B170, 0x1B2FB), (0x1F004, 0x1F004),
   (0x1F0CF, 0x1F0CF), (0x1F18E, 0x1F18E), (0x1F191, 0x1F19A), (0x1F200, 0x1F202),
   (0x1F210, 0x1F23B), (0x1F240, 0x1F248), (0x1F250, 0x1F251), (0x1F260, 0x1F265),
   (0x1F300, 0x1F320), (0x1F32D, 0x1F335), (0x1F337, 0x1F37C), (0x1F37E, 0x1F393),
   (0x1F3A0, 0x1F3CA), (0x1F3CF, 0x1F3D3), (0x1F3E0, 0x1F3F0), (0x1F3F4, 0x1F3F4),
   (0x1F3F8, 0x1F43E), (0x1F440, 0x1F440), (0x1F442, 0x1F4FC), (0x1F4FF, 0x1F53D),
   (0x1F54B, 0x1F54E), (0x1F550, 0x1F567), (0x1F57A, 0x1F57A), (0x1F595, 0x1F596),
   (0x1F5A4, 0x1F5A4), (0x1F5FB, 0x1F64F), (0x1F680, 0x1F6C5), (0x1F6CC, 0x1F6CC),
   (0x1F6D0, 0x1F6D2), (0x1F6D5, 0x1F6D7), (0x1F6DC, 0x1F6DF), (0x1F6EB, 0x1F6EC),
   (0x1F6F4, 0x1F6FC), (0x1F7E0, 0x1F7EB), (0x1F7F0, 0x1F7F0), (0x1F90C, 0x1F93A),
   (0x1F93C, 0x1F945), (0x1F947, 0x1F9FF), (0x1FA70, 0x1FA7C), (0x1FA80, 0x1FA88),
   (0x1FA90, 0x1FABD), (0x1FABF, 0x1FAC5), (0x1FACE, 0x1FADB), (0x1FAE0, 0x1FAE8),
   (0x1FAF0, 0x1FAF8), (0x20000, 0x2FFFD), (0x30000, 0x3FFFD)]

/-- The number of columns of a character alone. -/
def columns (c : Char) : Nat :=
  if c.toNat ≤ 0xA0 then 1
  else if c.toNat = 0x17D8 then 3
  else if isZeroWidth c then 0
  else if inRanges wideRanges c then 2
  else 1

/-- What a text begins with, as far as a character before it may join. -/
inductive Start where
  /-- Nothing that joins. -/
  | plain
  /-- A skin tone. -/
  | modifier
  /-- One letter of a flag. -/
  | indicator
  /-- Several letters of flags. -/
  | indicators
  /-- A picture. -/
  | picture
  /-- A joiner before a picture. -/
  | joined
  /-- A keycap before a joined picture. -/
  | joinedKeycap
  /-- One letter of a flag before a joined picture. -/
  | joinedIndicator
  /-- Several letters of flags before a joined picture; an even number of them or not. -/
  | joinedIndicators (even : Bool)
  /-- The end of a tag before a joined picture, with its last letters, and digits before them. -/
  | joinedTag (letters digits : Nat)
  /-- An Arabic alef. -/
  | alef
  /-- The end of a ligature, and whether a joiner stands before it. -/
  | ligature (tail : Ligature) (bridged : Bool)
  deriving DecidableEq, Repr

/-- How a variation selector asks for the character before it to be shown. -/
inductive Presentation where
  | text
  | picture
  deriving DecidableEq, Repr

/-- What stands behind a place: a start, and a variation selector before it. -/
structure Ahead where
  start : Start := .plain
  selector : Option Presentation := none
  deriving DecidableEq, Repr

namespace Start

/-- Is it a ligature of letters, which no variation selector breaks? -/
def isScript : Start → Bool
  | .alef => true
  | .ligature _ _ => true
  | _ => false

/-- Does it join with a picture that is chosen by a variation selector? -/
def isJoined : Start → Bool
  | .joined => true
  | .joinedKeycap => true
  | _ => false

/-- What a character begins on its own. -/
def ofChar (c : Char) : Start :=
  if isArabicAlef c then .alef
  else if isIndicator c then .indicator
  else if isModifier c then .modifier
  else if isPicture c then .picture
  else match Ligature.ofChar? c with
    | some l => .ligature l false
    | none => .plain

/-- A joiner before a picture. -/
def afterJoiner (c : Char) : Option (Int × Start) :=
  if isJoiner c then some (0, .joined) else none

/-- A character before a tag of which `letters` and `digits` were passed.  A tag has
three to six letters, or three digits and then up to four letters. -/
def extendTag (letters digits : Nat) (c : Char) : Option (Int × Start) :=
  if isTagLetter c then
    if digits = 0 ∧ letters < 6 then some (0, .joinedTag (letters + 1) 0) else none
  else if isTagDigit c then
    if digits < 3 ∧ (0 < digits ∨ letters ≤ 4) then some (0, .joinedTag letters (digits + 1))
    else none
  else if c.toNat = 0x1F3F4 ∧ (digits = 3 ∨ digits = 0 ∧ 3 ≤ letters) then some (0, .picture)
  else none

/-- How a character joins with a start: the columns it adds, and the start of the two
together. -/
def extend? (c : Char) : Start → Option (Int × Start)
  | .plain => none
  | .modifier => if isModifierBase c then some (0, .picture) else afterJoiner c
  | .indicator => if isIndicator c then some (1, .indicators) else none
  | .indicators => if isIndicator c then some (1, .indicators) else afterJoiner c
  | .picture => afterJoiner c
  | .joined =>
    if c.toNat = 0x20E3 then some (0, .joinedKeycap)
    else if isIndicator c then some (1, .joinedIndicator)
    else if isModifier c then some (0, .modifier)
    else if c.toNat = 0xE007F then some (0, .joinedTag 0 0)
    else if isPicture c then some (0, .picture)
    else none
  | .joinedKeycap => none
  | .joinedIndicator => if isIndicator c then some (-1, .joinedIndicators true) else none
  | .joinedIndicators even =>
    if isIndicator c then some (if even then 3 else -1, .joinedIndicators !even)
    else afterJoiner c
  | .joinedTag letters digits => extendTag letters digits c
  | .alef =>
    if isArabicLam c then some (0, .plain)
    else if isJoinTransparent c then some (0, .alef)
    else none
  | .ligature l bridged =>
    if isJoiner c then some (0, .ligature l true)
    else if isIgnorableMark c then some (0, .ligature l bridged)
    else (l.extend? bridged c).map fun r =>
      (r.1, match r.2 with
        | some l => .ligature l false
        | none => .plain)

end Start

namespace Ahead

/-- What is left of a selector that asks for a picture when the character before it
is none. -/
def dropPicture (a : Ahead) : Ahead :=
  if a.selector = some .picture then ⟨if a.start.isScript then a.start else .plain, none⟩ else a

/-- A character before what stands ahead, of which no picture is asked for. -/
def pushPlain (c : Char) (a : Ahead) : Int × Ahead :=
  if c.toNat ≤ 0xA0 then (1, {})
  else if selectsPicture c then
    (0, ⟨if a.start.isScript || a.start.isJoined then a.start else .plain, some .picture⟩)
  else if selectsText c then (0, ⟨if a.start.isScript then a.start else .plain, some .text⟩)
  else if a.selector = some .text ∧ narrowsAsText c then (1, {})
  else match a.start.extend? c with
    | some (n, start) => (n, ⟨start, none⟩)
    | none => (columns c, ⟨.ofChar c, none⟩)

/-- A character before what stands ahead: the columns it adds, and what stands ahead
then. -/
def push (c : Char) (a : Ahead) : Int × Ahead :=
  if a.selector = some .picture ∧ isSelectable c then
    (if a.start.isJoined then 0 else 2, ⟨.picture, none⟩)
  else a.dropPicture.pushPlain c

end Ahead

/-- Measures a text from its end. -/
def measure : List Char → Int × Ahead
  | [] => (0, {})
  | c :: cs =>
    let (n, ahead) := measure cs
    let (m, ahead) := ahead.push c
    (n + m, ahead)

/-- The number of columns of a text. -/
def width (cs : List Char) : Nat := (measure cs).1.toNat

end Text
end Constructions
