/-
# Ligatures

Letters that are drawn as one with those before them, in scripts where a font can
be relied on to do so.  The last letter of a ligature begins it, since text is
measured from its end.

| script | ligature | columns |
| --- | --- | ---: |
| Arabic | lam, alef | 1 |
| Hebrew | alef, joiner, lamed | 1 |
| Khmer | the sign coeng, letter | 0 |
| Buginese | a, vowel sign i, joiner, ya | 1 |
| Tifinagh | consonant, joiner, consonant | 1 |
| Lisu | tone letter, tone letter | 1 |
| Old Turkic | ash, joiner, i | 1 |
-/

import Constructions.Text.Ranges

namespace Constructions
namespace Text

/-- The end of a ligature that may still grow to the left. -/
inductive Ligature where
  | hebrewLamed
  | khmerLetter
  | bugineseYa
  | bugineseSignYa
  | tifinaghConsonant
  | tifinaghJoined
  | lisuTone
  | turkicI
  deriving DecidableEq, Repr

/-- Is a character an Arabic alef? -/
def isArabicAlef (c : Char) : Bool :=
  inRanges [(0x622, 0x623), (0x625, 0x625), (0x627, 0x627), (0x671, 0x673), (0x675, 0x675),
    (0x773, 0x774), (0x870, 0x882)] c

/-- Is a character an Arabic lam? -/
def isArabicLam (c : Char) : Bool :=
  inRanges [(0x644, 0x644), (0x6B5, 0x6B8), (0x76A, 0x76A), (0x8A6, 0x8A6), (0x8C7, 0x8C7)] c

/-- Is a character a Khmer letter that goes below the one before it? -/
def isKhmerLetter (c : Char) : Bool :=
  inRanges [(0x1780, 0x1782), (0x1784, 0x1787), (0x1789, 0x178C), (0x178E, 0x1793),
    (0x1795, 0x1798), (0x179B, 0x179D), (0x17A0, 0x17A0), (0x17A2, 0x17A2), (0x17A7, 0x17A7),
    (0x17AB, 0x17AC), (0x17AF, 0x17AF)] c

/-- Is a character a Tifinagh consonant? -/
def isTifinaghConsonant (c : Char) : Bool := inRanges [(0x2D31, 0x2D65), (0x2D6F, 0x2D6F)] c

/-- The ligature that a letter may be the end of. -/
def Ligature.ofChar? (c : Char) : Option Ligature :=
  if c.toNat = 0x5DC then some .hebrewLamed
  else if isKhmerLetter c then some .khmerLetter
  else if c.toNat = 0x1A10 then some .bugineseYa
  else if isTifinaghConsonant c then some .tifinaghConsonant
  else if inRanges [(0xA4FC, 0xA4FD)] c then some .lisuTone
  else if c.toNat = 0x10C03 then some .turkicI
  else none

/-- How a letter extends the end of a ligature to the left: the columns it adds, and
the end of a ligature that the two make together.  `joined` says whether a joiner
stands between them. -/
def Ligature.extend? (tail : Ligature) (joined : Bool) (c : Char) :
    Option (Int × Option Ligature) :=
  match tail with
  | .hebrewLamed => if joined && c.toNat == 0x5D0 then some (0, none) else none
  | .khmerLetter => if c.toNat = 0x17D2 then some (-1, none) else none
  | .bugineseYa => if joined && c.toNat == 0x1A17 then some (0, some .bugineseSignYa) else none
  | .bugineseSignYa => if c.toNat = 0x1A15 then some (0, none) else none
  | .tifinaghConsonant =>
    if c.toNat = 0x2D7F then some (1, some .tifinaghJoined)
    else if joined && isTifinaghConsonant c then some (0, none)
    else none
  | .tifinaghJoined => if isTifinaghConsonant c then some (-1, none) else none
  | .lisuTone => if inRanges [(0xA4F8, 0xA4FB)] c then some (0, none) else none
  | .turkicI => if joined && c.toNat == 0x10C32 then some (0, none) else none

end Text
end Constructions
