/-
# How a text is cut

A token is cut off a text if the text begins with its characters and the rest does not continue
it (`Token.Cut`).  This says what the lexer does, without saying how:

| token | continued by |
| --- | --- |
| a run of blanks | another blank |
| a comment without its newline | anything |
| a word or a name | a character of names |
| a number | a digit |
| a colon | a colon |
| any other symbol, a comment with its newline | nothing |

A text is cut into tokens iff it is their concatenation and each is cut off the rest
(`lexFrom_eq_ok`).  Where two texts are joined by a newline, a run of blanks at the seam grows and
a comment at the seam ends, so the tokens that are not blank are those of both (`exists_seam`).
-/

import Constructions.Proofs.Grammar.Derivation
import Constructions.Token.Lexer

namespace Constructions
namespace Token

open Text (byteLength byteLength_append byteLength_cons byteLength_toList)

/-! ### Runs of characters -/

/-- The text does not begin with a character of the kind `p`. -/
def Stops (p : Char → Bool) : List Char → Prop
  | [] => True
  | c :: _ => p c = false

theorem stops_dropWhile (p : Char → Bool) (cs : List Char) : Stops p (cs.dropWhile p) := by
  induction cs with
  | nil => trivial
  | cons c cs ih =>
    rw [List.dropWhile_cons]
    split
    · exact ih
    · next h => exact Bool.eq_false_iff.2 h

theorem takeWhile_run {p : Char → Bool} {cs rest : List Char} (hcs : ∀ c ∈ cs, p c = true)
    (hrest : Stops p rest) : (cs ++ rest).takeWhile p = cs ∧ (cs ++ rest).dropWhile p = rest := by
  induction cs with
  | nil =>
    cases rest with
    | nil => exact ⟨rfl, rfl⟩
    | cons c rest =>
      have hc : p c = false := hrest
      simp [hc]
  | cons c cs ih =>
    obtain ⟨hc, hcs⟩ := List.forall_mem_cons.1 hcs
    obtain ⟨htake, hdrop⟩ := ih hcs
    rw [List.cons_append, List.takeWhile_cons, List.dropWhile_cons, if_pos hc, if_pos hc, htake,
      hdrop]
    exact ⟨rfl, rfl⟩

theorem mem_takeWhile {p : Char → Bool} {cs : List Char} {c : Char} (h : c ∈ cs.takeWhile p) :
    p c = true := List.all_eq_true.1 List.all_takeWhile c h

theorem splitLine_newline {line : List Char} (h : ∀ c ∈ line, c ≠ '\n') (rest : List Char) :
    splitLine (line ++ '\n' :: rest) = (line ++ ['\n'], rest) := by
  induction line with
  | nil => simp [splitLine]
  | cons c line ih =>
    obtain ⟨hc, hline⟩ := List.forall_mem_cons.1 h
    rw [List.cons_append, splitLine, if_neg hc, ih hline]
    rfl

theorem splitLine_last {line : List Char} (h : ∀ c ∈ line, c ≠ '\n') :
    splitLine line = (line, []) := by
  induction line with
  | nil => rfl
  | cons c line ih =>
    obtain ⟨hc, hline⟩ := List.forall_mem_cons.1 h
    rw [splitLine, if_neg hc, ih hline]

/-- A line ends with its newline, or with the text. -/
theorem splitLine_cases (cs : List Char) :
    ∃ line, (∀ c ∈ line, c ≠ '\n') ∧
      ((splitLine cs).1 = line ++ ['\n'] ∨ (splitLine cs).1 = line ∧ (splitLine cs).2 = []) := by
  induction cs with
  | nil => exact ⟨[], by simp, .inr ⟨rfl, rfl⟩⟩
  | cons c cs ih =>
    by_cases hc : c = '\n'
    · refine ⟨[], by simp, .inl ?_⟩
      rw [splitLine, if_pos hc, hc, List.nil_append]
    · obtain ⟨line, hline, h⟩ := ih
      refine ⟨c :: line, List.forall_mem_cons.2 ⟨hc, hline⟩, ?_⟩
      rw [splitLine, if_neg hc]
      refine h.imp (fun h => ?_) fun h => ⟨?_, h.2⟩
      · rw [h, List.cons_append]
      · rw [h.1]

/-! ### Tokens at the start of a text -/

/-- A letter, and then characters of names. -/
def IsWord (cs : List Char) : Prop :=
  ∃ c cs', cs = c :: cs' ∧ c.isAlpha = true ∧ ∀ d ∈ cs', isNameChar d = true

/-- A text that is a name. -/
def IsName (x : Name) : Prop := IsWord x.toList ∧ Keyword.ofText? x = none

theorem isWord_iff {cs : List Char} :
    IsWord cs ↔ cs.head?.any Char.isAlpha = true ∧ cs.tail.all isNameChar = true := by
  constructor
  · rintro ⟨c, cs, rfl, hc, hcs⟩
    exact ⟨hc, List.all_eq_true.2 hcs⟩
  · rintro ⟨hc, hcs⟩
    cases cs with
    | nil => cases hc
    | cons c cs => exact ⟨c, cs, rfl, hc, List.all_eq_true.1 hcs⟩

instance (cs : List Char) : Decidable (IsWord cs) := decidable_of_iff _ isWord_iff.symm

instance (x : Name) : Decidable (IsName x) :=
  inferInstanceAs (Decidable (IsWord x.toList ∧ Keyword.ofText? x = none))

/-- A token is the longest one at the start of its own text followed by `rest`. -/
def Cut (rest : List Char) : Token → Prop
  | .blank s =>
      (s.toList ≠ [] ∧ (∀ c ∈ s.toList, isBlankChar c = true) ∧ Stops isBlankChar rest) ∨
        ∃ line, (∀ c ∈ line, c ≠ '\n') ∧
          (s.toList = '%' :: line ++ ['\n'] ∨ s.toList = '%' :: line ∧ rest = [])
  | .word _ => Stops isNameChar rest
  | .name x => IsName x ∧ Stops isNameChar rest
  | .number d => d.toList ≠ [] ∧ (∀ c ∈ d.toList, c.isDigit = true) ∧ Stops Char.isDigit rest
  | .symbol .colon => Stops (· == ':') rest
  | .symbol _ => True

theorem ofText?_text (k : Keyword) : Keyword.ofText? k.text = some k := by
  cases k <;> rfl

theorem text_of_ofText? {s : String} {k : Keyword} (h : Keyword.ofText? s = some k) :
    k.text = s := by
  have hk := List.find?_some h
  exact beq_iff_eq.1 hk

theorem isWord_text (k : Keyword) : IsWord k.text.toList := by
  cases k <;> exact ⟨_, _, rfl, by decide, List.all_eq_true.1 (by decide)⟩

/-- The letters of a text are a word or a name. -/
theorem cut_ofLetters {s : String} (hs : IsWord s.toList) {rest : List Char}
    (hrest : Stops isNameChar rest) : (ofLetters s).text = s ∧ (ofLetters s).Cut rest := by
  unfold ofLetters
  cases hk : Keyword.ofText? s with
  | none => exact ⟨rfl, ⟨hs, hk⟩, hrest⟩
  | some k => exact ⟨text_of_ofText? hk, hrest⟩

theorem scan_sound {i : Nat} {c : Char} {s s' : Scanner} {t : Token}
    (h : scan i c s = .ok (t, s')) : c :: s.rest = t.text.toList ++ s'.rest ∧ t.Cut s'.rest := by
  have hrun (p : Char → Bool) : s.rest.takeWhile p ++ (s.passWhile p).rest = s.rest :=
    List.takeWhile_append_dropWhile
  unfold scan at h
  split at h
  · next hc =>
    cases h
    refine ⟨?_, .inl ⟨?_, ?_, stops_dropWhile _ s.rest⟩⟩
    · rw [text, String.toList_ofList, List.cons_append, hrun]
    · simp
    · rw [String.toList_ofList, List.forall_mem_cons]
      exact ⟨hc, fun _ => mem_takeWhile⟩
  split at h
  · next hc =>
    cases h
    obtain ⟨line, hline, h⟩ := splitLine_cases s.rest
    refine ⟨?_, .inr ⟨line, hline, ?_⟩⟩
    · rw [text, String.toList_ofList, List.cons_append, Scanner.pass, splitLine_append]
    · rw [String.toList_ofList, hc]
      exact h.imp (fun h => by rw [h, List.cons_append]) fun h => ⟨by rw [h.1], h.2⟩
  split at h
  · next hc =>
    cases h
    have hword : IsWord (String.ofList (c :: s.rest.takeWhile isNameChar)).toList :=
      ⟨c, _, String.toList_ofList, hc, fun _ => mem_takeWhile⟩
    obtain ⟨htext, hcut⟩ := cut_ofLetters hword (stops_dropWhile _ s.rest)
    refine ⟨?_, hcut⟩
    rw [htext, String.toList_ofList, List.cons_append, hrun]
  split at h
  · next hc =>
    cases h
    refine ⟨?_, ?_, ?_, stops_dropWhile _ s.rest⟩
    · rw [text, String.toList_ofList, List.cons_append, hrun]
    · simp
    · rw [String.toList_ofList, List.forall_mem_cons]
      exact ⟨hc, fun _ => mem_takeWhile⟩
  split at h
  case h_3 =>
    -- Two colons are one token, so a single colon is not before another.
    split at h
    · next hrest =>
      cases h
      exact ⟨by rw [hrest]; rfl, trivial⟩
    · next hne =>
      cases h
      refine ⟨rfl, ?_⟩
      cases hcs : s.rest with
      | nil => trivial
      | cons d cs => exact beq_eq_false_iff_ne.2 fun hd => hne cs (by rw [hcs, hd])
  case h_11 =>
    split at h
    · next hrest =>
      cases h
      exact ⟨by rw [hrest]; rfl, trivial⟩
    · cases h
    · cases h
  case h_12 => cases h
  all_goals
    cases h
    exact ⟨rfl, trivial⟩

/-- **The scanner counts the bytes that it passes.** -/
theorem scan_position {i : Nat} {c : Char} {s s' : Scanner} {t : Token}
    (h : scan i c s = .ok (t, s')) :
    s'.position + byteLength s'.rest = s.position + byteLength s.rest := by
  have hpass {passed rest : List Char} (hs : passed ++ rest = s.rest) :
      (s.pass passed rest).position + byteLength (s.pass passed rest).rest =
        s.position + byteLength s.rest := by
    rw [← hs, byteLength_append, ← Nat.add_assoc]
    rfl
  unfold scan at h
  repeat' split at h
  all_goals cases h
  all_goals
    first
      | rfl
      | exact hpass List.takeWhile_append_dropWhile
      | exact hpass (splitLine_append s.rest)
      | exact hpass (by simp [*])

/-- The scanner stands behind the token that it found. -/
theorem scan_eq_ok {i : Nat} {c : Char} {cs : List Char} {s' : Scanner} {t : Token}
    (h : scan i c ⟨i + c.utf8Size, cs⟩ = .ok (t, s')) : s' = ⟨i + t.size, s'.rest⟩ := by
  have hcount := scan_position h
  have hbytes := congrArg byteLength (scan_sound h).1
  rw [byteLength_cons, byteLength_append, byteLength_toList, ← size] at hbytes
  have hposition : s'.position = i + t.size := by
    dsimp only at hcount hbytes
    omega
  rw [← hposition]

theorem not_blank_of_isAlpha {c : Char} (h : c.isAlpha = true) :
    isBlankChar c = false ∧ c ≠ '%' := by
  refine ⟨Bool.eq_false_iff.2 fun hb => ?_, ?_⟩
  · simp only [isBlankChar, Bool.or_eq_true, beq_iff_eq] at hb
    obtain ((rfl | rfl) | rfl) | rfl := hb <;> revert h <;> decide
  · rintro rfl
    revert h
    decide

theorem not_blank_of_isDigit {c : Char} (h : c.isDigit = true) :
    isBlankChar c = false ∧ c ≠ '%' ∧ c.isAlpha = false := by
  refine ⟨Bool.eq_false_iff.2 fun hb => ?_, ?_, ?_⟩
  · simp only [isBlankChar, Bool.or_eq_true, beq_iff_eq] at hb
    obtain ((rfl | rfl) | rfl) | rfl := hb <;> revert h <;> decide
  · rintro rfl
    revert h
    decide
  · have hdigit : c.isDigit = (decide (48 ≤ c.val) && decide (c.val ≤ 57)) := rfl
    have halpha : c.isAlpha = (decide (65 ≤ c.val ∧ c.val ≤ 90) ||
        decide (97 ≤ c.val) && decide (c.val ≤ 122)) := rfl
    rw [hdigit] at h
    rw [halpha]
    grind

/-- The token `t` is scanned off the text, and `rest` is left. -/
def Scanned (t : Token) (rest : List Char) : Prop :=
  ∃ c cs, t.text.toList ++ rest = c :: cs ∧
    ∀ i, scan i c ⟨i + c.utf8Size, cs⟩ = .ok (t, ⟨i + t.size, rest⟩)

/-- The position need not be looked at, since it is counted. -/
theorem Scanned.intro {c : Char} {cs rest : List Char} {t : Token}
    (hcs : t.text.toList ++ rest = c :: cs)
    (h : ∀ i, (scan i c ⟨i + c.utf8Size, cs⟩).map (fun x => (x.1, x.2.rest)) = .ok (t, rest)) :
    Scanned t rest := by
  refine ⟨c, cs, hcs, fun i => ?_⟩
  have hi := h i
  cases hscan : scan i c ⟨i + c.utf8Size, cs⟩ with
  | error e =>
    rw [hscan] at hi
    cases hi
  | ok x =>
    obtain ⟨u, s'⟩ := x
    rw [hscan] at hi
    cases hi
    rw [← scan_eq_ok hscan]

theorem scanned_letters {t : Token} (ht : IsWord t.text.toList) (h : ofLetters t.text = t)
    {rest : List Char} (hrest : Stops isNameChar rest) : Scanned t rest := by
  obtain ⟨c, cs, hw, hc, hcs⟩ := ht
  obtain ⟨hblank, hline⟩ := not_blank_of_isAlpha hc
  obtain ⟨htake, hdrop⟩ := takeWhile_run hcs hrest
  have htext : t.text.toList ++ rest = c :: (cs ++ rest) := by rw [hw, List.cons_append]
  refine .intro htext fun i => ?_
  unfold scan
  rw [hblank, if_neg Bool.false_ne_true, if_neg hline, if_pos hc]
  dsimp only [Except.map, Scanner.passWhile, Scanner.pass]
  rw [htake, hdrop, ← hw, String.ofList_toList, h]

/-- **A token that is cut off a text is scanned.** -/
theorem scan_complete {t : Token} {rest : List Char} (h : t.Cut rest) : Scanned t rest := by
  cases t with
  | blank s =>
    obtain ⟨hne, hblank, hrest⟩ | ⟨line, hline, h⟩ := h
    · cases hs : s.toList with
      | nil => exact (hne hs).elim
      | cons c cs =>
        rw [hs, List.forall_mem_cons] at hblank
        obtain ⟨htake, hdrop⟩ := takeWhile_run hblank.2 hrest
        have htext : (blank s).text.toList ++ rest = c :: (cs ++ rest) := by
          rw [text, hs, List.cons_append]
        refine .intro htext fun i => ?_
        unfold scan
        rw [if_pos hblank.1]
        dsimp only [Except.map, Scanner.passWhile, Scanner.pass]
        rw [htake, hdrop, ← hs, String.ofList_toList]
    · obtain hs | ⟨hs, rfl⟩ := h
      · have htext : (blank s).text.toList ++ rest = '%' :: (line ++ '\n' :: rest) := by
          simp [text, hs]
        refine .intro htext fun i => ?_
        unfold scan
        rw [if_neg (by decide), if_pos rfl]
        dsimp only [Except.map, Scanner.pass]
        rw [splitLine_newline hline, ← List.cons_append, ← hs, String.ofList_toList]
      · have htext : (blank s).text.toList ++ [] = '%' :: line := by simp [text, hs]
        refine .intro htext fun i => ?_
        unfold scan
        rw [if_neg (by decide), if_pos rfl]
        dsimp only [Except.map, Scanner.pass]
        rw [splitLine_last hline, ← hs, String.ofList_toList]
  | word k =>
    have hk : ofLetters (word k).text = word k := by rw [text, ofLetters, ofText?_text]
    exact scanned_letters (t := word k) (isWord_text k) hk h
  | name x =>
    have hx : ofLetters (name x).text = name x := by rw [text, ofLetters, h.1.2]
    exact scanned_letters (t := name x) h.1.1 hx h.2
  | number d =>
    obtain ⟨hne, hdigits, hrest⟩ := h
    cases hd : d.toList with
    | nil => exact (hne hd).elim
    | cons c cs =>
      rw [hd, List.forall_mem_cons] at hdigits
      obtain ⟨hblank, hline, halpha⟩ := not_blank_of_isDigit hdigits.1
      obtain ⟨htake, hdrop⟩ := takeWhile_run hdigits.2 hrest
      have htext : (number d).text.toList ++ rest = c :: (cs ++ rest) := by
        rw [text, hd, List.cons_append]
      refine .intro htext fun i => ?_
      unfold scan
      rw [hblank, if_neg Bool.false_ne_true, if_neg hline, halpha, if_neg Bool.false_ne_true,
        if_pos hdigits.1]
      dsimp only [Except.map, Scanner.passWhile, Scanner.pass]
      rw [htake, hdrop, ← hd, String.ofList_toList]
  | symbol s =>
    cases s with
    | colon =>
      have htext : (symbol .colon).text.toList ++ rest = ':' :: rest := rfl
      refine .intro htext fun i => ?_
      cases rest with
      | nil => rfl
      | cons c rest =>
        have hc : c ≠ ':' := beq_eq_false_iff_ne.1 h
        simp [scan, isBlankChar, hc, Except.map]
    | _ => exact .intro rfl fun i => rfl

/-! ### Whole texts -/

/-- The characters of tokens written one after the other. -/
def chars (ts : List Token) : List Char := ts.flatMap (·.text.toList)

@[simp] theorem chars_nil : chars [] = [] := rfl

@[simp] theorem chars_cons (t : Token) (ts : List Token) :
    chars (t :: ts) = t.text.toList ++ chars ts := List.flatMap_cons

/-- The byte spans of tokens of which the first lies at `start`. -/
def spansFrom (start : Nat) : List Token → List Span
  | [] => []
  | t :: ts => ⟨start, start + t.size⟩ :: spansFrom (start + t.size) ts

/-- The byte spans of the tokens of a whole text. -/
def spans (ts : List Token) : List Span := spansFrom 0 ts

/-- Each token is cut off the text of those after it. -/
def Parted : List Token → Prop
  | [] => True
  | t :: ts => t.Cut (chars ts) ∧ Parted ts

/-- **The cut of a text is the cut of its first token and the cut of the rest.** -/
theorem lexFrom_cons_eq_ok {i : Nat} {c : Char} {cs : List Char} {L : Lexed} :
    lexFrom ⟨i, c :: cs⟩ = .ok L ↔
      ∃ t s' L', scan i c ⟨i + c.utf8Size, cs⟩ = .ok (t, s') ∧ lexFrom s' = .ok L' ∧
        L = ⟨t :: L'.tokens, ⟨i, s'.position⟩ :: L'.ranges⟩ := by
  rw [lexFrom]
  split
  · next h => simp [h]
  · next t s' h =>
    cases hrest : lexFrom s' with
    | error e =>
      constructor
      · intro h'
        cases h'
      · rintro ⟨_, _, L', hscan, hlex, _⟩
        cases h.symm.trans hscan
        cases hrest.symm.trans hlex
    | ok L₁ =>
      constructor
      · intro h'
        cases h'
        exact ⟨t, s', L₁, h, hrest, rfl⟩
      · rintro ⟨_, _, L', hscan, hlex, rfl⟩
        cases h.symm.trans hscan
        cases hrest.symm.trans hlex
        rfl

/-- **A text is cut into tokens iff it is their concatenation, and each is cut off the rest.**  The
ranges that the scanner recorded are the spans of the tokens. -/
theorem lexFrom_eq_ok {i : Nat} {cs : List Char} {L : Lexed} :
    lexFrom ⟨i, cs⟩ = .ok L ↔
      cs = chars L.tokens ∧ Parted L.tokens ∧ L.ranges = spansFrom i L.tokens := by
  obtain ⟨ts, ranges⟩ := L
  constructor
  · intro h
    induction ts generalizing i cs ranges with
    | nil =>
      cases cs with
      | nil =>
        rw [lexFrom] at h
        cases h
        exact ⟨rfl, trivial, rfl⟩
      | cons c cs =>
        obtain ⟨t, s', L', _, _, h⟩ := lexFrom_cons_eq_ok.1 h
        cases h
    | cons t ts ih =>
      cases cs with
      | nil =>
        rw [lexFrom] at h
        cases h
      | cons c cs =>
        obtain ⟨_, s', _, hscan, hlex, h⟩ := lexFrom_cons_eq_ok.1 h
        cases h
        obtain ⟨hcs, hcut⟩ := scan_sound hscan
        have hs' := scan_eq_ok hscan
        rw [hs'] at hlex
        obtain ⟨hrest, hts, hranges⟩ := ih _ hlex
        dsimp only at hrest hts hranges ⊢
        rw [hrest] at hcs hcut
        refine ⟨hcs, ⟨hcut, hts⟩, ?_⟩
        rw [spansFrom, hranges, hs']
  · rintro ⟨rfl, h, hranges⟩
    dsimp only at h hranges ⊢
    subst hranges
    induction ts generalizing i with
    | nil => rw [chars_nil, lexFrom, spansFrom]
    | cons t ts ih =>
      obtain ⟨c, cs, hcs, hscan⟩ := scan_complete h.1
      rw [chars_cons, hcs]
      exact lexFrom_cons_eq_ok.2 ⟨t, _, _, hscan i, ih h.2, rfl⟩

theorem lexed_eq_ok {s : String} {L : Lexed} :
    lexed s = .ok L ↔ s.toList = chars L.tokens ∧ Parted L.tokens ∧ L.ranges = spans L.tokens :=
  lexFrom_eq_ok

theorem lex_eq_ok_iff_lexed {s : String} {ts : List Token} :
    lex s = .ok ts ↔ ∃ ranges, lexed s = .ok ⟨ts, ranges⟩ := by
  rw [lex]
  cases lexed s with
  | error e => exact ⟨nofun, nofun⟩
  | ok L =>
    constructor
    · rintro ⟨⟩
      exact ⟨L.ranges, rfl⟩
    · rintro ⟨ranges, ⟨⟩⟩
      rfl

theorem lex_eq_ok_iff_chars {s : String} {ts : List Token} :
    lex s = .ok ts ↔ s.toList = chars ts ∧ Parted ts := by
  rw [lex_eq_ok_iff_lexed]
  simp [lexed_eq_ok]

/-! ### The seam of two texts -/

theorem Stops.append_newline {p : Char → Bool} (hp : p '\n' = false) {rest : List Char}
    (h : Stops p rest) (cs : List Char) : Stops p (rest ++ '\n' :: cs) := by
  cases rest with
  | nil => exact hp
  | cons c rest => exact h

/-- A newline behind the rest leaves a token as it is, unless the token is a run of blanks or a
comment at the end. -/
theorem Cut.append_newline {t : Token} {rest : List Char} (h : t.Cut rest) (cs : List Char) :
    t.Cut (rest ++ '\n' :: cs) ∨ rest = [] ∧ ∃ s, t = .blank s ∧
      ((∀ c ∈ s.toList, isBlankChar c = true) ∨
        ∃ line, (∀ c ∈ line, c ≠ '\n') ∧ s.toList = '%' :: line) := by
  cases t with
  | blank s =>
    obtain ⟨hne, hs, hrest⟩ | ⟨line, hline, hs | ⟨hs, rfl⟩⟩ := h
    · cases rest with
      | nil => exact .inr ⟨rfl, s, rfl, .inl hs⟩
      | cons c rest => exact .inl (.inl ⟨hne, hs, hrest⟩)
    · exact .inl (.inr ⟨line, hline, .inl hs⟩)
    · exact .inr ⟨rfl, s, rfl, .inr ⟨line, hline, hs⟩⟩
  | word k => exact .inl (Stops.append_newline (by decide) h cs)
  | name x => exact .inl ⟨h.1, h.2.append_newline (by decide) cs⟩
  | number d => exact .inl ⟨h.1, h.2.1, h.2.2.append_newline (by decide) cs⟩
  | symbol s =>
    cases s with
    | colon => exact .inl (Stops.append_newline (by decide) h cs)
    | _ => exact .inl trivial

/-- A token that begins with a blank is a run of blanks. -/
theorem Cut.eq_blank {t : Token} {rest cs : List Char} {c : Char} (h : t.Cut rest)
    (hcs : t.text.toList ++ rest = c :: cs) (hc : isBlankChar c = true) :
    ∃ s, t = .blank s ∧ (∀ c ∈ s.toList, isBlankChar c = true) ∧ Stops isBlankChar rest := by
  obtain ⟨c', cs', hcs', hscan⟩ := scan_complete h
  cases hcs.symm.trans hcs'
  have hscan := congrArg (Except.map fun x => (x.1, x.2.rest)) (hscan 0)
  unfold scan at hscan
  rw [if_pos hc] at hscan
  cases hscan
  refine ⟨_, rfl, ?_, stops_dropWhile _ cs⟩
  rw [String.toList_ofList, List.forall_mem_cons]
  exact ⟨hc, fun _ => mem_takeWhile⟩

@[simp] theorem visible_blank (s : String) (ts : List Token) :
    visible (.blank s :: ts) = visible ts := by
  simp [visible, kind]

/-- Blanks before a text add no token that is not blank. -/
theorem exists_blanks_append {bs : List Char} (hne : bs ≠ [])
    (hbs : ∀ c ∈ bs, isBlankChar c = true) {ts : List Token} (hts : Parted ts) :
    ∃ ws, Parted ws ∧ chars ws = bs ++ chars ts ∧ visible ws = visible ts := by
  -- If the text begins with blanks itself, then its first token grows.
  have hnew (hstops : Stops isBlankChar (chars ts)) :
      ∃ ws, Parted ws ∧ chars ws = bs ++ chars ts ∧ visible ws = visible ts := by
    refine ⟨.blank (String.ofList bs) :: ts, ⟨.inl ?_, hts⟩, ?_, visible_blank _ _⟩
    · rw [String.toList_ofList]
      exact ⟨hne, hbs, hstops⟩
    · rw [chars_cons, text, String.toList_ofList]
  cases ts with
  | nil => exact hnew trivial
  | cons t ts =>
    cases htext : t.text.toList ++ chars ts with
    | nil => exact hnew (by rw [chars_cons, htext]; trivial)
    | cons c cs =>
      cases hc : isBlankChar c with
      | false => exact hnew (by rw [chars_cons, htext]; exact hc)
      | true =>
        obtain ⟨s, rfl, hs, hstops⟩ := hts.1.eq_blank htext hc
        refine ⟨.blank (String.ofList (bs ++ s.toList)) :: ts, ⟨.inl ?_, hts.2⟩, ?_, by simp⟩
        · rw [String.toList_ofList]
          exact ⟨by simp [hne], List.forall_mem_append.2 ⟨hbs, hs⟩, hstops⟩
        · rw [chars_cons, text, String.toList_ofList, chars_cons, text, List.append_assoc]

/-- **Two texts joined by a newline are cut into the tokens of both**, apart from blanks. -/
theorem exists_seam {ts us : List Token} (hts : Parted ts) (hus : Parted us) :
    ∃ ws, Parted ws ∧ chars ws = chars ts ++ '\n' :: chars us ∧
      visible ws = visible ts ++ visible us := by
  induction ts with
  | nil =>
    have hnewline : ∀ c ∈ ['\n'], isBlankChar c = true := List.forall_mem_singleton.2 (by decide)
    exact exists_blanks_append (List.cons_ne_nil _ _) hnewline hus
  | cons t ts ih =>
    obtain ⟨hcut, hts⟩ := hts
    obtain hcut | ⟨hnil, s, rfl, hs⟩ := hcut.append_newline (chars us)
    · obtain ⟨ws, hws, hchars, hvisible⟩ := ih hts
      refine ⟨t :: ws, ⟨hchars ▸ hcut, hws⟩, ?_, ?_⟩
      · rw [chars_cons, hchars, chars_cons, List.append_assoc]
      · rw [visible, List.filter_cons, ← visible, hvisible, visible, visible, visible,
          List.filter_cons]
        split <;> rfl
    · have htokens : ts = [] := by
        cases ts with
        | nil => rfl
        | cons u ts =>
          obtain ⟨c, cs, hcs, _⟩ := scan_complete hts.1
          rw [chars_cons, hcs] at hnil
          cases hnil
      subst htokens
      rw [chars_cons, text, chars_nil, List.append_nil, visible_blank]
      obtain hs | ⟨line, hline, hs⟩ := hs
      · obtain ⟨ws, hws, hchars, hvisible⟩ := @exists_blanks_append (s.toList ++ ['\n'])
          (by simp) (List.forall_mem_append.2 ⟨hs, List.forall_mem_singleton.2 (by decide)⟩) us hus
        exact ⟨ws, hws, by simpa using hchars, hvisible⟩
      · refine ⟨.blank (String.ofList (s.toList ++ ['\n'])) :: us,
          ⟨.inr ⟨line, hline, .inl ?_⟩, hus⟩, ?_, visible_blank _ _⟩
        · rw [String.toList_ofList, hs]
        · rw [chars_cons, text, String.toList_ofList, List.append_assoc]
          rfl

end Token
end Constructions
