/-
# Where a diagnostic points

A diagnostic at the byte `b` of a source cuts it into four parts:

| part | what it is |
| --- | --- |
| above | the lines before the one that holds the byte |
| left | that line, up to the byte |
| right | that line, from the byte on |
| below | the lines after it |

The number of the line, the column and the line itself are read off these parts, and the carets
end where the line ends.  A byte behind the end of the source is shown at its end.

The search for the line passes one line after the other.  What it keeps is that the lines passed and
the bytes left to pass make up the start of the span (`placeAmong_lines`), so no number is taken
from a smaller one, and the column lies between two characters if the start does.  Each place that
an error of a source can have lies between two characters (`Span.isValid_bytes`).
-/

import Mathlib
import Constructions.Proofs.Session.Messages
import Constructions.Proofs.Token.Tiling

namespace Constructions

namespace Text

variable {cs : List Char}

/-! ### Bytes -/

theorem byteLength_newline (r cs : List Char) :
    byteLength (r ++ '\n' :: cs) = byteLength (r ++ ['\n']) + byteLength cs := by
  rw [← byteLength_append, List.append_assoc, List.singleton_append]

theorem byteLength_pos (h : cs ≠ []) : 0 < byteLength cs := by
  cases cs with
  | nil => exact absurd rfl h
  | cons c cs => exact Nat.lt_of_lt_of_le c.utf8Size_pos (Nat.le_add_right _ _)

/-- Trimming cuts bytes off. -/
theorem byteLength_trimEnd_le (cs : List Char) : byteLength (trimEnd cs) ≤ byteLength cs := by
  have h : trimEnd cs ++ (cs.reverse.takeWhile isBlank).reverse = cs := by
    rw [trimEnd, ← List.reverse_append, List.takeWhile_append_dropWhile, List.reverse_reverse]
  have hle := Nat.le_add_right (byteLength (trimEnd cs))
    (byteLength (cs.reverse.takeWhile isBlank).reverse)
  rwa [← byteLength_append, h] at hle

/-! ### Lines -/

/-- The line of the byte `b` of a text, and what stands above and below it. -/
structure LineAt (b : Nat) (cs above left right below : List Char) : Prop where
  text : cs = above ++ left ++ right ++ below
  byte : byteLength (above ++ left) = b
  /-- The line begins the text or comes right after a newline, -/
  begins : above = [] ∨ above.getLast? = some '\n'
  /-- there is no newline between there and the byte, -/
  inside : '\n' ∉ left
  /-- and it goes on through the next newline, or to the end of the text. -/
  ends : '\n' ∉ right ∧ below = [] ∨ ∃ line, right = line ++ ['\n'] ∧ '\n' ∉ line

/-- Induction on the lines of a text. -/
@[elab_as_elim]
theorem lineInduction {motive : List Char → Prop} (last : ∀ cs, '\n' ∉ cs → motive cs)
    (line : ∀ r cs, '\n' ∉ r → motive cs → motive (r ++ '\n' :: cs)) (cs : List Char) :
    motive cs := by
  induction hn : cs.length using Nat.strongRecOn generalizing cs with
  | ind n ih =>
    by_cases h : '\n' ∈ cs
    · obtain ⟨r, ds, rfl, hr⟩ := List.eq_append_cons_of_mem h
      have hlt : ds.length < n := by
        rw [← hn, List.length_append, List.length_cons]
        omega
      exact line r ds hr (ih _ hlt ds rfl)
    · exact last cs h

theorem lines_of_not_mem (h : '\n' ∉ cs) (hcs : cs ≠ []) : lines cs = [cs] := by
  induction cs with
  | nil => exact absurd rfl hcs
  | cons c cs ih =>
    rw [lines, if_neg (List.ne_of_not_mem_cons h).symm]
    cases cs with
    | nil => rfl
    | cons d ds => rw [ih (List.not_mem_of_not_mem_cons h) (List.cons_ne_nil d ds)]

theorem lines_append_newline {r : List Char} (h : '\n' ∉ r) (cs : List Char) :
    lines (r ++ '\n' :: cs) = (r ++ ['\n']) :: lines cs := by
  induction r with
  | nil => exact if_pos rfl
  | cons c r ih =>
    rw [List.cons_append, lines, if_neg (List.ne_of_not_mem_cons h).symm,
      ih (List.not_mem_of_not_mem_cons h)]
    rfl

/-- **The first line of what is left of a text** also ends the line that was begun before it. -/
theorem exists_line {v : List Char} (hv : v ≠ []) :
    ∃ right below, v = right ++ below ∧ right ≠ [] ∧
      ('\n' ∉ right ∧ below = [] ∨ ∃ line, right = line ++ ['\n'] ∧ '\n' ∉ line) ∧
      ∀ left, '\n' ∉ left → lines (left ++ v) = (left ++ right) :: lines below := by
  by_cases h : '\n' ∈ v
  · obtain ⟨line, below, rfl, hline⟩ := List.eq_append_cons_of_mem h
    refine ⟨line ++ ['\n'], below, ?_, by simp, .inr ⟨line, rfl, hline⟩, fun left hleft => ?_⟩
    · rw [List.append_assoc, List.singleton_append]
    · have hnot : '\n' ∉ left ++ line := List.not_mem_append hleft hline
      rw [← List.append_assoc, lines_append_newline hnot, List.append_assoc]
  · refine ⟨v, [], (List.append_nil v).symm, hv, .inl ⟨h, rfl⟩, fun left hleft => ?_⟩
    exact lines_of_not_mem (List.not_mem_append hleft h) (List.append_ne_nil_of_right_ne_nil left hv)

/-- **The last line is the line of the end of the text.** -/
theorem exists_lineAt_end (cs : List Char) :
    ∃ above, LineAt (byteLength cs) cs above (lastLine cs) [] [] := by
  have htext : cs = (cs.reverse.dropWhile (· != '\n')).reverse ++ lastLine cs := by
    rw [lastLine, ← List.reverse_append, List.takeWhile_append_dropWhile, List.reverse_reverse]
  refine ⟨_, ?_, congrArg byteLength htext.symm, ?_, fun h => ?_, .inl ⟨List.not_mem_nil, rfl⟩⟩
  · rw [List.append_nil, List.append_nil]
    exact htext
  · rw [List.getLast?_reverse]
    have hhead := List.head?_dropWhile_not (· != '\n') cs.reverse
    cases hdrop : cs.reverse.dropWhile (· != '\n') with
    | nil => exact .inl rfl
    | cons c ds =>
      rw [hdrop] at hhead
      exact .inr (congrArg some (by simpa using hhead))
  · have hnewline := Token.mem_takeWhile (List.mem_reverse.1 h)
    simp at hnewline

end Text

namespace Diagnostic

open Text

/-! ### The place of a span -/

/-- A place that is right for a span of a text, which is cut at the start of the span. -/
structure Place.Locates (p : Place) (span : Span) (cs above left right below : List Char) :
    Prop where
  lineAt : LineAt (min span.start (byteLength cs)) cs above left right below
  /-- The number counts the newlines before the byte. -/
  number : p.number = (above ++ left).count '\n' + 1
  line : p.line = left ++ right
  /-- The column counts the bytes from the start of the line on. -/
  column : p.column = byteLength left
  marked_pos : 1 ≤ p.marked
  /-- The marks go to the end of the span or of the line, but one is always there. -/
  marked : span.start + p.marked =
    max (span.start + 1) (min span.stop (byteLength (above ++ trimEnd (left ++ right))))

variable {span : Span}

/-- A line that ends before the span is passed. -/
theorem placeAmong_of_passed (number left : Nat) (line : List Char) (lines : List (List Char)) :
    placeAmong span number (byteLength line + left) (line :: lines)
      = placeAmong span (number + 1) left lines := by
  rw [placeAmong, if_pos (Nat.le_add_right _ _), numberLeft_add]
  rfl

/-- The search ends at the line that holds the start of the span. -/
theorem placeAmong_of_held {above left right : List Char} (hright : right ≠ [])
    (hstart : byteLength (above ++ left) = span.start) (number : Nat) (lines : List (List Char)) :
    ∃ n, 1 ≤ n ∧ span.start + n =
        max (span.start + 1) (min span.stop (byteLength (above ++ trimEnd (left ++ right)))) ∧
      placeAmong span number (byteLength left) ((left ++ right) :: lines)
        = .ok (some ⟨number, left ++ right, byteLength left, n⟩) := by
  obtain ⟨n, hn⟩ := Nat.exists_eq_add_of_le (Nat.le_trans (Nat.le_succ span.start)
    (Nat.le_max_left _ (min span.stop (byteLength (above ++ trimEnd (left ++ right))))))
  have hlong : ¬ byteLength (left ++ right) ≤ byteLength left := by
    have := byteLength_pos hright
    rw [byteLength_append]
    omega
  have habove : numberLeft span.start (byteLength left) = .ok (byteLength above) := by
    rw [← hstart, byteLength_append, Nat.add_comm, numberLeft_add]
  refine ⟨n, by omega, hn.symm, ?_⟩
  rw [placeAmong, if_neg hlong, habove]
  simp only [bind, Except.bind]
  rw [← byteLength_append, Nat.max_comm, hn, numberLeft_add]

/-- **The search finds the line of a byte inside the text.**  The lines of `above` are passed, and
the bytes of `w` are still to be passed. -/
theorem placeAmong_lines {v : List Char} (hv : v ≠ []) (w above : List Char)
    (habove : above = [] ∨ above.getLast? = some '\n')
    (hstart : byteLength (above ++ w) = span.start) :
    ∃ p above' left right below,
      placeAmong span (above.count '\n' + 1) (byteLength w) (lines (w ++ v)) = .ok (some p) ∧
        p.Locates span (above ++ w ++ v) above' left right below := by
  induction w using lineInduction generalizing above with
  | last w hw =>
    obtain ⟨right, below, rfl, hright, hends, hlines⟩ := exists_line hv
    obtain ⟨n, hpos, hn, hplace⟩ :=
      placeAmong_of_held hright hstart (above.count '\n' + 1) (lines below)
    refine ⟨_, above, w, right, below, (hlines w hw).symm ▸ hplace, ?_, ?_, rfl, rfl, hpos, hn⟩
    · refine ⟨(List.append_assoc _ _ _).symm, ?_, habove, hw, hends⟩
      rw [byteLength_append (above ++ w), hstart]
      omega
    · rw [List.count_append, List.count_eq_zero_of_not_mem hw, Nat.add_zero]
  | line r w hr ih =>
    have hassoc : above ++ (r ++ '\n' :: w) = above ++ (r ++ ['\n']) ++ w := by simp
    obtain ⟨p, above', left, right, below, hplace, hp⟩ := ih (above ++ (r ++ ['\n']))
      (.inr (by simp)) (hassoc ▸ hstart)
    refine ⟨p, above', left, right, below, ?_, hassoc ▸ hp⟩
    have hcount : (above ++ (r ++ ['\n'])).count '\n' = above.count '\n' + 1 := by
      rw [List.count_append, List.count_append, List.count_eq_zero_of_not_mem hr]
      rfl
    rw [byteLength_newline, List.append_assoc, List.cons_append, lines_append_newline hr,
      placeAmong_of_passed, ← hcount]
    exact hplace

/-- **The search passes every line of a text that is not long enough.** -/
theorem placeAmong_lines_of_le (cs : List Char) (number left : Nat) (h : byteLength cs ≤ left) :
    placeAmong span number left (lines cs) = .ok none := by
  induction cs using lineInduction generalizing number left with
  | last cs hcs =>
    by_cases hne : cs = []
    · subst hne
      rfl
    · obtain ⟨k, rfl⟩ := Nat.exists_eq_add_of_le h
      rw [lines_of_not_mem hcs hne, placeAmong_of_passed]
      rfl
  | line r cs hr ih =>
    obtain ⟨k, rfl⟩ := Nat.exists_eq_add_of_le h
    rw [byteLength_newline, Nat.add_assoc, lines_append_newline hr, placeAmong_of_passed]
    exact ih _ _ (Nat.le_add_right _ _)

/-- The place behind the end of a text is the end of its last line. -/
theorem placeAtEnd_locates {cs : List Char} (h : byteLength cs ≤ span.start) :
    ∃ above, (placeAtEnd cs).Locates span cs above (lastLine cs) [] [] := by
  obtain ⟨above, hline⟩ := exists_lineAt_end cs
  refine ⟨above, ?_, ?_, (List.append_nil _).symm, rfl, Nat.le_refl 1, ?_⟩
  · rwa [Nat.min_eq_right h]
  · have htext := hline.text
    rw [List.append_nil, List.append_nil] at htext
    rw [← htext]
    rfl
  · have hbyte := hline.byte
    have htrim := byteLength_trimEnd_le (lastLine cs)
    rw [byteLength_append] at hbyte
    rw [List.append_nil, byteLength_append]
    change span.start + 1 = _
    omega

/-- A place where a diagnostic can point: between two characters of the source, or behind it. -/
def Pointable (source : String) (b : Nat) : Prop :=
  String.Pos.Raw.IsValid source ⟨b⟩ ∨ source.utf8ByteSize ≤ b

/-- **Every span that begins where a diagnostic can point has its place.** -/
theorem exists_place {source : String} (h : Pointable source span.start) :
    ∃ p above left right below, place source.toList span = .ok p ∧
      p.Locates span source.toList above left right below := by
  by_cases hend : byteLength source.toList ≤ span.start
  · obtain ⟨above, hp⟩ := placeAtEnd_locates hend
    refine ⟨_, above, _, _, _, ?_, hp⟩
    rw [place, placeAmong_lines_of_le _ _ _ hend]
    rfl
  · rw [byteLength_toList] at hend
    obtain ⟨u, v, rfl, hu⟩ := String.Pos.Raw.isValid_iff_exists_append.1 (h.resolve_right hend)
    have hstart : byteLength ([] ++ u.toList) = span.start := by
      rw [List.nil_append, byteLength_toList]
      exact congrArg String.Pos.Raw.byteIdx hu.symm
    have hv : v.toList ≠ [] := by
      intro hv
      rw [List.nil_append, byteLength_toList] at hstart
      rw [String.utf8ByteSize_append, ← byteLength_toList v, hv, byteLength_nil] at hend
      omega
    obtain ⟨p, above, left, right, below, hplace, hp⟩ :=
      placeAmong_lines hv u.toList [] (.inl rfl) hstart
    rw [List.nil_append] at hstart hp
    rw [String.toList_append]
    refine ⟨p, above, left, right, below, ?_, hp⟩
    rw [place, ← hstart]
    change (placeAmong span ([].count '\n' + 1) _ _ >>= _) = _
    rw [hplace]
    rfl

/-- The text of a diagnostic that points to the right place. -/
def Shown (width : List Char → Nat) (source : String) (span : Span) (message text : String) :
    Prop :=
  ∃ (p : Place) (above left right below : List Char),
    p.Locates span source.toList above left right below ∧
      text = "[" ++ toString p.number ++ ":" ++ toString p.column ++ "] error: " ++ message ++ "\n"
        ++ repeated (toString p.number).length ' ' ++ " |\n"
        ++ toString p.number ++ " | " ++ String.ofList (trimEnd (expandTabs p.line)) ++ "\n"
        ++ repeated (toString p.number).length ' ' ++ " | "
        ++ repeated (width (expandTabs left)) ' ' ++ repeated p.marked '^' ++ "\n"

/-- **A diagnostic is shown wherever one can point.** -/
theorem render_shown (width : List Char → Nat) {source : String}
    (h : Pointable source span.start) (message : String) :
    ∃ text, render width source span message = .ok text ∧
      Shown width source span message text := by
  obtain ⟨p, above, left, right, below, hplace, hp⟩ := exists_place h
  refine ⟨_, ?_, p, above, left, right, below, hp, rfl⟩
  unfold render
  rw [hplace]
  simp only [bind, Except.bind]
  rw [hp.column, hp.line, takeBytes_append]
  rfl

example : render List.length "\té b \nx" ⟨1, 9⟩ "m"
    = .ok "[1:1] error: m\n  |\n1 |    é b\n  |    ^^^^\n" := by cbv

end Diagnostic

/-! ### The places of errors -/

section

variable {source : String} {L : Lexed}

/-- A token begins between two characters. -/
theorem Token.isValid_start (h : lexed source = .ok L) {i : Nat} {r : Span}
    (hr : L.ranges[i]? = some r) : String.Pos.Raw.IsValid source ⟨r.start⟩ :=
  ((tiled_of_lexed h).bounds r (List.mem_of_getElem? hr)).1

/-- **The bytes of a span of tokens begin between two characters,** also if there is no such
token. -/
theorem Span.isValid_bytes (h : Token.lexed source = .ok L) (span : Span) :
    String.Pos.Raw.IsValid source ⟨(span.bytes source L.ranges).start⟩ := by
  have hstart : (span.bytes source L.ranges).start
      = (L.ranges[span.start]?.map (·.start)).getD source.utf8ByteSize := by
    dsimp only [bytes]
    generalize (if span.stop = 0 then none else L.ranges[span.stop - 1]?) = last
    cases last with
    | some s =>
      dsimp only
      split <;> rfl
    | none => rfl
  rw [hstart]
  cases hr : L.ranges[span.start]? with
  | some r => exact Token.isValid_start h hr
  | none => exact String.Pos.Raw.isValid_rawEndPos

/-- The place of a parse error is between two characters. -/
theorem ParseError.isValid_span (h : Token.lexed source = .ok L) (e : ParseError) :
    String.Pos.Raw.IsValid source
      ⟨((L.ranges[e.location]?).getD (.at source.utf8ByteSize)).start⟩ := by
  cases hr : L.ranges[e.location]? with
  | some r => exact Token.isValid_start h hr
  | none => exact String.Pos.Raw.isValid_rawEndPos

end

open Diagnostic

/-- The errors of a source are shown where they are: -/
structure Diagnosed (width : List Char → Nat) (source : String) : Prop where
  /-- every message, for every span that begins between two characters or behind the source; -/
  span : ∀ (span : Span) (message : String), Pointable source span.start →
    ∃ text, render width source span message = .ok text ∧ Shown width source span message text
  /-- the error of a source that is not cut into tokens, which is reported if the positions in the
  source can be counted; -/
  lexical : ∀ e, Token.lexed source = .error e →
    ∃ text, render width source (.at e.position) (e.message source) = .ok text ∧
      Shown width source (.at e.position) (e.message source) text ∧
      (source.utf8ByteSize + 1 < UInt64.size → ∀ n, runSource width n source = .ok (.failure text))
  /-- the error of a source that is not read as a program; -/
  grammatical : ∀ ts ranges e, Token.lexed source = .ok ⟨ts, ranges⟩ →
    (Program.parse ts).result = .error e →
    ∃ text,
      Shown width source ((ranges[e.location]?).getD (.at source.utf8ByteSize)) e.message text ∧
      ∀ n, runSource width n source = .ok (.failure text)
  /-- and the error of a program that fails, behind what was shown before it.  Both have a text. -/
  elaboration : ∀ ts ranges program n σ e, Token.lexed source = .ok ⟨ts, ranges⟩ →
    (Program.parse ts).result = .ok program → Session.run n {} program = (σ, some (.error e)) →
    Pointable source (e.span.bytes source ranges).start ∧ ∃ message output text,
      e.cause.text σ.signature (numbered (Program.parse ts).names) = .ok message ∧
      σ.outcomes.mapM (·.text σ.signature) = .ok output ∧
      Shown width source (e.span.bytes source ranges) message text ∧
      runSource width n source = .ok ⟨1, String.join output, text⟩

/-- **Every error of every source is shown, and shown at its place.** -/
theorem diagnosed (width : List Char → Nat) (source : String) : Diagnosed width source where
  span span message h := render_shown width h message
  lexical e h := by
    have hvalid := (Token.blocked_of_lexed h).isValid
    have hpoint : Pointable source (Span.at e.position).start := .inl hvalid
    obtain ⟨text, hrender, hshown⟩ := render_shown width hpoint (e.message source)
    refine ⟨text, hrender, hshown, fun hsize n => ?_⟩
    have hle : e.position ≤ source.utf8ByteSize := hvalid.le_rawEndPos
    have hreport : e.report width source = .ok text := by
      rw [LexError.report, nextNumber_of_lt (by omega)]
      exact hrender
    rw [runSource, h]
    dsimp only
    rw [hreport]
    rfl
  grammatical ts ranges e hlex hparse := by
    obtain ⟨text, hrender, hshown⟩ := render_shown width (.inl (e.isValid_span hlex)) e.message
    refine ⟨text, hshown, fun n => ?_⟩
    have hreport : e.report width source ranges = .ok text := hrender
    rw [runSource, hlex]
    dsimp only
    rw [hparse]
    dsimp only
    rw [hreport]
    rfl
  elaboration ts ranges program n σ e hlex hparse hrun := by
    have hpoint : Pointable source (e.span.bytes source ranges).start :=
      .inl (e.span.isValid_bytes hlex)
    obtain ⟨⟨output, houtput⟩, hmessage⟩ :=
      Session.run_texts hrun (numbered (Program.parse ts).names)
    obtain ⟨message, hmessage⟩ := hmessage e rfl
    obtain ⟨text, hrender, hshown⟩ := render_shown width hpoint message
    refine ⟨hpoint, message, output, text, hmessage, houtput, hshown, ?_⟩
    have hreport : e.report width source ranges σ.signature (numbered (Program.parse ts).names)
        = .ok text := by
      rw [ElaborationError.report, hmessage]
      exact hrender
    rw [runSource, hlex]
    dsimp only
    rw [hparse]
    dsimp only [Program.report]
    rw [hrun]
    dsimp only
    rw [houtput]
    dsimp only [bind, Except.bind]
    rw [hreport]

/-- A character that begins no token, a program that ends too early, and a name that nothing
declares. -/
theorem diagnosed_each_kind :
    (∃ text, Shown List.length "eval é" ⟨5, 6⟩ "lex error: unrecognized lexeme prefix `é`" text ∧
      runSource List.length 9 "eval é" = .ok (.failure text)) ∧
    (∃ text, Shown List.length "axiom x\n" ⟨8, 9⟩
        (ParseError.message ⟨4, [.token (.symbol .colon), .token .blank]⟩) text ∧
      runSource List.length 9 "axiom x\n" = .ok (.failure text)) ∧
    (∃ text, Shown List.length "eval x" ⟨5, 6⟩ "elaboration error: `x` is not in scope" text ∧
      runSource List.length 9 "eval x" = .ok (.failure text)) := by
  refine ⟨?_, ?_, ?_⟩
  · have hlex : Token.lexed "eval é" = .error ⟨5, .unrecognized⟩ := by cbv
    obtain ⟨text, -, hshown, hrun⟩ := (diagnosed List.length "eval é").lexical _ hlex
    exact ⟨text, hshown, hrun (by decide) 9⟩
  · have hlex : Token.lexed "axiom x\n"
        = .ok ⟨[.word .postulate, .blank " ", .name "x", .blank "\n"],
            [⟨0, 5⟩, ⟨5, 6⟩, ⟨6, 7⟩, ⟨7, 8⟩]⟩ := by cbv
    have hparse : (Program.parse [.word .postulate, .blank " ", .name "x", .blank "\n"]).result
        = .error ⟨4, [.token (.symbol .colon), .token .blank]⟩ := by cbv
    obtain ⟨text, hshown, hrun⟩ :=
      (diagnosed List.length "axiom x\n").grammatical _ _ _ hlex hparse
    exact ⟨text, hshown, hrun 9⟩
  · have hlex : Token.lexed "eval x"
        = .ok ⟨[.word .evaluate, .blank " ", .name "x"], [⟨0, 4⟩, ⟨4, 5⟩, ⟨5, 6⟩]⟩ := by cbv
    have hparse : (Program.parse [.word .evaluate, .blank " ", .name "x"]).result
        = .ok [⟨⟨0, 3⟩, .evaluate (.var ⟨2, 3⟩ "x")⟩] := by cbv
    have hrun : Session.run 9 {} [⟨⟨0, 3⟩, .evaluate (.var ⟨2, 3⟩ "x")⟩]
        = ({}, some (.error ⟨⟨2, 3⟩, .notInScope "x"⟩)) := by cbv
    obtain ⟨-, message, output, text, hmessage, houtput, hshown, hreport⟩ :=
      (diagnosed List.length "eval x").elaboration _ _ _ _ _ _ hlex hparse hrun
    cases hmessage
    cases houtput
    exact ⟨text, hshown, hreport⟩

end Constructions
