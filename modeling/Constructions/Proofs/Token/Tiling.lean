/-
# How tokens tile a text

The tokens of a text lie one after the other without gaps, so the spans of a text that is cut are
the spans between characters at which a token ends and the next one begins.

A token looks at one character behind it at most (`Cut.congr`).  Two things follow:

| part of a text | what becomes of it |
| --- | --- |
| the text of some tokens in a row | it is cut into these tokens again |
| the text up to and with the character of a failure | no text that begins with it is cut |

After a dash at the end of a text there is no such character.  Then the text itself is not cut, and
only a text that goes on with `>` can be.
-/

import Constructions.Proofs.Token

namespace Constructions

/-- Spans that are not empty and follow each other without gaps, from `start` to `stop`. -/
def Span.Tile (start stop : Nat) : List Span → Prop
  | [] => start = stop
  | r :: rs => r.start = start ∧ r.start < r.stop ∧ Tile r.stop stop rs

/-- A span moved on by `n` positions. -/
def Span.shift (n : Nat) (r : Span) : Span := ⟨n + r.start, n + r.stop⟩

namespace Token

/-! ### One character behind a token -/

variable {rest rest' : List Char} {t : Token} {ts us : List Token}

theorem Stops.congr {p : Char → Bool} (h : Stops p rest)
    (hrest : ∀ c ∈ rest'.head?, c ∈ rest.head?) : Stops p rest' := by
  cases rest' with
  | nil => trivial
  | cons c cs =>
    obtain ⟨ds, rfl⟩ := List.head?_eq_some_iff.1 (hrest c rfl)
    exact h

/-- **A token looks at the next character only,** and it may also be the last one of its text. -/
theorem Cut.congr (h : t.Cut rest) (hrest : ∀ c ∈ rest'.head?, c ∈ rest.head?) : t.Cut rest' := by
  cases t with
  | blank s =>
    obtain ⟨hne, hs, hstops⟩ | ⟨line, hline, hs | ⟨hs, rfl⟩⟩ := h
    · exact .inl ⟨hne, hs, hstops.congr hrest⟩
    · exact .inr ⟨line, hline, .inl hs⟩
    · refine .inr ⟨line, hline, .inr ⟨hs, ?_⟩⟩
      cases rest' with
      | nil => rfl
      | cons c cs => exact absurd (hrest c rfl) (Option.not_mem_none c)
  | word k => exact Stops.congr h hrest
  | name x => exact ⟨h.1, h.2.congr hrest⟩
  | number d => exact ⟨h.1, h.2.1, h.2.2.congr hrest⟩
  | symbol s =>
    cases s with
    | colon => exact Stops.congr h hrest
    | _ => trivial

/-- Each token is cut off the text of those after it, followed by `rest`. -/
def Leads (rest : List Char) : List Token → Prop
  | [] => True
  | t :: ts => t.Cut (chars ts ++ rest) ∧ Leads rest ts

@[simp] theorem chars_append (ts us : List Token) : chars (ts ++ us) = chars ts ++ chars us :=
  List.flatMap_append

theorem leads_nil : Leads [] ts ↔ Parted ts := by
  induction ts with
  | nil => exact Iff.rfl
  | cons t ts ih => rw [Leads, Parted, List.append_nil, ih]

theorem leads_append : Leads rest (ts ++ us) ↔ Leads (chars us ++ rest) ts ∧ Leads rest us := by
  induction ts with
  | nil => exact (true_and _).symm.to_iff
  | cons t ts ih =>
    rw [List.cons_append, Leads, Leads, ih, chars_append, List.append_assoc, and_assoc]

theorem Leads.congr (h : Leads rest ts) (hrest : ∀ c ∈ rest'.head?, c ∈ rest.head?) :
    Leads rest' ts := by
  induction ts with
  | nil => trivial
  | cons t ts ih =>
    refine ⟨h.1.congr ?_, ih h.2⟩
    cases chars ts with
    | nil => exact hrest
    | cons c cs => exact fun _ => id

/-- **Some tokens in a row are parted when all are.** -/
theorem Parted.run {as bs ds : List Token} (h : Parted (as ++ bs ++ ds)) : Parted bs := by
  have hbs := (leads_append.1 (leads_append.1 (leads_nil.2 h)).1).2
  exact leads_nil.1 (hbs.congr fun _ hc => absurd hc (Option.not_mem_none _))

/-! ### Cutting from left to right -/

theorem toList_textAll (ts : List Token) : (textAll ts).toList = chars ts := by
  rw [textAll, String.toList_join, List.flatMap_map, chars]

theorem textAll_append (ts us : List Token) : textAll (ts ++ us) = textAll ts ++ textAll us := by
  rw [← String.toList_inj, String.toList_append, toList_textAll, toList_textAll, toList_textAll,
    chars_append]

theorem textAll_cons (t : Token) (ts : List Token) : textAll (t :: ts) = t.text ++ textAll ts := by
  rw [← String.toList_inj, String.toList_append, toList_textAll, toList_textAll, chars_cons]

theorem lex_eq_ok {s : String} : lex s = .ok ts ↔ s = textAll ts ∧ Parted ts := by
  rw [lex_eq_ok_iff_chars, ← toList_textAll, String.toList_inj]

theorem lexFrom_cons_of_error {i : Nat} {c : Char} {cs : List Char} {e : LexError}
    (h : scan i c ⟨i + c.utf8Size, cs⟩ = .error e) : lexFrom ⟨i, c :: cs⟩ = .error e := by
  rw [lexFrom]
  split
  · next hscan =>
    cases h.symm.trans hscan
    rfl
  · next hscan => cases h.symm.trans hscan

theorem lexFrom_cons_of_ok {i : Nat} {c : Char} {cs : List Char} {s' : Scanner} {e : LexError}
    (h : scan i c ⟨i + c.utf8Size, cs⟩ = .ok (t, s')) :
    lexFrom ⟨i, c :: cs⟩ = .error e ↔ lexFrom s' = .error e := by
  rw [lexFrom]
  split
  · next hscan => cases h.symm.trans hscan
  · next hscan =>
    cases h.symm.trans hscan
    cases lexFrom s' <;> simp

/-- **A text is cut up to where it fails:** behind tokens that lead it. -/
theorem lexFrom_leads (h : Leads rest ts) {i : Nat} {e : LexError}
    (he : lexFrom ⟨i + (textAll ts).utf8ByteSize, rest⟩ = .error e) :
    lexFrom ⟨i, chars ts ++ rest⟩ = .error e := by
  induction ts generalizing i with
  | nil => exact he
  | cons t ts ih =>
    obtain ⟨c, cs, hcs, hscan⟩ := scan_complete h.1
    rw [chars_cons, List.append_assoc, hcs, lexFrom_cons_of_ok (hscan i)]
    refine ih h.2 ?_
    rwa [textAll_cons, String.utf8ByteSize_append, ← Nat.add_assoc, ← size] at he

/-- **A failure lies behind the tokens that lead the text,** where none can be scanned. -/
theorem lexFrom_eq_error {i : Nat} {cs : List Char} {e : LexError}
    (h : lexFrom ⟨i, cs⟩ = .error e) :
    ∃ ts c rest, cs = chars ts ++ c :: rest ∧ Leads (c :: rest) ts ∧
      scan (i + (textAll ts).utf8ByteSize) c
        ⟨i + (textAll ts).utf8ByteSize + c.utf8Size, rest⟩ = .error e := by
  induction hn : cs.length using Nat.strongRecOn generalizing i cs with
  | ind n ih =>
    cases cs with
    | nil =>
      rw [lexFrom] at h
      cases h
    | cons c cs =>
      cases hscan : scan i c ⟨i + c.utf8Size, cs⟩ with
      | error e' =>
        rw [lexFrom_cons_of_error hscan] at h
        cases h
        exact ⟨[], c, cs, rfl, trivial, hscan⟩
      | ok x =>
        obtain ⟨t, s'⟩ := x
        rw [lexFrom_cons_of_ok hscan, scan_eq_ok hscan] at h
        have hlt : s'.rest.length < n := by
          have hle : s'.rest.length ≤ cs.length := scan_length_le hscan
          rw [← hn, List.length_cons]
          omega
        obtain ⟨ts, d, rest, hrest, hts, hfail⟩ := ih _ hlt h rfl
        obtain ⟨hcs, hcut⟩ := scan_sound hscan
        rw [hrest] at hcs hcut
        refine ⟨t :: ts, d, rest, ?_, ⟨hcut, hts⟩, ?_⟩
        · rw [chars_cons, List.append_assoc]
          exact hcs
        · rwa [textAll_cons, String.utf8ByteSize_append, ← size, ← Nat.add_assoc i]

/-- **A scan fails for the first characters,** whatever comes behind them. -/
theorem scan_eq_error {i : Nat} {c : Char} {s : Scanner} {e : LexError}
    (h : scan i c s = .error e) :
    (e = ⟨i, .unrecognized⟩ ∧ ∀ j s', scan j c s' = .error ⟨j, .unrecognized⟩) ∨
      c = '-' ∧ ((∃ d ds, d ≠ '>' ∧ s.rest = d :: ds ∧
          e = ⟨s.position, .unexpectedCharacter ['>']⟩) ∨
        s.rest = [] ∧ e = ⟨s.position, .unexpectedEnd ['>']⟩) := by
  unfold scan at h
  split at h
  · cases h
  split at h
  · cases h
  split at h
  · cases h
  split at h
  · cases h
  split at h
  case h_3 =>
    split at h
    · cases h
    · cases h
  case h_11 =>
    refine .inr ⟨rfl, ?_⟩
    split at h
    · cases h
    · next d ds hne hrest =>
      cases h
      exact .inl ⟨d, ds, hne, hrest, rfl⟩
    · next hrest =>
      cases h
      exact .inr ⟨hrest, rfl⟩
  case h_12 =>
    cases h
    refine .inl ⟨rfl, fun j s' => ?_⟩
    simp only [scan, *, Bool.false_eq_true, if_false]
  all_goals cases h

theorem scan_dash {d : Char} (hd : d ≠ '>') (i p : Nat) (ds : List Char) :
    scan i '-' ⟨p, d :: ds⟩ = .error ⟨p, .unexpectedCharacter ['>']⟩ := by
  simp [scan, isBlankChar]

/-! ### Spans -/

theorem length_spansFrom (i : Nat) (ts : List Token) : (spansFrom i ts).length = ts.length := by
  induction ts generalizing i with
  | nil => rfl
  | cons t ts ih => rw [spansFrom, List.length_cons, ih, List.length_cons]

theorem take_spansFrom (i : Nat) (ts : List Token) (j : Nat) :
    (spansFrom i ts).take j = spansFrom i (ts.take j) := by
  induction ts generalizing i j with
  | nil => rw [spansFrom, List.take_nil, List.take_nil, spansFrom]
  | cons t ts ih =>
    cases j with
    | zero => rfl
    | succ j => rw [spansFrom, List.take_succ_cons, ih, List.take_succ_cons, spansFrom]

theorem drop_spansFrom (i : Nat) (ts : List Token) (j : Nat) :
    (spansFrom i ts).drop j
      = spansFrom (i + (textAll (ts.take j)).utf8ByteSize) (ts.drop j) := by
  induction ts generalizing i j with
  | nil => rw [spansFrom, List.drop_nil, List.drop_nil, spansFrom]
  | cons t ts ih =>
    cases j with
    | zero => rfl
    | succ j =>
      rw [spansFrom, List.drop_succ_cons, ih, List.drop_succ_cons, List.take_succ_cons,
        textAll_cons, String.utf8ByteSize_append, ← size, Nat.add_assoc]

theorem spansFrom_add (i j : Nat) (ts : List Token) :
    spansFrom (i + j) ts = (spansFrom j ts).map (·.shift i) := by
  induction ts generalizing j with
  | nil => rfl
  | cons t ts ih => rw [spansFrom, spansFrom, List.map_cons, Nat.add_assoc, ih, Span.shift]

/-- A token that is cut off a text is not empty. -/
theorem Cut.size_pos (h : t.Cut rest) : 0 < t.size := by
  refine Nat.pos_of_ne_zero fun h0 => ?_
  obtain ⟨c, cs, hcs, hscan⟩ := scan_complete h
  have hlen : rest.length ≤ cs.length := scan_length_le (hscan 0)
  have htext : t.text = "" := String.utf8ByteSize_eq_zero_iff.1 h0
  rw [htext] at hcs
  have : rest = c :: cs := hcs
  rw [this, List.length_cons] at hlen
  omega

theorem Parted.tile (h : Parted ts) (i : Nat) :
    Span.Tile i (i + (textAll ts).utf8ByteSize) (spansFrom i ts) := by
  induction ts generalizing i with
  | nil => rfl
  | cons t ts ih =>
    have hpos := h.1.size_pos
    refine ⟨rfl, Nat.lt_add_of_pos_right hpos, ?_⟩
    rw [textAll_cons, String.utf8ByteSize_append, ← size, ← Nat.add_assoc]
    exact ih h.2 _

/-- The span of a token reaches from the text before it to the text through it. -/
theorem getElem?_spansFrom (i : Nat) (ts : List Token) (j : Nat) :
    (spansFrom i ts)[j]? = ts[j]?.map fun _ =>
      ⟨i + (textAll (ts.take j)).utf8ByteSize, i + (textAll (ts.take (j + 1))).utf8ByteSize⟩ := by
  induction ts generalizing i j with
  | nil => rfl
  | cons t ts ih =>
    cases j with
    | zero => simp [spansFrom, size, textAll]
    | succ j =>
      rw [spansFrom, List.getElem?_cons_succ, ih, List.getElem?_cons_succ, List.take_succ_cons,
        List.take_succ_cons, textAll_cons, textAll_cons, String.utf8ByteSize_append,
        String.utf8ByteSize_append, ← size, Nat.add_assoc, Nat.add_assoc]

/-- The end of a part of a text lies between characters. -/
theorem isValid_append (u v : String) :
    String.Pos.Raw.IsValid (u ++ v) ⟨u.utf8ByteSize⟩ :=
  String.Pos.Raw.isValid_iff_exists_append.2 ⟨u, v, rfl, rfl⟩

theorem exists_extract {s u m v : String} (h : s = u ++ m ++ v) :
    ∃ b e : s.Pos, b.offset.byteIdx = u.utf8ByteSize ∧
      e.offset.byteIdx = (u ++ m).utf8ByteSize ∧ s.extract b e = m := by
  subst h
  have hb := isValid_append u (m ++ v)
  rw [← String.append_assoc] at hb
  refine ⟨⟨_, hb⟩, ⟨_, isValid_append (u ++ m) v⟩, rfl, rfl, ?_⟩
  rw [← String.toByteArray_inj, String.extract]
  simp only [String.toByteArray_append, ← String.size_toByteArray]
  rw [ByteArray.extract_append_size_left,
    ByteArray.extract_append_eq_right rfl ByteArray.size_append]

/-! ### Texts that are cut -/

/-- The tokens of a text tile it: -/
structure Tiled (s : String) (L : Lexed) : Prop where
  /-- there is one range for each token; -/
  length : L.ranges.length = L.tokens.length
  /-- the ranges follow each other from the start of the text to its end; -/
  tile : Span.Tile 0 s.utf8ByteSize L.ranges
  /-- each range begins and ends between characters; -/
  bounds : ∀ r ∈ L.ranges,
    String.Pos.Raw.IsValid s ⟨r.start⟩ ∧ String.Pos.Raw.IsValid s ⟨r.stop⟩
  /-- and the text from the token `i` through the token `j` is cut into these tokens, at the same
  places as before if it is counted from the start of the token `i`. -/
  run : ∀ i j, i ≤ j → j < L.tokens.length → ∃ (b e : s.Pos) (L' : Lexed),
    L.ranges[i]?.map Span.start = some b.offset.byteIdx ∧
      L.ranges[j]?.map Span.stop = some e.offset.byteIdx ∧
      lexed (s.extract b e) = .ok L' ∧ L'.tokens = L.tokens.extract i (j + 1) ∧
      L'.ranges.map (·.shift b.offset.byteIdx) = L.ranges.extract i (j + 1)

theorem take_append_extract {α : Type} (as : List α) {i j : Nat} (h : i ≤ j) :
    as.take i ++ as.extract i j = as.take j := by
  rw [← List.take_add, Nat.add_sub_cancel' h]

/-- A place between two tokens lies between characters. -/
theorem isValid_take (ts : List Token) (j : Nat) :
    String.Pos.Raw.IsValid (textAll ts) ⟨(textAll (ts.take j)).utf8ByteSize⟩ := by
  have h := isValid_append (textAll (ts.take j)) (textAll (ts.drop j))
  rwa [← textAll_append, List.take_append_drop] at h

/-- **Tokens that are parted tile their text.** -/
theorem Parted.tiled (h : Parted ts) : Tiled (textAll ts) ⟨ts, spans ts⟩ where
  length := length_spansFrom 0 ts
  tile := by
    have htile := h.tile 0
    rwa [Nat.zero_add] at htile
  bounds r hr := by
    obtain ⟨j, hj⟩ := List.mem_iff_getElem?.1 hr
    rw [spans, getElem?_spansFrom, Option.map_eq_some_iff] at hj
    obtain ⟨t, -, rfl⟩ := hj
    rw [Nat.zero_add, Nat.zero_add]
    exact ⟨isValid_take ts j, isValid_take ts (j + 1)⟩
  run i j hij hj := by
    change j < ts.length at hj
    have htake := take_append_extract ts (Nat.le_succ_of_le hij)
    have hparts : ts = ts.take i ++ ts.extract i (j + 1) ++ ts.drop (j + 1) := by
      rw [htake, List.take_append_drop]
    have htext : textAll ts = textAll (ts.take i) ++ textAll (ts.extract i (j + 1)) ++
        textAll (ts.drop (j + 1)) := by
      rw [← textAll_append, ← textAll_append, ← hparts]
    obtain ⟨b, e, hb, he, hextract⟩ := exists_extract htext
    rw [← textAll_append, htake] at he
    have hrun : Parted (ts.extract i (j + 1)) := Parted.run (hparts ▸ h)
    refine ⟨b, e, ⟨_, spans (ts.extract i (j + 1))⟩, ?_, ?_, ?_, rfl, ?_⟩
    · dsimp only
      rw [hb, spans, getElem?_spansFrom, List.getElem?_eq_getElem (by omega), Nat.zero_add]
      rfl
    · dsimp only
      rw [he, spans, getElem?_spansFrom, List.getElem?_eq_getElem hj, Nat.zero_add, Nat.zero_add]
      rfl
    · rw [hextract]
      exact lexed_eq_ok.2 ⟨toList_textAll _, hrun, rfl⟩
    · dsimp only
      rw [hb, spans, spans, ← spansFrom_add]
      simp only [List.extract]
      rw [drop_spansFrom, take_spansFrom, Nat.add_zero, Nat.zero_add]

/-- **The ranges that are recorded tile the text.** -/
theorem tiled_of_lexed {s : String} {L : Lexed} (h : lexed s = .ok L) : Tiled s L := by
  obtain ⟨ts, ranges⟩ := L
  obtain ⟨hs, hts, hranges⟩ := lexed_eq_ok.1 h
  dsimp only at hs hts hranges
  rw [hranges, String.toList_inj.1 (hs.trans (toList_textAll ts).symm)]
  exact hts.tiled

/-! ### Texts that are not cut -/

/-- A text that is cut into tokens. -/
def Lexes (s : String) : Prop := ∃ ts, lex s = .ok ts

/-- Where a text is blocked.  The text `u` before the offending lexeme is cut, and no text is cut
that begins with `u` and goes on as this one does, up to and with the character of the failure. -/
inductive Blocked (s : String) : LexError → Prop where
  /-- The character `c` begins no token. -/
  | unrecognized {u v : String} {c : Char} (text : s = u ++ .singleton c ++ v)
      (before : Lexes u) (dead : ∀ w, ¬ Lexes (u ++ .singleton c ++ w)) :
      Blocked s ⟨u.utf8ByteSize, .unrecognized⟩
  /-- The character `c` comes after a dash. -/
  | unexpectedCharacter {u v : String} {c : Char} (text : s = u ++ "-" ++ .singleton c ++ v)
      (before : Lexes u) (dead : ∀ w, ¬ Lexes (u ++ "-" ++ .singleton c ++ w)) :
      Blocked s ⟨u.utf8ByteSize + 1, .unexpectedCharacter ['>']⟩
  /-- The text ends after a dash, and only a `>` can mend that. -/
  | unexpectedEnd {u : String} (text : s = u ++ "-") (before : Lexes u) (dead : ¬ Lexes s)
      (mended : ∀ w, Lexes (s ++ w) → ∃ w', w = ">" ++ w') :
      Blocked s ⟨s.utf8ByteSize, .unexpectedEnd ['>']⟩

theorem Leads.lexes (h : Leads rest ts) : Lexes (textAll ts) := by
  refine ⟨ts, lex_eq_ok.2 ⟨rfl, leads_nil.1 (h.congr fun _ hc => ?_)⟩⟩
  exact absurd hc (Option.not_mem_none _)

/-- **Where no token is scanned behind tokens that lead a text, the text is not cut,** also if it
goes on in another way behind the next character. -/
theorem Leads.not_lexes {c : Char} {cs ds : List Char} (h : Leads (c :: cs) ts)
    (hscan : ∀ i, ∃ e, scan i c ⟨i + c.utf8Size, ds⟩ = .error e) {s : String}
    (hs : s.toList = chars ts ++ c :: ds) : ¬ Lexes s := by
  rintro ⟨us, hus⟩
  have hds : Leads (c :: ds) ts := h.congr fun _ => id
  obtain ⟨e, he⟩ := hscan (0 + (textAll ts).utf8ByteSize)
  have herror := lexFrom_leads hds (lexFrom_cons_of_error he)
  rw [lex, lexed, hs, herror] at hus
  cases hus

theorem blocked_of_lexed {s : String} {e : LexError} (h : lexed s = .error e) : Blocked s e := by
  obtain ⟨ts, c, rest, hs, hts, hscan⟩ := lexFrom_eq_error h
  have hbefore : Lexes (textAll ts) := hts.lexes
  rw [Nat.zero_add] at hscan
  obtain ⟨rfl, hany⟩ | ⟨rfl, ⟨d, ds, hd, rfl, rfl⟩ | ⟨rfl, rfl⟩⟩ := scan_eq_error hscan
  · refine .unrecognized (v := .ofList rest) (c := c) ?_ hbefore fun w => ?_
    · rw [← String.toList_inj, hs]
      simp [toList_textAll]
    · have hscan (i : Nat) : ∃ e, scan i c ⟨i + c.utf8Size, w.toList⟩ = .error e := ⟨_, hany _ _⟩
      exact hts.not_lexes hscan (by simp [toList_textAll])
  · refine .unexpectedCharacter (v := .ofList ds) (c := d) ?_ hbefore fun w => ?_
    · rw [← String.toList_inj, hs]
      simp [toList_textAll]
    · have hdash (i : Nat) := scan_dash hd i (i + '-'.utf8Size) w.toList
      exact hts.not_lexes (fun i => ⟨_, hdash i⟩) (by simp [toList_textAll])
  · have hdash : s = textAll ts ++ "-" := by
      rw [← String.toList_inj, hs]
      simp [toList_textAll]
    have hsize : s.utf8ByteSize = (textAll ts).utf8ByteSize + 1 := by
      rw [hdash, String.utf8ByteSize_append]
      rfl
    have hend (i : Nat) : scan i '-' ⟨i + '-'.utf8Size, []⟩ =
        .error ⟨i + '-'.utf8Size, .unexpectedEnd ['>']⟩ := rfl
    have hdead : ¬ Lexes s := hts.not_lexes (fun i => ⟨_, hend i⟩) hs
    have hposition : (textAll ts).utf8ByteSize + '-'.utf8Size = s.utf8ByteSize := hsize.symm
    dsimp only
    rw [hposition]
    refine .unexpectedEnd hdash hbefore hdead fun w hw => ?_
    cases hlist : w.toList with
    | nil =>
      rw [String.toList_eq_nil_iff.1 hlist, String.append_empty] at hw
      exact absurd hw hdead
    | cons d ds =>
      by_cases hd : d = '>'
      · refine ⟨.ofList ds, ?_⟩
        rw [← String.toList_inj, hlist, hd]
        simp
      · have hdash (i : Nat) := scan_dash hd i (i + '-'.utf8Size) ds
        refine absurd hw (hts.not_lexes (fun i => ⟨_, hdash i⟩) ?_)
        rw [String.toList_append, hs, hlist, List.append_assoc]
        rfl

/-- A text that is not cut fails between two characters: before one, or behind a dash. -/
theorem Blocked.isValid {s : String} {e : LexError} (h : Blocked s e) :
    String.Pos.Raw.IsValid s ⟨e.position⟩ := by
  cases h with
  | @unrecognized u v c text =>
    rw [text, String.append_assoc]
    exact isValid_append u _
  | @unexpectedCharacter u v c text =>
    rw [text, String.append_assoc]
    have hdash := isValid_append (u ++ "-") (.singleton c ++ v)
    rwa [String.utf8ByteSize_append] at hdash
  | unexpectedEnd => exact String.Pos.Raw.isValid_rawEndPos

/-- **The lexer tiles its text, and fails where it has to.**  A text that is cut is tiled by its
tokens, and each run of these is cut into itself.  A text that is not cut fails between characters,
behind a text that is cut, and at the first character that no text with this beginning may have. -/
theorem lex_tiles (s : String) :
    match lexed s with
    | .ok L => Tiled s L
    | .error e => String.Pos.Raw.IsValid s ⟨e.position⟩ ∧ Blocked s e := by
  cases h : lexed s with
  | ok L => exact tiled_of_lexed h
  | error e => exact ⟨(blocked_of_lexed h).isValid, blocked_of_lexed h⟩

end Token
end Constructions
