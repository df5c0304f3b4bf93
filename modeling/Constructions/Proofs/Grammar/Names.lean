/-
# Names in order of first appearance

A reader enters the names that it passes into a list, each once.  It enters nothing else and looks
at the list for nothing else, so after a reading the list holds the names among the first tokens of
the source, in order: among all of them if the reading succeeds, and among those before the failure
otherwise.

| statement | meaning |
| --- | --- |
| `enterAll known xs` | the names `known`, and behind them those of `xs` that are new |
| `Records p` | `p` enters the names of the tokens that it passes, whichever names are known before |

A reading may begin with names that are known from an attempt that was given up.  Those are names
among the first tokens too, so they are met again in the same order, and it does not matter that
they were there.
-/

import Constructions.Proofs.Grammar.Viable

namespace Constructions

/-! ### Lists of names -/

namespace Token

/-- The name that a token is. -/
def name? : Token → Option Name
  | .name n => some n
  | _ => none

/-- The names among tokens, each once, in order of their first appearance. -/
def names (ts : List Token) : List Name := (ts.filterMap name?).eraseDups

theorem name?_eq_none {t : Token} (h : t.kind ≠ .name) : t.name? = none := by
  cases t with
  | name n => exact absurd rfl h
  | _ => rfl

/-- No name appears twice. -/
theorem nodup_names (ts : List Token) : (names ts).Nodup := by
  rw [names]
  generalize hn : (ts.filterMap name?).length = n
  generalize ts.filterMap name? = xs at hn
  induction n using Nat.strongRecOn generalizing xs with
  | ind n ih =>
    cases xs with
    | nil => exact List.nodup_nil
    | cons x xs =>
      rw [List.eraseDups_cons]
      refine List.nodup_cons.2 ⟨by simp [List.mem_eraseDups], ih _ ?_ _ rfl⟩
      rw [← hn, List.length_cons]
      exact Nat.lt_succ_of_le (List.length_filter_le _ _)

/-- Blanks are no names. -/
theorem filterMap_visible (ts : List Token) :
    (visible ts).filterMap name? = ts.filterMap name? := by
  induction ts with
  | nil => rfl
  | cons t ts ih =>
    cases t with
    | name n => exact congrArg (n :: ·) ih
    | _ => exact ih

end Token

/-- The known names, and behind them the new ones among `xs`, each once. -/
def enterAll (known xs : List Name) : List Name := known ++ (xs.removeAll known).eraseDups

section

variable {known xs ys : List Name}

@[simp] theorem enterAll_nil (known : List Name) : enterAll known [] = known :=
  List.append_nil known

theorem nil_enterAll (xs : List Name) : enterAll [] xs = xs.eraseDups := by
  simp [enterAll, List.removeAll]

theorem enterAll_of_subset (h : xs ⊆ known) : enterAll known xs = known := by
  have hnil : xs.removeAll known = [] := by
    rw [List.removeAll, List.filter_eq_nil_iff]
    intro x hx
    simpa using h hx
  rw [enterAll, hnil]
  exact List.append_nil known

/-- **Names are entered one after the other.** -/
theorem enterAll_append (known xs ys : List Name) :
    enterAll known (xs ++ ys) = enterAll (enterAll known xs) ys := by
  -- what is new behind the first names is what is neither known nor among them
  have hnew : ys.removeAll (known ++ (xs.removeAll known).eraseDups) =
      (ys.removeAll known).removeAll (xs.removeAll known) := by
    simp only [List.removeAll, List.filter_filter]
    refine List.filter_congr fun y _ => ?_
    by_cases hy : y ∈ known <;> simp [hy]
  have hsplit : (xs ++ ys).removeAll known = xs.removeAll known ++ ys.removeAll known :=
    List.filter_append ..
  rw [enterAll, hsplit, List.eraseDups_append, enterAll, enterAll, hnew, List.append_assoc]

theorem enterAll_singleton (known : List Name) (n : Name) :
    enterAll known [n] = if n ∈ known then known else known ++ [n] := by
  by_cases hn : n ∈ known <;> simp [enterAll, List.removeAll, List.eraseDups_cons, hn]

/-- **Names among the first tokens are met again in the same order.** -/
theorem enterAll_names_take (ts : List Token) (j k : Nat) :
    enterAll (Token.names (ts.take j)) ((ts.take k).filterMap Token.name?) =
      Token.names (ts.take (max j k)) := by
  obtain hjk | hkj := Nat.le_total j k
  · obtain ⟨vs, hvs⟩ : ∃ vs, ts.take k = ts.take j ++ vs := by
      obtain ⟨vs, hvs⟩ := List.take_prefix_take_left hjk (l := ts)
      exact ⟨vs, hvs.symm⟩
    rw [Nat.max_eq_right hjk, hvs, Token.names, Token.names, List.filterMap_append,
      enterAll_append, enterAll_of_subset fun x hx => List.mem_eraseDups.2 hx, ← nil_enterAll,
      ← nil_enterAll, enterAll_append]
  · rw [Nat.max_eq_left hkj]
    refine enterAll_of_subset fun x hx => List.mem_eraseDups.2 ?_
    obtain ⟨t, ht, hx⟩ := List.mem_filterMap.1 hx
    exact List.mem_filterMap.2 ⟨t, (List.take_prefix_take_left hkj).subset ht, hx⟩

end

namespace Cursor

/-- The cursor with the given names in place of its own. -/
def knowing (c : Cursor) (known : List Name) : Cursor := { c with names := known }

@[simp] theorem rest_knowing (c : Cursor) (known : List Name) : (c.knowing known).rest = c.rest :=
  rfl

@[simp] theorem names_knowing (c : Cursor) (known : List Name) : (c.knowing known).names = known :=
  rfl

theorem enter_knowing (c : Cursor) (known : List Name) (n : Name) :
    (c.knowing known).enter n = c.knowing (enterAll known [n]) := by
  by_cases hn : n ∈ known <;> simp [enter, knowing, enterAll_singleton, hn]

end Cursor

namespace Grammar

open Reader

variable {β γ : Type}

/-! ### Readers that record names -/

/-- The names among tokens that were passed. -/
def entered (us : List (Located Token)) : List Name := us.filterMap (·.value.name?)

theorem entered_append (us vs : List (Located Token)) :
    entered (us ++ vs) = entered us ++ entered vs := List.filterMap_append

theorem entered_eq (us : List (Located Token)) :
    entered us = (us.map Located.value).filterMap Token.name? := by
  rw [List.filterMap_map]
  rfl

/-- A reader passes some tokens `us` and comes to stand at `c'`.  Whichever names are known before,
those of `us` are entered, and nothing else depends on them: neither whether the reader returns,
nor what.  A failure lies at the place where the reader stands, or right behind the last token. -/
def RecordsFrom (p : Reader β) (c : Cursor) : Prop :=
  ∃ us c', c.Past us c' ∧
    ((∃ b, ∀ known, p (c.knowing known) = .ok (b, c'.knowing (enterAll known (entered us)))) ∨
      ∃ e : ParseError, (e.location = c'.here ∨ ∃ t ∈ us.getLast?, e.location = t.locus + 1) ∧
        ∀ known, p (c.knowing known) = .error ⟨e, enterAll known (entered us)⟩)

/-- **A reader records names,** wherever it starts. -/
def Records (p : Reader β) : Prop := ∀ c, RecordsFrom p c

namespace Records

variable {p : Reader β} {q : β → Reader γ} {o : Reader (Option β)}

/-- Nothing is passed, and something returned. -/
theorem still {c c' : Cursor} (h : c.Past [] c') (b : β)
    (hp : ∀ known, p (c.knowing known) = .ok (b, c'.knowing known)) : RecordsFrom p c := by
  refine ⟨[], c', h, .inl ⟨b, fun known => ?_⟩⟩
  rw [hp known, show entered [] = [] from rfl, enterAll_nil]

theorem pure (b : β) : Records (pure b : Reader β) := fun c => still (.refl c) b fun _ => rfl

theorem fail : Records (fail : Reader β) := by
  refine fun c => ⟨[], c, .refl c, .inr ⟨⟨c.here, c.expected⟩, .inl rfl, fun known => ?_⟩⟩
  rw [show entered [] = [] from rfl, enterAll_nil]
  rfl

/-- **One reader after the other** passes the tokens of both. -/
theorem bind (hp : Records p) (hq : ∀ b, Records (q b)) : Records (p >>= q) := by
  intro c
  obtain ⟨us, c₁, hus, ⟨b, hb⟩ | ⟨e, he, hp⟩⟩ := hp c
  · obtain ⟨vs, c₂, hvs, h⟩ := hq b c₁
    have hbind (known : List Name) : (p >>= q) (c.knowing known) =
        q b (c₁.knowing (enterAll known (entered us))) := by
      simp only [Bind.bind, StateT.bind, Except.bind, hb]
    refine ⟨us ++ vs, c₂, hus.trans hvs, ?_⟩
    simp only [hbind, entered_append, enterAll_append]
    rcases h with ⟨b', hb'⟩ | ⟨e, he, hq⟩
    · exact .inl ⟨b', fun known => hb' _⟩
    · refine .inr ⟨e, he.imp id ?_, fun known => hq _⟩
      rintro ⟨t, ht, hlocus⟩
      exact ⟨t, by rw [List.getLast?_append, ht]; rfl, hlocus⟩
  · refine ⟨us, c₁, hus, .inr ⟨e, he, fun known => ?_⟩⟩
    simp only [Bind.bind, StateT.bind, Except.bind, hp]

theorem map {f : β → γ} (hp : Records p) : Records (f <$> p) := by
  rw [map_eq_pure_bind]
  exact hp.bind fun b => pure (f b)

/-- A reader that looks at its place first, which does not show the names. -/
theorem look {α : Type} {f : Cursor → α} (hf : ∀ c known, f (c.knowing known) = f c)
    {q : α → Reader β} (hq : ∀ a, Records (q a)) : Records (fun c => q (f c) c) := by
  intro c
  obtain ⟨us, c', hus, h⟩ := hq (f c) c
  refine ⟨us, c', hus, ?_⟩
  simp only [hf]
  exact h

theorem here {q : Nat → Reader β} (hq : ∀ i, Records (q i)) : Records (Reader.here >>= q) :=
  look (f := Cursor.here) (fun _ _ => rfl) hq

theorem spanFrom {start : Nat} {q : Span → Reader β} (hq : ∀ s, Records (q s)) :
    Records (Reader.spanFrom start >>= q) :=
  look (f := fun c => (⟨start, c.stop⟩ : Span)) (fun _ _ => rfl) hq

/-- **A token that is no name** is passed and nothing is entered. -/
theorem accept {k : Token.Kind} (hk : k ≠ .name) : Records (accept k) := by
  intro c
  cases hrest : c.rest with
  | nil =>
    refine still (.note c (.token k)) false fun known => ?_
    simp [Reader.accept, Cursor.knowing, Cursor.note, hrest]
  | cons t rest =>
    by_cases ht : t.value.kind = k
    · refine ⟨[t], c.advance t.locus rest, ⟨hrest, rfl⟩, .inl ⟨true, fun known => ?_⟩⟩
      have hname : entered [t] = [] := by
        simp [entered, Token.name?_eq_none (t := t.value) (ht ▸ hk)]
      rw [hname, enterAll_nil]
      simp [Reader.accept, Cursor.knowing, Cursor.advance, hrest, ht]
    · refine still (.note c (.token k)) false fun known => ?_
      simp [Reader.accept, Cursor.knowing, Cursor.note, hrest, ht]

theorem symbol (s : Symbol) : Records (acceptSymbol s) := accept (by rintro ⟨⟩)

theorem word (k : Keyword) : Records (acceptWord k) := accept (by rintro ⟨⟩)

/-- The next token decides between two readers. -/
theorem ite {A B : Reader γ} {r : Reader Bool} (hr : Records r) (hA : Records A)
    (hB : Records B) : Records (r >>= fun b => if b = true then A else B) := by
  refine hr.bind fun b => ?_
  cases b with
  | true => exact hA
  | false => exact hB

theorem expect (s : Symbol) : Records (expectSymbol s) := ite (symbol s) (pure ()) fail

/-- **A name is passed and entered.** -/
theorem name? : Records name? := by
  intro c
  rcases hrest : c.rest with _ | ⟨⟨t, locus⟩, rest⟩
  · refine still (.note c (.token .name)) none fun known => ?_
    simp [Reader.name?, Cursor.knowing, Cursor.note, hrest]
  · cases t with
    | name n =>
      refine ⟨[⟨.name n, locus⟩], c.advance locus rest, ⟨hrest, rfl⟩,
        .inl ⟨some ⟨n, locus⟩, fun known => ?_⟩⟩
      have hstep : Reader.name? (c.knowing known) =
          .ok (some ⟨n, locus⟩, ((c.advance locus rest).knowing known).enter n) := by
        simp [Reader.name?, Cursor.knowing, Cursor.advance, hrest]
      rw [hstep, Cursor.enter_knowing]
      rfl
    | _ =>
      refine still (.note c (.token .name)) none fun known => ?_
      simp [Reader.name?, Cursor.knowing, Cursor.note, hrest]

/-- A number that is no level is passed too, and the failure lies right behind it. -/
theorem universeLevel? : Records universeLevel? := by
  intro c
  rcases hrest : c.rest with _ | ⟨⟨t, locus⟩, rest⟩
  · refine still (.note c (.token .number)) none fun known => ?_
    simp [Reader.universeLevel?, Cursor.knowing, Cursor.note, hrest]
  · cases t with
    | number digits =>
      refine ⟨[⟨.number digits, locus⟩], c.advance locus rest, ⟨hrest, rfl⟩, ?_⟩
      have hname : entered [⟨.number digits, locus⟩] = [] := rfl
      simp only [hname, enterAll_nil]
      cases hlevel : level? digits with
      | some level =>
        refine .inl ⟨some level, fun known => ?_⟩
        simp [Reader.universeLevel?, Cursor.knowing, Cursor.advance, hrest, hlevel]
      | none =>
        refine .inr ⟨⟨locus + 1, [.universeLevel]⟩, .inr ⟨_, rfl, rfl⟩, fun known => ?_⟩
        simp [Reader.universeLevel?, Cursor.knowing, hrest, hlevel]
    | _ =>
      refine still (.note c (.token .number)) none fun known => ?_
      simp [Reader.universeLevel?, Cursor.knowing, Cursor.note, hrest]

/-- What was read is read further on, in either case. -/
theorem option {k : Option β → Reader γ} (ho : Records o) (hsome : ∀ b, Records (k (some b)))
    (hnone : Records (k none)) : Records (o >>= k) := by
  refine ho.bind fun x => ?_
  cases x with
  | none => exact hnone
  | some b => exact hsome b

theorem require (ho : Records o) : Records (require o) := ho.option pure fail

theorem many (ho : Records o) : Records (many o) := by
  have hup (n : Nat) : Records (manyUpTo o n) := by
    induction n with
    | zero => exact pure []
    | succ n ih => exact ho.option (fun b => ih.bind fun bs => pure (b :: bs)) (pure [])
  exact look (f := fun c => c.rest.length + 1) (fun _ _ => rfl) hup

theorem braced (ho : Records o) : Records (braced o) := by
  have hmore (n : Nat) : Records (moreUpTo o n) := by
    induction n with
    | zero => exact pure []
    | succ n ih =>
      refine ite (symbol .comma) ?_ (pure [])
      exact ho.option (fun b => ih.bind fun bs => pure (b :: bs)) (pure [])
  rw [Follows.braced_eq]
  refine (expect .curlyL).bind fun _ => bind ?_ fun bs => (expect .curlyR).bind fun _ => pure bs
  refine ho.option (fun b => ?_) ((symbol .comma).bind fun _ => pure [])
  exact (look (f := fun c => c.rest.length + 1) (fun _ _ => rfl) hmore).bind fun bs => pure (b :: bs)

end Records

/-! ### Expressions -/

theorem label?_records : Records label? :=
  Records.name?.option (fun _ => .pure _) (.here fun _ => .ite (.symbol .lowDash) (.pure _) (.pure _))

section Inner

variable {inner : Inner} (hinner : ∀ place, Records (inner place))

include hinner

theorem parenthesized_records (start : Nat) : Records (parenthesized inner start) := by
  refine (hinner .full).require.bind fun term => .ite (.symbol .colon) ?_ ?_
  · refine (hinner .full).require.bind fun type => (Records.expect .parenR).bind fun _ => ?_
    exact .spanFrom fun _ => .pure _
  · exact (Records.expect .parenR).bind fun _ => .pure _

theorem atom?_records : Records (atom? inner) := by
  refine .here fun start => .ite (.symbol .parenL) (.map (parenthesized_records hinner start)) ?_
  refine .ite (.word .type) ?_ ?_
  · exact Records.universeLevel?.bind fun _ => .spanFrom fun _ => .pure _
  · exact Records.name?.option (fun _ => .spanFrom fun _ => .pure _) (.pure _)

theorem argument?_records : Records (argument? inner) := by
  refine (atom?_records hinner).option (fun a => ?_) (.pure _)
  exact .look (f := Cursor.stop) (fun _ _ => rfl) fun i => .pure (some (a, i))

theorem spine?_records : Records (spine? inner) := by
  refine .here fun _ => (atom?_records hinner).option (fun _ => ?_) (.pure _)
  exact (argument?_records hinner).many.bind fun _ => .pure _

theorem binder_records (start : Nat) : Records (binder inner start) := by
  have hheaded := (hinner .headed).require
  refine label?_records.require.bind fun label => .ite (.symbol .colon) ?_ ?_
  · refine hheaded.bind fun domain => (Records.expect .pipe).bind fun _ => .ite (.symbol .arrow) ?_ ?_
    · exact hheaded.bind fun _ => .spanFrom fun _ => .pure _
    · exact hheaded.bind fun _ => .spanFrom fun _ => .pure _
  · refine label?_records.many.bind fun labels => (Records.expect .pipe).bind fun _ => ?_
    exact hheaded.bind fun _ => .spanFrom fun _ => .pure _

theorem elimination_records (start : Nat) : Records (elimination inner start) := by
  refine (spine?_records hinner).require.bind fun target => (Records.expect .twoColon).bind fun _ => ?_
  refine (hinner .headed).require.bind fun motive => (hinner .full).braced.bind fun methods => ?_
  exact .spanFrom fun _ => .pure _

theorem headed?_records : Records (headed? inner) := by
  refine .here fun start => .ite (.symbol .pipe) (.map (binder_records hinner start)) ?_
  refine .ite (.word .elim) (.map (elimination_records hinner start)) ?_
  refine (spine?_records hinner).option (fun domain => ?_) (.pure _)
  refine .ite (.symbol .arrow) ?_ (.pure _)
  exact (hinner .headed).require.bind fun _ => .spanFrom fun _ => .pure _

theorem binding_records (start : Nat) : Records (binding inner start) := by
  have hrest {f : Expression → Expression → Span → Expression} : Records (do
      expectSymbol .equal
      let argument ← require (inner .headed)
      expectSymbol .semi
      let body ← require (inner .full)
      return f argument body (← Reader.spanFrom start)) := by
    refine (Records.expect .equal).bind fun _ => (hinner .headed).require.bind fun _ => ?_
    refine (Records.expect .semi).bind fun _ => (hinner .full).require.bind fun _ => ?_
    exact .spanFrom fun _ => .pure _
  refine label?_records.require.bind fun label => .ite (.symbol .colon) ?_ ?_
  · exact (hinner .headed).require.bind fun type => hrest
  · exact hrest

theorem full?_records : Records (full? inner) :=
  .here fun start => .ite (.word .letIn) (.map (binding_records hinner start))
    (headed?_records hinner)

end Inner

theorem expressionUpTo_records (n : Nat) (place : Place) : Records (expressionUpTo n place) := by
  induction n generalizing place with
  | zero => exact .fail
  | succ n ih =>
    cases place with
    | full => exact full?_records ih
    | headed => exact headed?_records ih

theorem expression_records : Records expression := by
  have h : Records expression? := .look (f := fun c => c.rest.length + 1) (fun _ _ => rfl)
    fun n => expressionUpTo_records n .full
  exact h.require

/-! ### Declarations -/

theorem parameter?_records : Records parameter? := by
  refine .ite (.symbol .parenL) ?_ (.pure _)
  refine label?_records.require.bind fun label => (Records.expect .colon).bind fun _ => ?_
  exact expression_records.bind fun _ => (Records.expect .parenR).bind fun _ => .pure _

theorem clause?_records : Records clause? := by
  refine Records.name?.option (fun name => (Records.expect .colon).bind fun _ => ?_) (.pure _)
  exact expression_records.bind fun _ => .pure _

theorem commandOf_records (word : Keyword) : Records (commandOf word) := by
  have hname := Records.name?.require
  cases word with
  | data =>
    refine hname.bind fun name => parameter?_records.many.bind fun parameters => ?_
    refine (Records.expect .colon).bind fun _ => expression_records.bind fun arity => ?_
    exact clause?_records.braced.bind fun _ => .pure _
  | postulate =>
    refine hname.bind fun name => (Records.expect .colon).bind fun _ => ?_
    exact expression_records.bind fun _ => .pure _
  | define =>
    refine hname.bind fun name => .ite (.symbol .colon) ?_ ?_
    · refine expression_records.bind fun type => (Records.expect .equal).bind fun _ => ?_
      exact expression_records.bind fun _ => .pure _
    · exact (Records.expect .equal).bind fun _ => expression_records.bind fun _ => .pure _
  | evaluate => exact expression_records.bind fun _ => .pure _
  | check =>
    refine expression_records.bind fun term => (Records.expect .colon).bind fun _ => ?_
    exact expression_records.bind fun _ => .pure _
  | _ => exact .fail

theorem acceptAnyOf_records (ks : List Keyword) : Records (acceptAnyOf ks) := by
  induction ks with
  | nil => exact .pure none
  | cons k ks ih => exact .ite (.word k) (.pure (some k)) ih

theorem declaration?_records : Records declaration? := by
  refine .here fun start => (acceptAnyOf_records commandWords).option (fun k => ?_) (.pure _)
  exact (commandOf_records k).bind fun _ => .spanFrom fun _ => .pure _

/-! ### Whole sources -/

section

variable {ts : List Token} {us : List (Located Token)} {c : Cursor}

/-- What was passed before the place of a cursor. -/
theorem entered_of_here (h : (Cursor.start ts).Past us c) :
    entered us = (ts.take c.here).filterMap Token.name? := by
  obtain ⟨-, htake, -⟩ := h.of_start
  rw [entered_eq, ← htake, Token.filterMap_visible]

/-- What was passed up to the last token. -/
theorem entered_of_last (h : (Cursor.start ts).Past us c) {t : Located Token}
    (ht : t ∈ us.getLast?) :
    t.locus + 1 ≤ ts.length ∧ entered us = (ts.take (t.locus + 1)).filterMap Token.name? := by
  obtain ⟨us, rfl⟩ := List.getLast?_eq_some_iff.1 ht
  have hrest : (Cursor.start ts).rest = us ++ t :: c.rest :=
    h.rest.trans (List.append_assoc us [t] c.rest)
  obtain ⟨k, -, htake, -, hhead⟩ := Cursor.place_eq_append hrest
  obtain ⟨hlocus, hvalue⟩ := hhead t rfl
  rw [Nat.zero_add] at hlocus
  refine ⟨hlocus ▸ (List.getElem?_eq_some_iff.1 hvalue).1, ?_⟩
  rw [hlocus, List.take_add_one, hvalue, entered_append, entered_eq us, ← htake,
    Token.filterMap_visible, List.filterMap_append]
  rfl

end

end Grammar

open Grammar Reader

/-- Runs a reader on the tokens of a source when some names are known already. -/
def Reader.readKnowing {α : Type} (p : Reader α) (known : List Name) (tokens : List Token) :
    Reading α :=
  match p ((Cursor.start tokens).knowing known) with
  | .ok (a, c) => ⟨.ok a, c.names⟩
  | .error f => ⟨.error f.error, f.names⟩

/-- **The names of a reading are in order:** they are those among the first `k` tokens, each once.
If the reading succeeds these are all tokens, and otherwise those before the failure. -/
structure Reading.InOrder {α : Type} (ts : List Token) (k : Nat) (r : Reading α) : Prop where
  le : k ≤ ts.length
  names : r.names = Token.names (ts.take k)
  nodup : r.names.Nodup
  success : ∀ a, r.result = .ok a → k = ts.length
  failure : ∀ e, r.result = .error e → k = e.location

/-- **A reader that records names reads a source in order.**  Started again with names that an
attempt has met among the first `j` tokens, it has the same result, and the names are those that
the attempt or the reading itself has come to. -/
theorem Grammar.Records.inOrder {α : Type} {p : Reader α} (hp : Records p) (ts : List Token) :
    ∃ k, ((toEnd p).read ts).InOrder ts k ∧ ∀ j,
      (toEnd p).readKnowing (Token.names (ts.take j)) ts =
        ⟨((toEnd p).read ts).result, Token.names (ts.take (max j k))⟩ := by
  -- one outcome for all names that may be known, with a place `k` in the source
  suffices h : ∃ k ≤ ts.length, ∃ x : Except ParseError α, (∀ a, x = .ok a → k = ts.length) ∧
      (∀ e, x = .error e → k = e.location) ∧ ∀ known, (toEnd p).readKnowing known ts =
        ⟨x, enterAll known ((ts.take k).filterMap Token.name?)⟩ by
    obtain ⟨k, hk, x, hok, herr, hread⟩ := h
    have hfirst : (toEnd p).read ts = ⟨x, Token.names (ts.take k)⟩ := by
      rw [Token.names, ← nil_enterAll]
      exact hread []
    refine ⟨k, ⟨hk, ?_, ?_, ?_, ?_⟩, fun j => ?_⟩
    · rw [hfirst]
    · rw [hfirst]
      exact Token.nodup_names _
    · rwa [hfirst]
    · rwa [hfirst]
    · rw [hfirst, hread, enterAll_names_take]
  obtain ⟨us, c, hus, ⟨b, hb⟩ | ⟨e, he, hf⟩⟩ := hp (.start ts)
  · obtain ⟨hle, -⟩ := hus.of_start
    rw [entered_of_here hus] at hb
    cases hrest : c.rest with
    | nil =>
      have hhere : c.here = ts.length := by
        simp only [Cursor.here, hrest]
        exact hus.limit
      refine ⟨c.here, hle, .ok b, fun _ _ => hhere, by rintro _ ⟨⟩, fun known => ?_⟩
      simp [readKnowing, toEnd, Bind.bind, StateT.bind, Except.bind, hb, hrest]
    | cons t rest =>
      refine ⟨c.here, hle, .error ⟨c.here, .ending :: c.expected⟩, by rintro _ ⟨⟩, ?_,
        fun known => ?_⟩
      · rintro _ ⟨⟩
        rfl
      · simp only [readKnowing, toEnd, Bind.bind, StateT.bind, Except.bind, hb,
          Cursor.rest_knowing, hrest]
        rfl
  · obtain ⟨hle, hentered⟩ : e.location ≤ ts.length ∧
        entered us = (ts.take e.location).filterMap Token.name? := by
      rcases he with hloc | ⟨t, ht, hloc⟩
      · rw [hloc]
        exact ⟨hus.of_start.1, entered_of_here hus⟩
      · rw [hloc]
        exact entered_of_last hus ht
    refine ⟨e.location, hle, .error e, by rintro _ ⟨⟩, ?_, fun known => ?_⟩
    · rintro _ ⟨⟩
      rfl
    · rw [← hentered]
      simp [readKnowing, toEnd, Bind.bind, StateT.bind, Except.bind, hf]

/-- In `def x = f x 3 g` the reading fails at the number, so `g` is not met. -/
example : (Program.parse [.word .define, .name "x", .symbol .equal, .name "f", .blank " ", .name "x",
    .number "3", .name "g"]).names = ["x", "f"] := by
  decide

end Constructions
