/-
# Where reading fails

A failure lies at the first token that no source can go on with.  Two facts make this up:

* **The tokens before it can still be completed.**  This is a property of readers (`Hopes`): after
  every step there are tokens with which all that was read so far would be accepted.
* **The token itself cannot follow them,** whatever comes behind it.  A reader that follows a rule
  says so when it fails, because it never looks behind the next token (`Finds`).

A number that is too large for a universe level is the only failure of another kind: it lies right
behind the number, and is left out here.
-/

import Constructions.Proofs.Grammar

namespace Constructions

/-- The tokens that are not blank, cut in two, are cut at a position of the source. -/
theorem Cursor.place_eq_append {i : Nat} {ts : List Token} {us vs : List (Located Token)}
    (h : place i ts = us ++ vs) :
    ∃ k ≤ ts.length, Token.visible (ts.take k) = us.map Located.value ∧
      (vs = [] → k = ts.length) ∧ ∀ v ∈ vs.head?, v.locus = i + k ∧ ts[k]? = some v.value := by
  induction ts generalizing i us with
  | nil =>
    obtain ⟨rfl, rfl⟩ := List.append_eq_nil_iff.1 h.symm
    exact ⟨0, Nat.le_refl 0, rfl, fun _ => rfl, by simp⟩
  | cons t ts ih =>
    by_cases hblank : ∃ s, t = .blank s
    · obtain ⟨s, rfl⟩ := hblank
      obtain ⟨k, hk, htake, hnil, hhead⟩ := ih h
      refine ⟨k + 1, Nat.succ_le_succ hk, htake, fun hvs => congrArg Nat.succ (hnil hvs), ?_⟩
      intro v hv
      obtain ⟨hlocus, hvalue⟩ := hhead v hv
      exact ⟨by omega, hvalue⟩
    · have hplace : place i (t :: ts) = ⟨t, i⟩ :: place (i + 1) ts := by
        cases t with
        | blank s => exact absurd ⟨s, rfl⟩ hblank
        | _ => rfl
      have hvisible (us : List Token) : Token.visible (t :: us) = t :: Token.visible us := by
        cases t with
        | blank s => exact absurd ⟨s, rfl⟩ hblank
        | _ => rfl
      rw [hplace] at h
      cases us with
      | nil =>
        refine ⟨0, Nat.zero_le _, rfl, fun hvs => ?_, fun v hv => ?_⟩
        · rw [hvs] at h
          cases h
        · rw [← show _ = vs from h] at hv
          cases hv
          exact ⟨rfl, rfl⟩
      | cons u us =>
        obtain ⟨rfl, hrest⟩ := List.cons.inj h
        obtain ⟨k, hk, htake, hnil, hhead⟩ := ih hrest
        refine ⟨k + 1, Nat.succ_le_succ hk, ?_, fun hvs => congrArg Nat.succ (hnil hvs), ?_⟩
        · rw [List.take_succ_cons, hvisible, htake, List.map_cons]
        · intro v hv
          obtain ⟨hlocus, hvalue⟩ := hhead v hv
          exact ⟨by omega, hvalue⟩

/-- What a cursor has passed since the start of a source. -/
theorem Cursor.Past.of_start {ts : List Token} {us : List (Located Token)} {c : Cursor}
    (h : (start ts).Past us c) :
    c.here ≤ ts.length ∧ Token.visible (ts.take c.here) = us.map Located.value ∧
      (c.here < ts.length → ∃ t, ts[c.here]? = some t ∧ c.ahead.head? = some t) := by
  obtain ⟨k, hk, htake, hnil, hhead⟩ := place_eq_append h.rest
  have hhere : c.here = k := by
    cases hrest : c.rest with
    | nil =>
      simp only [Cursor.here, hrest]
      exact h.limit.trans (hnil hrest).symm
    | cons v vs =>
      obtain ⟨hlocus, -⟩ := hhead v (by rw [hrest]; rfl)
      simp only [Cursor.here, hrest]
      rw [hlocus, Nat.zero_add]
  rw [hhere]
  refine ⟨hk, htake, fun hlt => ?_⟩
  cases hrest : c.rest with
  | nil => exact absurd (hnil hrest) (Nat.ne_of_lt hlt)
  | cons v vs =>
    obtain ⟨-, hvalue⟩ := hhead v (by rw [hrest]; rfl)
    exact ⟨v.value, hvalue, by rw [Cursor.ahead, hrest]; rfl⟩

namespace Grammar

open Reader

variable {D β γ : Type}

/-! ### Readers that keep hope -/

/-- The tokens `us` can be completed: with some others that are not blank, they stand for a
result. -/
def Hope (N : β → List Token → Prop) (us : List Token) : Prop :=
  ∃ b w, (∀ t ∈ w, t.kind ≠ .blank) ∧ N b (us ++ w)

/-- **A reader keeps hope:** what it has read stands for its result, as `N` says; and where it
fails, what it has read can be completed, unless there is a number in it that is no level. -/
structure Hopes (N : β → List Token → Prop) (p : Reader β) : Prop where
  hope : Hope N []
  run : ∀ c : Cursor, Post (p c) (fun y => ∃ us, c.Past us y.2 ∧ N y.1 (us.map Located.value))
    (fun f => ∃ us c', c.Past us c' ∧
      (f.error.location = c'.here ∧ Hope N (us.map Located.value) ∨ ∃ t ∈ us, Oversized t))

/-- Some derivation has these tokens. -/
def Spelled (yield : D → List Token) (_ : β) (v : List Token) : Prop := ∃ d, v = yield d

/-- Some derivation has these tokens, or there are none where nothing was found. -/
def SpelledOption (yield : D → List Token) : Option β → List Token → Prop
  | some _, v => ∃ d, v = yield d
  | none, v => v = []

namespace Hopes

variable {N N' : β → List Token → Prop} {M : γ → List Token → Prop} {p : Reader β}
  {q : β → Reader γ} {o : Reader (Option β)} {Y : D → List Token}

theorem mono (h : Hopes N p) (hN : ∀ b v, N b v → N' b v) : Hopes N' p := by
  have hhope {us} (h : Hope N us) : Hope N' us := by
    obtain ⟨b, w, hw, hb⟩ := h
    exact ⟨b, w, hw, hN b _ hb⟩
  refine ⟨hhope h.hope, fun c => Post.mono (h.run c) ?_ ?_⟩
  · rintro y ⟨us, hus, hy⟩
    exact ⟨us, hus, hN _ _ hy⟩
  · rintro f ⟨us, c', hus, ⟨hloc, hope⟩ | hbig⟩
    · exact ⟨us, c', hus, .inl ⟨hloc, hhope hope⟩⟩
    · exact ⟨us, c', hus, .inr hbig⟩

theorem pure {b : β} (h : N b []) : Hopes N (pure b : Reader β) :=
  ⟨⟨b, [], by simp, h⟩, fun c => ⟨[], .refl c, h⟩⟩

theorem fail (h : Hope N []) : Hopes N (fail : Reader β) :=
  ⟨h, fun c => ⟨[], c, .refl c, .inl ⟨rfl, h⟩⟩⟩

/-- **The second reader has to complete what the first one leaves open.** -/
theorem bind (hp : Hopes N p)
    (hq : ∀ b, (∃ u, N b u) → Hopes (fun a v => ∀ u, N b u → M a (u ++ v)) (q b)) :
    Hopes M (p >>= q) := by
  -- a hope for the first reader is one for both
  have hhope {us} (h : Hope N us) : Hope M us := by
    obtain ⟨b, w, hw, hb⟩ := h
    obtain ⟨a, w', hw', ha⟩ := (hq b ⟨_, hb⟩).hope
    refine ⟨a, w ++ w', List.forall_mem_append.2 ⟨hw, hw'⟩, ?_⟩
    rw [← List.append_assoc]
    exact ha _ hb
  refine ⟨hhope hp.hope, fun c => ?_⟩
  change Post (p c >>= fun x => q x.1 x.2) _ _
  have hpc := hp.run c
  cases hx : p c with
  | error f =>
    obtain ⟨us, c', hus, ⟨hloc, hope⟩ | hbig⟩ := hpc.of_error hx
    · exact ⟨us, c', hus, .inl ⟨hloc, hhope hope⟩⟩
    · exact ⟨us, c', hus, .inr hbig⟩
  | ok x =>
    obtain ⟨us, hus, hb⟩ := hpc.of_ok hx
    refine Post.mono ((hq x.1 ⟨_, hb⟩).run x.2) ?_ ?_
    · rintro y ⟨vs, hvs, hy⟩
      refine ⟨us ++ vs, hus.trans hvs, ?_⟩
      rw [List.map_append]
      exact hy _ hb
    · rintro f ⟨vs, c', hvs, ⟨hloc, a, w, hw, ha⟩ | ⟨t, ht, hbig⟩⟩
      · refine ⟨us ++ vs, c', hus.trans hvs, .inl ⟨hloc, a, w, hw, ?_⟩⟩
        rw [List.map_append, List.append_assoc]
        exact ha _ hb
      · exact ⟨us ++ vs, c', hus.trans hvs, .inr ⟨t, List.mem_append_right _ ht, hbig⟩⟩

/-- After a derivation, whichever it is. -/
theorem spelled (hp : Hopes (Spelled Y) p)
    (hq : ∀ b, Hopes (fun a v => ∀ d, M a (Y d ++ v)) (q b)) : Hopes M (p >>= q) := by
  refine hp.bind fun b _ => (hq b).mono fun a v hv => ?_
  rintro _ ⟨d, rfl⟩
  exact hv d

/-- After a derivation that may be absent. -/
theorem option {k : Option β → Reader γ} (ho : Hopes (SpelledOption Y) o)
    (hsome : ∀ b, Hopes (fun a v => ∀ d, M a (Y d ++ v)) (k (some b))) (hnone : Hopes M (k none)) :
    Hopes M (o >>= k) := by
  refine ho.bind fun x _ => ?_
  cases x with
  | none =>
    refine hnone.mono fun a v hv => ?_
    rintro _ rfl
    exact hv
  | some b =>
    refine (hsome b).mono fun a v hv => ?_
    rintro _ ⟨d, rfl⟩
    exact hv d

/-- **What has to come next may come,** if there is something that could. -/
theorem require [Nonempty β] (ho : Hopes (SpelledOption Y) o)
    (hY : ∃ d, ∀ t ∈ Y d, t.kind ≠ .blank) : Hopes (Spelled Y) (require o) := by
  obtain ⟨d, hd⟩ := hY
  obtain ⟨b⟩ := ‹Nonempty β›
  refine ho.option (fun b => pure fun d => ⟨d, List.append_nil _⟩) (fail ⟨b, Y d, hd, d, rfl⟩)

theorem map {f : β → γ} (hp : Hopes (fun b v => M (f b) v) p) : Hopes M (f <$> p) := by
  rw [map_eq_pure_bind]
  exact hp.bind fun b _ => pure fun u hu => by rwa [List.append_nil]

theorem look {σ : Type} [Nonempty σ] {x : Reader σ} {q : σ → Reader β}
    (hx : ∀ c, ∃ s, x c = .ok (s, c)) (hq : ∀ s, Hopes N (q s)) : Hopes N (x >>= q) := by
  obtain ⟨s⟩ := ‹Nonempty σ›
  refine ⟨(hq s).hope, fun c => ?_⟩
  obtain ⟨s, hs⟩ := hx c
  change Post (x c >>= fun y => q y.1 y.2) _ _
  rw [hs]
  exact (hq s).run c

theorem here {q : Nat → Reader β} (hq : ∀ s, Hopes N (q s)) : Hopes N (Reader.here >>= q) :=
  look (fun c => ⟨c.here, rfl⟩) hq

theorem spanFrom {start : Nat} {q : Span → Reader β} (hq : ∀ s, Hopes N (q s)) :
    Hopes N (Reader.spanFrom start >>= q) := look (fun c => ⟨⟨start, c.stop⟩, rfl⟩) hq

/-- **Either branch may complete what was read.** -/
theorem branch {A B : Reader β} {k : Token.Kind} {t : Token} (ht : ∀ u : Token, u.kind = k ↔ u = t)
    (hA : Hopes (fun b v => N b (t :: v)) A) (hB : Hopes N B) :
    Hopes N (accept k >>= fun b => if b = true then A else B) := by
  refine ⟨hB.hope, fun c => ?_⟩
  change Post (accept k c >>= fun x => (if x.1 = true then A else B) x.2) _ _
  rcases accept_cases ht c with ⟨c', locus, hc', hpast⟩ | ⟨c', hc', hpast, -⟩
  · rw [hc']
    refine Post.mono (hA.run c') ?_ ?_
    · rintro y ⟨us, hus, hy⟩
      exact ⟨_, hpast.trans hus, hy⟩
    · rintro f ⟨us, c'', hus, ⟨hloc, hope⟩ | ⟨u, hu, hbig⟩⟩
      · exact ⟨_, c'', hpast.trans hus, .inl ⟨hloc, hope⟩⟩
      · exact ⟨_, c'', hpast.trans hus, .inr ⟨u, List.mem_append_right _ hu, hbig⟩⟩
  · rw [hc']
    refine Post.mono (hB.run c') ?_ ?_
    · rintro y ⟨us, hus, hy⟩
      exact ⟨_, hpast.trans hus, hy⟩
    · rintro f ⟨us, c'', hus, hf⟩
      exact ⟨_, c'', hpast.trans hus, hf⟩

theorem expect {k : Token.Kind} {t : Token} (ht : ∀ u : Token, u.kind = k ↔ u = t)
    (hk : k ≠ .blank) (hp : Hopes (fun b v => N b (t :: v)) p) :
    Hopes N (expect k >>= fun _ => p) := by
  have h : Hopes (fun _ v => v = [t]) (Reader.expect k) := by
    refine branch ht (pure rfl) (fail ⟨(), [t], List.forall_mem_singleton.2 ?_, rfl⟩)
    rwa [(ht t).2 rfl]
  refine h.bind fun _ _ => hp.mono fun b v hv => ?_
  rintro _ rfl
  exact hv

theorem ofLevels {q : Nat → Reader β} (h : ∀ n, Hopes N (q n)) :
    Hopes N (fun c => q (c.rest.length + 1) c) :=
  ⟨(h 0).hope, fun c => (h _).run c⟩

theorem many (ho : Hopes (SpelledOption Y) o) :
    Hopes (Spelled fun ds : List D => ds.flatMap Y) (many o) := by
  refine ofLevels fun n => ?_
  induction n with
  | zero => exact pure ⟨[], rfl⟩
  | succ n ih =>
    refine ho.option (fun b => ih.spelled fun bs => pure fun ds d => ⟨d :: ds, ?_⟩) (pure ⟨[], rfl⟩)
    simp

/-- What follows the first thing in braces. -/
theorem others (ho : Hopes (SpelledOption Y) o) (n : Nat) :
    Hopes (Spelled fun x : List D × Bool => (x.1.map Y).flatMap (.symbol .comma :: ·) ++
      if x.2 then [.symbol .comma] else []) (moreUpTo o n) := by
  induction n with
  | zero => exact pure ⟨([], false), rfl⟩
  | succ n ih =>
    refine branch (kind_eq_symbol .comma) ?_ (pure ⟨([], false), rfl⟩)
    refine ho.option (fun b => ih.spelled fun bs => pure fun x d => ⟨(d :: x.1, x.2), ?_⟩)
      (pure ⟨([], true), rfl⟩)
    simp

/-- What stands between braces: nothing, a comma alone, or items. -/
theorem items (ho : Hopes (SpelledOption Y) o) :
    Hopes (Spelled fun x : List D × Bool => separated (x.1.map Y) ++
      if x.2 then [.symbol .comma] else [])
      (o >>= fun x => match x with
        | some a => (fun c => moreUpTo o (c.rest.length + 1) c) >>= fun as => Pure.pure (a :: as)
        | none => acceptSymbol .comma >>= fun _ => Pure.pure []) := by
  refine ho.option (fun b => (ofLevels ho.others).spelled fun bs =>
    pure fun x d => ⟨(d :: x.1, x.2), by simp [separated]⟩) ?_
  dsimp only
  rw [acceptSymbol, accept_bind_const]
  exact branch (kind_eq_symbol .comma) (pure ⟨([], true), rfl⟩) (pure ⟨([], false), rfl⟩)

theorem braced (ho : Hopes (SpelledOption Y) o) :
    Hopes (Spelled fun x : List D × Bool => bracedYield (x.1.map Y) x.2) (braced o) := by
  rw [Follows.braced_eq]
  refine expect (kind_eq_symbol .curlyL) (by simp) (ho.items.spelled fun bs => ?_)
  refine expect (kind_eq_symbol .curlyR) (by simp) (pure fun x => ⟨x, ?_⟩)
  simp [bracedYield]

end Hopes

/-! ### Expressions -/

instance : Nonempty Expression := ⟨.type default 0⟩

instance : Nonempty Cursor := ⟨.start []⟩

instance {α : Type} [Nonempty α] : Nonempty (Located α) :=
  ‹Nonempty α›.elim fun a => ⟨⟨a, 0⟩⟩

/-- A name alone is an expression of every kind, so there is always one that could come next. -/
theorem name_spells (x : Name) : (Spine.mk (.name x) []).yield = [.name x] := rfl

theorem exists_spine : ∃ d : Spine, ∀ t ∈ d.yield, t.kind ≠ .blank :=
  ⟨.mk (.name "x") [], by simp [name_spells]⟩

theorem exists_headed : ∃ d : Headed, ∀ t ∈ d.yield, t.kind ≠ .blank :=
  exists_spine.elim fun d hd => ⟨.spine d, hd⟩

theorem exists_full : ∃ d : Full, ∀ t ∈ d.yield, t.kind ≠ .blank :=
  exists_headed.elim fun d hd => ⟨.headed d, hd⟩

theorem exists_label : ∃ l : Label, ∀ t ∈ labelYield l, t.kind ≠ .blank :=
  ⟨none, by simp [labelYield]⟩

theorem exists_name : ∃ x : Name, ∀ t ∈ [Token.name x], t.kind ≠ .blank := ⟨"x", by simp⟩

theorem name?_hopes : Hopes (SpelledOption fun x : Name => [.name x]) name? := by
  refine ⟨⟨none, [], by simp, rfl⟩, fun c => ?_⟩
  rcases hrest : c.rest with _ | ⟨⟨t, locus⟩, rest⟩
  · simp only [name?, hrest]
    exact ⟨[], .note c _, rfl⟩
  · cases t with
    | name x =>
      have hpast : c.Past [⟨.name x, locus⟩] (c.advance locus rest) := ⟨hrest, rfl⟩
      simp only [name?, hrest]
      exact ⟨_, hpast.enter, x, rfl⟩
    | _ =>
      simp only [name?, hrest]
      exact ⟨[], .note c _, rfl⟩

theorem universeLevel?_hopes :
    Hopes (SpelledOption fun x : Numeral => [.number x.digits]) universeLevel? := by
  refine ⟨⟨none, [], by simp, rfl⟩, fun c => ?_⟩
  rcases hrest : c.rest with _ | ⟨⟨t, locus⟩, rest⟩
  · simp only [universeLevel?, hrest]
    exact ⟨[], .note c _, rfl⟩
  · cases t with
    | number digits =>
      have hpast : c.Past [⟨.number digits, locus⟩] (c.advance locus rest) := ⟨hrest, rfl⟩
      simp only [universeLevel?, hrest]
      by_cases hfits : decimal digits.toList < UInt64.size
      · rw [level?_eq, dif_pos hfits]
        exact ⟨_, hpast, ⟨digits, hfits⟩, rfl⟩
      · have hlevel : level? digits = none := by rw [level?_eq, dif_neg hfits]
        rw [hlevel]
        exact ⟨_, _, hpast, .inr ⟨_, List.mem_singleton_self _, digits, rfl, hlevel⟩⟩
    | _ =>
      simp only [universeLevel?, hrest]
      exact ⟨[], .note c _, rfl⟩

theorem label?_hopes : Hopes (SpelledOption labelYield) label? := by
  refine name?_hopes.option (fun x => .pure fun x => ⟨some x, rfl⟩) (.here fun s => ?_)
  exact .branch (kind_eq_symbol .lowDash) (.pure ⟨none, rfl⟩) (.pure rfl)

section Inner

variable {inner : Inner} (hfull : Hopes (SpelledOption Full.yield) (inner .full))
  (hheaded : Hopes (SpelledOption Headed.yield) (inner .headed))

include hfull in
theorem parenthesized_hopes (start : Nat) :
    Hopes (fun _ v => ∃ a : Atom, .symbol .parenL :: v = a.yield) (parenthesized inner start) := by
  refine (hfull.require exists_full).spelled fun term => .branch (kind_eq_symbol .colon) ?_ ?_
  · refine (hfull.require exists_full).spelled fun type => ?_
    refine .expect (kind_eq_symbol .parenR) (by simp) (.spanFrom fun s => .pure fun t e => ?_)
    exact ⟨.ascription e t, by simp [Atom.yield]⟩
  · refine .expect (kind_eq_symbol .parenR) (by simp) (.pure fun e => ?_)
    exact ⟨.parenthesized e, by simp [Atom.yield]⟩

include hfull in
theorem atom?_hopes : Hopes (SpelledOption Atom.yield) (atom? inner) := by
  refine .here fun start => .branch (kind_eq_symbol .parenL)
    (.map (parenthesized_hopes hfull start))
    (.branch (kind_eq_word .type) ?_ ?_)
  · exact universeLevel?_hopes.option (fun level => .spanFrom fun s => .pure fun x =>
      ⟨.type (some x), rfl⟩) (.spanFrom fun s => .pure ⟨.type none, rfl⟩)
  · exact name?_hopes.option (fun x => .spanFrom fun s => .pure fun x => ⟨.name x, rfl⟩) (.pure rfl)

include hfull in
theorem argument?_hopes : Hopes (SpelledOption Atom.yield) (argument? inner) := by
  refine (atom?_hopes hfull).option (fun a => ?_) (.pure rfl)
  exact .look (fun c => ⟨c, rfl⟩) fun _ => .pure fun d => ⟨d, List.append_nil _⟩

include hfull in
theorem spine?_hopes : Hopes (SpelledOption Spine.yield) (spine? inner) := by
  refine .here fun start => (atom?_hopes hfull).option (fun f => ?_) (.pure rfl)
  refine (argument?_hopes hfull).many.spelled fun as => .pure fun ds d => ⟨.mk d ds, ?_⟩
  rw [← Spine.yield_append, List.append_nil]

include hfull hheaded in
theorem elimination_hopes (start : Nat) :
    Hopes (fun _ v => ∃ d : Headed, .word .elim :: v = d.yield) (elimination inner start) := by
  refine ((spine?_hopes hfull).require exists_spine).spelled fun target => ?_
  refine .expect (kind_eq_symbol .twoColon) (by simp) ?_
  refine (hheaded.require exists_headed).spelled fun motive =>
    hfull.braced.spelled fun methods => ?_
  exact .spanFrom fun s => .pure fun x m t => ⟨.elim t m x.1 x.2, by simp [Headed.yield]⟩

include hheaded in
theorem binder_hopes (start : Nat) :
    Hopes (fun _ v => ∃ d : Headed, .symbol .pipe :: v = d.yield) (binder inner start) := by
  refine (label?_hopes.require exists_label).spelled fun label =>
    .branch (kind_eq_symbol .colon) ?_ ?_
  · refine (hheaded.require exists_headed).spelled fun domain => ?_
    refine .expect (kind_eq_symbol .pipe) (by simp) (.branch (kind_eq_symbol .arrow) ?_ ?_)
    · refine (hheaded.require exists_headed).spelled fun codomain => .spanFrom fun s => ?_
      exact .pure fun b a l => ⟨.pi l a b, by simp [Headed.yield]⟩
    · refine (hheaded.require exists_headed).spelled fun body => .spanFrom fun s => ?_
      exact .pure fun b a l => ⟨.typedLam l a b, by simp [Headed.yield]⟩
  · refine label?_hopes.many.spelled fun labels => .expect (kind_eq_symbol .pipe) (by simp) ?_
    refine (hheaded.require exists_headed).spelled fun body => .spanFrom fun s => ?_
    exact .pure fun b ls l => ⟨.lam l ls b, by simp [Headed.yield]⟩

include hfull hheaded in
theorem headed?_hopes : Hopes (SpelledOption Headed.yield) (headed? inner) := by
  refine .here fun start => .branch (kind_eq_symbol .pipe) (.map (binder_hopes hheaded start))
    (.branch (kind_eq_word .elim) (.map (elimination_hopes hfull hheaded start)) ?_)
  refine (spine?_hopes hfull).option (fun domain => .branch (kind_eq_symbol .arrow) ?_ ?_)
    (.pure rfl)
  · refine (hheaded.require exists_headed).spelled fun codomain => .spanFrom fun s => ?_
    exact .pure fun b a => ⟨.arrow a b, by simp [Headed.yield]⟩
  · exact .pure fun a => ⟨.spine a, List.append_nil _⟩

include hfull hheaded in
theorem binding_hopes (start : Nat) :
    Hopes (fun _ v => ∃ d : Full, .word .letIn :: v = d.yield) (binding inner start) := by
  refine (label?_hopes.require exists_label).spelled fun label =>
    .branch (kind_eq_symbol .colon) ?_ ?_
  · refine (hheaded.require exists_headed).spelled fun type => ?_
    refine .expect (kind_eq_symbol .equal) (by simp) ?_
    refine (hheaded.require exists_headed).spelled fun argument => ?_
    refine .expect (kind_eq_symbol .semi) (by simp) ?_
    refine (hfull.require exists_full).spelled fun body => .spanFrom fun s => ?_
    exact .pure fun b a t l => ⟨.typedLet l t a b, by simp [Full.yield]⟩
  · refine .expect (kind_eq_symbol .equal) (by simp) ?_
    refine (hheaded.require exists_headed).spelled fun argument => ?_
    refine .expect (kind_eq_symbol .semi) (by simp) ?_
    refine (hfull.require exists_full).spelled fun body => .spanFrom fun s => ?_
    exact .pure fun b a l => ⟨.letIn l a b, by simp [Full.yield]⟩

include hfull hheaded in
theorem full?_hopes : Hopes (SpelledOption Full.yield) (full? inner) := by
  refine .here fun start => .branch (kind_eq_word .letIn)
    (.map (binding_hopes hfull hheaded start)) ((headed?_hopes hfull hheaded).mono fun e v hv => ?_)
  cases e with
  | none => exact hv
  | some e => exact hv.elim fun d hd => ⟨.headed d, hd⟩

end Inner

/-- With no level left the reader fails where it stands, which loses no hope. -/
theorem expressionUpTo_hopes (n : Nat) :
    Hopes (SpelledOption Full.yield) (expressionUpTo n .full) ∧
      Hopes (SpelledOption Headed.yield) (expressionUpTo n .headed) := by
  induction n with
  | zero => exact ⟨.fail ⟨none, [], by simp, rfl⟩, .fail ⟨none, [], by simp, rfl⟩⟩
  | succ n ih => exact ⟨full?_hopes ih.1 ih.2, headed?_hopes ih.1 ih.2⟩

theorem expression_hopes : Hopes (Spelled Full.yield) expression := by
  have h : Hopes (SpelledOption Full.yield) expression? :=
    .ofLevels fun n => (expressionUpTo_hopes n).1
  exact h.require exists_full

/-! ### Declarations -/

theorem parameter?_hopes : Hopes (SpelledOption Group.yield) parameter? := by
  refine .branch (kind_eq_symbol .parenL) ?_ (.pure rfl)
  refine (label?_hopes.require exists_label).spelled fun label => ?_
  refine .expect (kind_eq_symbol .colon) (by simp) (expression_hopes.spelled fun type => ?_)
  refine .expect (kind_eq_symbol .parenR) (by simp) (.pure fun t l => ⟨⟨l, t⟩, ?_⟩)
  simp [Group.yield]

theorem clause?_hopes : Hopes (SpelledOption Clause.yield) clause? := by
  refine name?_hopes.option (fun x => ?_) (.pure rfl)
  refine .expect (kind_eq_symbol .colon) (by simp) (expression_hopes.spelled fun type => ?_)
  exact .pure fun t x => ⟨⟨x, t⟩, by simp [Clause.yield]⟩

/-- **After its word, a command can be completed.** -/
theorem commandOf_hopes {word : Keyword} (h : word ∈ commandWords) :
    Hopes (fun _ v => ∃ d : Sentence, .word word :: v = d.yield) (commandOf word) := by
  have hname := name?_hopes.require exists_name
  cases word with
  | data =>
    refine hname.spelled fun x => parameter?_hopes.many.spelled fun ps => ?_
    refine .expect (kind_eq_symbol .colon) (by simp) (expression_hopes.spelled fun arity => ?_)
    refine clause?_hopes.braced.spelled fun cs => .pure fun cs a gs x => ?_
    exact ⟨.data x gs a cs.1 cs.2, by simp [Sentence.yield]⟩
  | postulate =>
    refine hname.spelled fun x => .expect (kind_eq_symbol .colon) (by simp) ?_
    refine expression_hopes.spelled fun type => .pure fun t x => ?_
    exact ⟨.postulate x t, by simp [Sentence.yield]⟩
  | define =>
    refine hname.spelled fun x => .branch (kind_eq_symbol .colon) ?_ ?_
    · refine expression_hopes.spelled fun type => .expect (kind_eq_symbol .equal) (by simp) ?_
      refine expression_hopes.spelled fun value => .pure fun v t x => ?_
      exact ⟨.define x (some t) v, by simp [Sentence.yield]⟩
    · refine .expect (kind_eq_symbol .equal) (by simp) ?_
      refine expression_hopes.spelled fun value => .pure fun v x => ?_
      exact ⟨.define x none v, by simp [Sentence.yield]⟩
  | evaluate =>
    refine expression_hopes.spelled fun term => .pure fun e => ?_
    exact ⟨.evaluate e, by simp [Sentence.yield]⟩
  | check =>
    refine expression_hopes.spelled fun term => .expect (kind_eq_symbol .colon) (by simp) ?_
    refine expression_hopes.spelled fun type => .pure fun t e => ?_
    exact ⟨.check e t, by simp [Sentence.yield]⟩
  | _ => simp [commandWords] at h

/-- One of the words `ks`, or nothing. -/
def WordOf (ks : List Keyword) : Option Keyword → List Token → Prop
  | some k, v => k ∈ ks ∧ v = [.word k]
  | none, v => v = []

theorem acceptAnyOf_hopes (ks : List Keyword) : Hopes (WordOf ks) (acceptAnyOf ks) := by
  induction ks with
  | nil => exact .pure rfl
  | cons k ks ih =>
    refine .branch (kind_eq_word k) (.pure ⟨List.mem_cons_self, rfl⟩) (ih.mono fun x v hv => ?_)
    cases x with
    | none => exact hv
    | some k' => exact ⟨List.mem_cons_of_mem k hv.1, hv.2⟩

theorem declaration?_hopes : Hopes (SpelledOption Sentence.yield) declaration? := by
  refine .here fun start => (acceptAnyOf_hopes commandWords).bind fun x hx => ?_
  cases x with
  | none => exact .pure fun u hu => by rw [List.append_nil]; exact hu
  | some k =>
    obtain ⟨_, hk, -⟩ := hx
    refine (commandOf_hopes hk).bind fun command _ => .spanFrom fun s => .pure ?_
    rintro v ⟨d, hd⟩ _ ⟨-, rfl⟩
    exact ⟨d, by rw [List.append_nil]; exact hd⟩

/-! ### Whole sources -/

/-- **The position `p` is where `ts` goes wrong:** the tokens before it can be completed to a source
that is accepted, and with the token there they cannot. -/
structure Pinpoints (parse : List Token → Reading β) (ts : List Token) (p : Nat) : Prop where
  le : p ≤ ts.length
  viable : ∃ us b, (parse (ts.take p ++ us)).result = .ok b
  dead : p < ts.length → ∀ us b, (parse (ts.take (p + 1) ++ us)).result ≠ .ok b

/-- Reading to the end fails where the reader does, or where it leaves something. -/
theorem read_toEnd_eq_error {p : Reader β} {ts : List Token} {e : ParseError}
    (h : ((toEnd p).read ts).result = .error e) :
    (∃ f, p (.start ts) = .error f ∧ f.error.location = e.location) ∨
      ∃ b c, p (.start ts) = .ok (b, c) ∧ e.location = c.here := by
  cases hx : p (.start ts) with
  | error f =>
    simp only [Reader.read, toEnd, bind, StateT.bind, Except.bind, hx] at h
    cases h
    exact .inl ⟨f, rfl, rfl⟩
  | ok x =>
    obtain ⟨b, c⟩ := x
    refine .inr ⟨b, c, rfl, ?_⟩
    cases hrest : c.rest with
    | nil => simp [Reader.read, toEnd, bind, StateT.bind, Except.bind, hx, hrest] at h
    | cons t rest =>
      simp only [Reader.read, toEnd, bind, StateT.bind, Except.bind, hx, hrest, fail] at h
      cases h
      rfl

section

variable {α : Type} {p : Reader β} {yield : D → List Token} {more : List Token.Kind}
  {view : β → α} {tree : D → α} {ts : List Token} {e : ParseError}

/-- All numbers fit, so those that were passed do. -/
theorem not_oversized (hts : ∀ digits, .number digits ∈ ts → decimal digits.toList < UInt64.size)
    {us : List (Located Token)} {c : Cursor} (hus : (Cursor.start ts).Past us c) :
    ¬ ∃ t ∈ us, Oversized t := by
  rintro ⟨t, ht, digits, hdigits, hlevel⟩
  obtain ⟨-, htake, -⟩ := hus.of_start
  have hmem : Token.number digits ∈ Token.visible (ts.take c.here) := by
    rw [htake, ← hdigits]
    exact List.mem_map_of_mem ht
  have hfits := hts digits (List.mem_of_mem_take (List.mem_filter.1 hmem).1)
  rw [level?_eq, dif_pos hfits] at hlevel
  cases hlevel

variable (hts : ∀ digits, .number digits ∈ ts → decimal digits.toList < UInt64.size)
  (he : ((toEnd p).read ts).result = .error e)

include hts he

/-- **What was read before a failure can be completed.** -/
theorem Hopes.viable (h : Hopes (Spelled yield) p) :
    ∃ us c, (Cursor.start ts).Past us c ∧ e.location = c.here ∧
      ∃ w d, (∀ t ∈ w, t.kind ≠ .blank) ∧ us.map Located.value ++ w = yield d := by
  have hrun := h.run (.start ts)
  rcases read_toEnd_eq_error he with ⟨f, hf, hloc⟩ | ⟨b, c, hb, hloc⟩
  · obtain ⟨us, c, hus, ⟨hf, -, w, hw, d, hd⟩ | hbig⟩ := hrun.of_error hf
    · exact ⟨us, c, hus, hloc.symm.trans hf, w, d, hw, hd⟩
    · exact absurd hbig (not_oversized hts hus)
  · obtain ⟨us, hus, d, hd⟩ := hrun.of_ok hb
    exact ⟨us, c, hus, hloc, [], d, by simp, by rw [List.append_nil]; exact hd⟩

/-- **The token at a failure cannot follow what was read.** -/
theorem Follows.dead (h : ∀ n, Follows n (fun b d => view b = tree d) p (.spelled yield more)) :
    ∃ us c, (Cursor.start ts).Past us c ∧ e.location = c.here ∧
      ∀ t s, c.ahead.head? = some t → ∀ d, yield d ≠ us.map Located.value ++ t :: s := by
  have hrun := h _ (.start ts) (Nat.lt_succ_self _)
  rcases read_toEnd_eq_error he with ⟨f, hf, hloc⟩ | ⟨b, c, hb, hloc⟩
  · obtain ⟨us, c, hus, hf | hbig, hno⟩ := hrun.of_error hf
    · exact ⟨us, c, hus, hloc.symm.trans hf, fun t s ht d hd => hno (t :: s) ht.symm d []
        (Rule.must_nil hd)⟩
    · exact absurd hbig (not_oversized hts hus)
  · obtain ⟨d, us, hus, -, -, honly⟩ := hrun.of_ok hb
    refine ⟨us, c, hus, hloc, fun t s ht d hd => ?_⟩
    -- a derivation of more tokens would leave none, but the reader has left some
    obtain ⟨-, hnil⟩ := honly (t :: s) ht.symm d [] (Rule.must_nil hd)
    cases hnil

/-- **A failure is where the source goes wrong,** for a reader that follows a rule and keeps
hope. -/
theorem Follows.pinpoints
    (hf : ∀ n, Follows n (fun b d => view b = tree d) p (.spelled yield more))
    (hh : Hopes (Spelled yield) p) : Pinpoints (toEnd p).read ts e.location := by
  have haccepts := (Follows.exact hf).accepts
  have hvisible (us vs : List Token) :
      Token.visible (us ++ vs) = Token.visible us ++ Token.visible vs := List.filter_append ..
  obtain ⟨us, c, hus, hloc, w, d, hw, hd⟩ := hh.viable hts he
  obtain ⟨hle, htake, -⟩ := hus.of_start
  rw [← hloc] at hle htake
  refine ⟨hle, ?_, fun hlt vs b hb => ?_⟩
  · obtain ⟨b, hb⟩ := (haccepts (ts.take e.location ++ w)).2 ⟨d, by
      rw [hvisible, htake, ← hd, Token.visible, List.filter_eq_self.2 (by simpa using hw)]⟩
    exact ⟨w, b, hb⟩
  · obtain ⟨us', c', hus', hloc', hdead⟩ := Follows.dead hts he hf
    obtain ⟨-, htake', hnext⟩ := hus'.of_start
    rw [← hloc'] at htake' hnext
    obtain ⟨t, ht, hhead⟩ := hnext hlt
    -- the token there is not blank, since a cursor stands before it
    have hkind : t.kind ≠ .blank := by
      have hmem : t ∈ (Cursor.start ts).ahead := by
        rw [hus'.ahead]
        exact List.mem_append_right _ (List.mem_of_mem_head? hhead)
      rw [Cursor.ahead_start] at hmem
      simpa using (List.mem_filter.1 hmem).2
    obtain ⟨d', hd'⟩ := (haccepts _).1 ⟨b, hb⟩
    refine hdead t (Token.visible vs) hhead d' ?_
    rw [hd', List.take_add_one, ht, hvisible, hvisible, htake', List.append_assoc]
    simp [Token.visible, hkind]

end

end Grammar

open Grammar

end Constructions
