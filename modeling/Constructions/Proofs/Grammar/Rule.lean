/-
# Readers and rules

A rule says of a list of tokens which derivations may stand at its front, and
what each leaves.  It says so twice:

| side of a rule | meaning |
| --- | --- |
| `Can ts d r` | `d` stands at the front of `ts` and leaves `r` |
| `Must ts d r` | moreover `r` cannot go on where `d` ends |

A reader follows a rule (`Follows`) if what it returns can be derived and what
must be derived is what it returns.  So one fact about a reader says that it
accepts nothing else, that it refuses nothing, and that there is only one
derivation to find; and it passes from the parts of a reader to the whole.

A reader looks at one token behind those that it takes, so both hold whatever
comes behind that token: a failure at a token is one of every source that goes
on behind it in another way.

A phrase is a rule that is given by the tokens of its derivations, by the kinds
of tokens that one begins with, and by the kinds that one would go on with.
-/

import Constructions.Expression.Reader
import Constructions.Proofs.Outcome
import Constructions.Proofs.Grammar.Derivation

namespace Constructions

/-- The tokens ahead of a cursor. -/
def Cursor.ahead (c : Cursor) : List Token := c.rest.map Located.value

namespace Cursor

@[simp] theorem ahead_note (c : Cursor) (e : Expectation) : (c.note e).ahead = c.ahead := rfl

@[simp] theorem ahead_advance (c : Cursor) (locus : Nat) (rest : List (Located Token)) :
    (c.advance locus rest).ahead = rest.map Located.value := rfl

@[simp] theorem ahead_enter (c : Cursor) (n : Name) : (c.enter n).ahead = c.ahead := by
  unfold enter
  split <;> rfl

@[simp] theorem length_ahead (c : Cursor) : c.ahead.length = c.rest.length := List.length_map _

/-- The cursor `c'` has passed the tokens `us` that `c` has before it. -/
structure Past (c : Cursor) (us : List (Located Token)) (c' : Cursor) : Prop where
  rest : c.rest = us ++ c'.rest
  limit : c'.limit = c.limit

theorem Past.refl (c : Cursor) : c.Past [] c := ⟨rfl, rfl⟩

theorem Past.note (c : Cursor) (e : Expectation) : c.Past [] (c.note e) := ⟨rfl, rfl⟩

theorem Past.enter {c c' : Cursor} {us : List (Located Token)} (h : c.Past us c') {x : Name} :
    c.Past us (c'.enter x) := by
  unfold Cursor.enter
  split
  · exact h
  · exact ⟨h.rest, h.limit⟩

theorem Past.trans {c c₁ c₂ : Cursor} {us vs : List (Located Token)} (h : c.Past us c₁)
    (h' : c₁.Past vs c₂) : c.Past (us ++ vs) c₂ :=
  ⟨by rw [h.rest, h'.rest, List.append_assoc], h'.limit.trans h.limit⟩

theorem Past.ahead {c c' : Cursor} {us : List (Located Token)} (h : c.Past us c') :
    c.ahead = us.map Located.value ++ c'.ahead := by
  rw [Cursor.ahead, h.rest, List.map_append, Cursor.ahead]

theorem map_value_place (i : Nat) (ts : List Token) :
    (place i ts).map Located.value = Token.visible ts := by
  induction ts generalizing i with
  | nil => rfl
  | cons t ts ih => cases t <;> simp [place, Token.visible, Token.kind, ih]

/-- **A source is read without its blanks.** -/
@[simp] theorem ahead_start (ts : List Token) : (start ts).ahead = Token.visible ts :=
  map_value_place 0 ts

end Cursor

namespace Grammar

open Reader

variable {D E β γ : Type} {n m : Nat}

/-- The next token is of one of the kinds `ks`. -/
def Next (ks : List Token.Kind) : List Token → Prop
  | [] => False
  | t :: _ => t.kind ∈ ks

@[simp] theorem next_nil {ks : List Token.Kind} : ¬ Next ks [] := id

@[simp] theorem next_cons {ks : List Token.Kind} {t : Token} {ts : List Token} :
    Next ks (t :: ts) ↔ t.kind ∈ ks := Iff.rfl

@[simp] theorem not_next_kinds_nil {ts : List Token} : ¬ Next [] ts := by
  cases ts <;> simp

theorem next_append {ks ks' : List Token.Kind} {ts : List Token} :
    Next (ks ++ ks') ts ↔ Next ks ts ∨ Next ks' ts := by
  cases ts <;> simp

theorem not_next_cons {k : Token.Kind} {ks : List Token.Kind} {ts : List Token} :
    ¬ Next (k :: ks) ts ↔ ¬ Next [k] ts ∧ ¬ Next ks ts := by
  cases ts <;> simp

theorem Next.mono {ks ks' : List Token.Kind} {ts : List Token} (h : Next ks ts)
    (hks : ks ⊆ ks') : Next ks' ts := by
  cases ts with
  | nil => exact h
  | cons t ts => exact hks h

/-- The next token does not depend on those after it. -/
theorem next_congr {ks : List Token.Kind} {ts ts' : List Token} (h : ts.head? = ts'.head?) :
    Next ks ts ↔ Next ks ts' := by
  cases ts with
  | nil =>
    cases ts' with
    | nil => exact Iff.rfl
    | cons t' ts' => cases h
  | cons t ts =>
    obtain ⟨ts', rfl⟩ := List.head?_eq_some_iff.1 h.symm
    exact Iff.rfl

theorem head?_append_congr {us ts ts' : List Token} (h : ts.head? = ts'.head?) :
    (us ++ ts).head? = (us ++ ts').head? := by
  rw [List.head?_append, List.head?_append, h]

theorem Next.not_of_disjoint {ks ks' : List Token.Kind} {ts : List Token} (h : Next ks ts)
    (hd : ∀ k ∈ ks, k ∉ ks') : ¬ Next ks' ts := by
  cases ts with
  | nil => exact h.elim
  | cons t ts => exact hd _ h

/-- The derivations that may stand at the front of tokens, and what each leaves. -/
structure Rule (D : Type) where
  /-- The derivation stands at the front. -/
  Can : List Token → D → List Token → Prop
  /-- The derivation stands at the front, and what it leaves cannot go on where it ends. -/
  Must : List Token → D → List Token → Prop
  /-- What is left is no longer than what there was. -/
  length_le : ∀ {ts d r}, Can ts d r → r.length ≤ ts.length

namespace Rule

/-- Takes nothing and gives `d`. -/
def done (d : D) : Rule D where
  Can ts d' r := d' = d ∧ r = ts
  Must ts d' r := d' = d ∧ r = ts
  length_le := by rintro _ _ _ ⟨-, rfl⟩; exact Nat.le_refl _

/-- Derives nothing. -/
def never : Rule D where
  Can _ _ _ := False
  Must _ _ _ := False
  length_le := False.elim

/-- One rule after the other. -/
def bind (R : Rule D) (Q : D → Rule E) : Rule E where
  Can ts e r := ∃ d s, R.Can ts d s ∧ (Q d).Can s e r
  Must ts e r := ∃ d s, R.Must ts d s ∧ (Q d).Must s e r
  length_le := by
    rintro _ _ _ ⟨_, _, hR, hQ⟩
    exact Nat.le_trans ((Q _).length_le hQ) (R.length_le hR)

/-- The token `t`, and then a rule. -/
def token (t : Token) (R : Rule D) : Rule D where
  Can ts d r := ∃ s, ts = t :: s ∧ R.Can s d r
  Must ts d r := ∃ s, ts = t :: s ∧ R.Must s d r
  length_le := by
    rintro _ _ _ ⟨_, rfl, hR⟩
    exact Nat.le_succ_of_le (R.length_le hR)

/-- The token `t` and then `R`, or `Q` where that token does not come next. -/
def either (t : Token) (R Q : Rule D) : Rule D where
  Can ts d r := (token t R).Can ts d r ∨ ¬ Next [t.kind] ts ∧ Q.Can ts d r
  Must ts d r := (token t R).Must ts d r ∨ ¬ Next [t.kind] ts ∧ Q.Must ts d r
  length_le := by
    rintro _ _ _ (h | ⟨-, h⟩)
    · exact (token t R).length_le h
    · exact Q.length_le h

/-- A rule where one of the kinds `first` comes next, and nothing elsewhere. -/
def maybe (R : Rule D) (first : List Token.Kind) : Rule (Option D) where
  Can ts o r := match o with
    | some d => Next first ts ∧ R.Can ts d r
    | none => ¬ Next first ts ∧ r = ts
  Must ts o r := match o with
    | some d => Next first ts ∧ R.Must ts d r
    | none => ¬ Next first ts ∧ r = ts
  length_le := by
    rintro _ (_ | d) _ ⟨_, h⟩
    · exact Nat.le_of_eq (congrArg _ h)
    · exact R.length_le h

/-- Derivations of the tokens `yield`, which tokens of the kinds `more` might continue. -/
def spelled (yield : D → List Token) (more : List Token.Kind) : Rule D where
  Can ts d r := ts = yield d ++ r
  Must ts d r := ts = yield d ++ r ∧ ¬ Next more r
  length_le := by
    rintro _ _ _ rfl
    simp

end Rule

/-- The derivations of a rule with their tokens.  None of them is empty. -/
structure Phrase (D : Type) where
  yield : D → List Token
  /-- The kinds of tokens that a derivation begins with. -/
  first : List Token.Kind
  /-- The kinds of tokens that may continue a derivation. -/
  more : List Token.Kind
  begins : ∀ d r, Next first (yield d ++ r)

namespace Phrase

variable (P : Phrase D)

/-- The rule of a phrase. -/
def rule : Rule D := .spelled P.yield P.more

/-- The rule of a phrase that may be absent. -/
def maybe : Rule (Option D) := P.rule.maybe P.first

theorem length_lt {ts r : List Token} {d : D} (h : ts = P.yield d ++ r) :
    r.length < ts.length := by
  have hne : P.yield d ≠ [] := by
    intro h0
    have := P.begins d []
    rw [h0] at this
    exact this
  have := List.length_pos_iff.2 hne
  rw [h, List.length_append]
  omega

/-- What is left of a phrase after its first token `t`. -/
def after (t : Token) : Rule D where
  Can ts d r := t :: ts = P.yield d ++ r
  Must ts d r := t :: ts = P.yield d ++ r ∧ ¬ Next P.more r
  length_le h := Nat.le_of_lt_succ (P.length_lt h)

/-- Any number of phrases. -/
def list : Rule (List D) := .spelled (·.flatMap P.yield) (P.more ++ P.first)

/-- In a list, a phrase ends before what follows it. -/
theorem not_next_list {ds : List D} {r : List Token} (hsep : ∀ k ∈ P.first, k ∉ P.more)
    (hr : ¬ Next (P.more ++ P.first) r) : ¬ Next P.more (ds.flatMap P.yield ++ r) := by
  cases ds with
  | nil => exact fun h => hr (next_append.2 (.inl h))
  | cons d ds =>
    rw [List.flatMap_cons, List.append_assoc]
    exact (P.begins d _).not_of_disjoint hsep

/-- Phrases in braces, with commas between them and perhaps a comma at the end. -/
def braced : Rule (List D × Bool) := .spelled (fun x => bracedYield (x.1.map P.yield) x.2) []

/-- Lists of phrases in the spelling `items`, perhaps with a comma at the end, up to a closing
brace. -/
def upToBrace (items : List (List Token) → List Token) : Rule (List D × Bool) where
  Can ts x r := ts = items (x.1.map P.yield) ++ (if x.2 then [.symbol .comma] else []) ++ r
  Must ts x r := ts = items (x.1.map P.yield) ++ (if x.2 then [.symbol .comma] else []) ++ r ∧
    Next [.symbol .curlyR] r
  length_le := by
    rintro _ _ _ rfl
    rw [List.length_append]
    exact Nat.le_add_left _ _

/-- What follows the first phrase in braces. -/
def others : Rule (List D × Bool) := P.upToBrace (·.flatMap (.symbol .comma :: ·))

/-- What stands between braces. -/
def items : Rule (List D × Bool) := P.upToBrace separated

end Phrase

/-- Things in braces are shown one by one; the comma at the end does not show. -/
def Listed (V : β → D → Prop) (bs : List β) (x : List D × Bool) : Prop := List.Forall₂ V bs x.1

/-- A number that is no universe level. -/
def Oversized (t : Located Token) : Prop :=
  ∃ digits, t.value = .number digits ∧ level? digits = none

/-- **An outcome finds the derivation** at the front of what `c` has before it: what is returned is
shown by a derivation that can stand there, and it is the only one that must; after a failure, none
must.  Neither depends on what comes behind the next token.  A failure lies at the token that the
reader has come to, unless it is right behind a number that is no level. -/
def Finds (V : β → D → Prop) (R : Rule D) (c : Cursor) (x : Except ReadFailure (β × Cursor)) :
    Prop :=
  Post x (fun y => ∃ d us, c.Past us y.2 ∧ V y.1 d ∧ R.Can c.ahead d y.2.ahead ∧
      ∀ s, s.head? = y.2.ahead.head? → ∀ d' r, R.Must (us.map Located.value ++ s) d' r →
        d' = d ∧ r = s)
    (fun f => ∃ us c', c.Past us c' ∧ (f.error.location = c'.here ∨ ∃ t ∈ us, Oversized t) ∧
      ∀ s, s.head? = c'.ahead.head? → ∀ d r, ¬ R.Must (us.map Located.value ++ s) d r)

/-- A reader follows a rule on less than `n` tokens: it finds the derivation at their front. -/
def Follows (n : Nat) (V : β → D → Prop) (p : Reader β) (R : Rule D) : Prop :=
  ∀ c : Cursor, c.ahead.length < n → Finds V R c (p c)

/-- What is found behind some tokens is found with them, for a rule that goes on behind them. -/
theorem Finds.behind {V : β → D → Prop} {R R' : Rule D} {c c₀ : Cursor}
    {us₀ : List (Located Token)} {x : Except ReadFailure (β × Cursor)} (h : Finds V R c x)
    (hpast : c₀.Past us₀ c) (hcan : ∀ {d r}, R.Can c.ahead d r → R'.Can c₀.ahead d r)
    (hmust : ∀ {s d r}, s.head? = c.ahead.head? → R'.Must (us₀.map Located.value ++ s) d r →
      R.Must s d r) : Finds V R' c₀ x := by
  refine Post.mono h ?_ ?_
  · rintro y ⟨d, us, hus, hv, hd, hu⟩
    refine ⟨d, us₀ ++ us, hpast.trans hus, hv, hcan hd, fun s hs d' r h' => ?_⟩
    rw [List.map_append, List.append_assoc] at h'
    exact hu s hs d' r (hmust (hus.ahead ▸ head?_append_congr hs) h')
  · rintro f ⟨us, c', hus, hf, hno⟩
    refine ⟨us₀ ++ us, c', hpast.trans hus, hf.imp id ?_, fun s hs d r h' => ?_⟩
    · rintro ⟨t, ht, hsize⟩
      exact ⟨t, List.mem_append_right _ ht, hsize⟩
    rw [List.map_append, List.append_assoc] at h'
    exact hno s hs d r (hmust (hus.ahead ▸ head?_append_congr hs) h')

/-- **Where a phrase cannot begin, nothing is found.** -/
theorem Finds.nothing {V : β → D → Prop} {P : Phrase D} {c c' : Cursor}
    (hts : ¬ Next P.first c.ahead) (hc : c.Past [] c') :
    Finds (Option.Rel V) P.maybe c (.ok (none, c')) := by
  have hahead : c.ahead = c'.ahead := hc.ahead
  refine ⟨none, [], hc, .none, ⟨hts, hahead.symm⟩, ?_⟩
  rintro s hs (_ | d) r ⟨hn, hd⟩
  · exact ⟨rfl, hd⟩
  · rw [← hahead] at hs
    exact absurd ((next_congr hs).1 hn) hts

namespace Follows

variable {V : β → D → Prop} {W : γ → E → Prop} {R R' : Rule D} {Q : D → Rule E} {p : Reader β}

/-- Fewer tokens. -/
theorem anti (h : Follows n V p R) (hm : m ≤ n) : Follows m V p R :=
  fun c hc => h c (Nat.lt_of_lt_of_le hc hm)

/-- A reader that is given as many levels as there are tokens, and one more. -/
theorem ofLevels {q : Nat → Reader β} (h : ∀ m ≤ n, Follows m V (q m) R) :
    Follows n V (fun c => q (c.rest.length + 1) c) R := by
  intro c hc
  rw [Cursor.length_ahead] at hc
  exact h _ hc c (by rw [Cursor.length_ahead]; exact Nat.lt_succ_self _)

/-- **A reader follows every rule between `Must` and `Can`.** -/
theorem mono (h : Follows n V p R) (hcan : ∀ {ts d r}, R.Can ts d r → R'.Can ts d r)
    (hmust : ∀ {ts d r}, R'.Must ts d r → R.Must ts d r) : Follows n V p R' :=
  fun c hc => (h c hc).behind (.refl c) hcan fun _ => hmust

theorem imp {V' : β → D → Prop} (h : Follows n V p R) (hv : ∀ {b d}, V b d → V' b d) :
    Follows n V' p R := by
  refine fun c hc => Post.mono (h c hc) ?_ fun _ hno => hno
  rintro y ⟨d, us, hus, hb, hd⟩
  exact ⟨d, us, hus, hv hb, hd⟩

/-- **Soundness:** what is read can be derived. -/
theorem can {c c' : Cursor} {b : β} (h : ∀ n, Follows n V p R) (hx : p c = .ok (b, c')) :
    ∃ d, V b d ∧ R.Can c.ahead d c'.ahead := by
  obtain ⟨d, us, -, hv, hd, -⟩ := Post.of_ok (h _ c (Nat.lt_succ_self _)) hx
  exact ⟨d, hv, hd⟩

/-- **Completeness:** what must be derived is read. -/
theorem must {c : Cursor} {d : D} {r : List Token} (h : ∀ n, Follows n V p R)
    (hd : R.Must c.ahead d r) : ∃ b c', p c = .ok (b, c') ∧ V b d ∧ c'.ahead = r := by
  have hc := h _ c (Nat.lt_succ_self _)
  cases hx : p c with
  | error f =>
    obtain ⟨us, c', hus, -, hno⟩ := Post.of_error hc hx
    exact absurd (hus.ahead ▸ hd) (hno _ rfl d r)
  | ok x =>
    obtain ⟨d', us, hus, hv, -, hu⟩ := Post.of_ok hc hx
    obtain ⟨rfl, rfl⟩ := hu _ rfl d r (hus.ahead ▸ hd)
    exact ⟨x.1, x.2, rfl, hv, rfl⟩

/-- **Unambiguity:** one derivation at most must be made. -/
theorem unique {c : Cursor} {d d' : D} {r r' : List Token} (h : ∀ n, Follows n V p R)
    (hd : R.Must c.ahead d r) (hd' : R.Must c.ahead d' r') : d = d' ∧ r = r' := by
  have hc := h _ c (Nat.lt_succ_self _)
  cases hx : p c with
  | error f =>
    obtain ⟨us, c', hus, -, hno⟩ := Post.of_error hc hx
    exact absurd (hus.ahead ▸ hd) (hno _ rfl d r)
  | ok x =>
    obtain ⟨d₀, us, hus, -, -, hu⟩ := Post.of_ok hc hx
    obtain ⟨rfl, rfl⟩ := hu _ rfl d r (hus.ahead ▸ hd)
    obtain ⟨rfl, rfl⟩ := hu _ rfl d' r' (hus.ahead ▸ hd')
    exact ⟨rfl, rfl⟩

theorem pure {b : β} {d : D} (h : V b d) : Follows n V (pure b : Reader β) (.done d) := by
  intro c _
  refine ⟨d, [], .refl c, h, ⟨rfl, rfl⟩, ?_⟩
  rintro s - d' r ⟨rfl, rfl⟩
  exact ⟨rfl, rfl⟩

theorem fail : Follows n V (fail : Reader β) .never := by
  refine fun c _ => ⟨[], c, .refl c, .inl rfl, ?_⟩
  rintro s - d r ⟨⟩

/-- **A sequence of readers follows the sequence of their rules.**  The second reader only has the
tokens that the first one leaves. -/
theorem bindOn {q : β → Reader γ} (hp : Follows n V p R)
    (hq : ∀ {b d ts r}, V b d → ts.length < n → R.Can ts d r →
      Follows (r.length + 1) W (q b) (Q d)) : Follows n W (p >>= q) (R.bind Q) := by
  intro c hc
  have hpc := hp c hc
  change Finds W (R.bind Q) c (p c >>= fun x => q x.1 x.2)
  cases hx : p c with
  | error f =>
    obtain ⟨us, c', hus, hf, hno⟩ := hpc.of_error hx
    refine ⟨us, c', hus, hf, ?_⟩
    rintro s hs e r ⟨d, s', hd, -⟩
    exact hno s hs d s' hd
  | ok x =>
    obtain ⟨d, us, hus, hv, hd, hu⟩ := hpc.of_ok hx
    refine (hq hv hc hd x.2 (Nat.lt_succ_self _)).behind hus (fun he => ⟨d, x.2.ahead, hd, he⟩) ?_
    rintro s e r hs ⟨d', s', hd', he⟩
    obtain ⟨rfl, rfl⟩ := hu s hs d' s' hd'
    exact he

theorem bind {q : β → Reader γ} (hp : Follows n V p R)
    (hq : ∀ b d, V b d → Follows n W (q b) (Q d)) : Follows n W (p >>= q) (R.bind Q) :=
  hp.bindOn fun hv hts hd =>
    (hq _ _ hv).anti (Nat.lt_of_le_of_lt (R.length_le hd) hts)

/-- A derivation may be taken for one of another rule. -/
theorem via {W : β → E → Prop} (f : D → E) (hp : Follows n V p R)
    (hvw : ∀ b d, V b d → W b (f d)) : Follows n W p (R.bind fun d => .done (f d)) := by
  have h : Follows n W (p >>= Pure.pure) (R.bind fun d => .done (f d)) :=
    hp.bind fun b d hv => pure (hvw b d hv)
  rwa [bind_pure] at h

/-- A reader that may find nothing, and what is read in either case. -/
theorem option {o : Reader (Option β)} {k : Option β → Reader γ} {S : Rule (Option D)}
    {T : Rule E} (ho : Follows n (Option.Rel V) o S)
    (hsome : ∀ b d, V b d → Follows n W (k (some b)) (Q d)) (hnone : Follows n W (k none) T) :
    Follows n W (o >>= k) (S.bind fun d => d.elim T Q) := by
  refine ho.bind fun b d h => ?_
  cases h with
  | some h => exact hsome _ _ h
  | none => exact hnone

/-- **Looking at the cursor does not matter to a rule.** -/
theorem look {σ : Type} {x : Reader σ} {q : σ → Reader β} (hx : ∀ c, ∃ s, x c = .ok (s, c))
    (hq : ∀ s, Follows n V (q s) R) : Follows n V (x >>= q) R := by
  intro c hc
  obtain ⟨s, hs⟩ := hx c
  change Finds V R c (x c >>= fun y => q y.1 y.2)
  rw [hs]
  exact hq s c hc

theorem here {q : Nat → Reader β} (hq : ∀ s, Follows n V (q s) R) :
    Follows n V (Reader.here >>= q) R := look (fun c => ⟨c.here, rfl⟩) hq

theorem spanFrom {start : Nat} {q : Span → Reader β} (hq : ∀ s, Follows n V (q s) R) :
    Follows n V (Reader.spanFrom start >>= q) R := look (fun c => ⟨⟨start, c.stop⟩, rfl⟩) hq

end Follows

/-- **What `accept` does:** it takes the token `t` if that comes next, and nothing otherwise. -/
theorem accept_cases {k : Token.Kind} {t : Token} (ht : ∀ u : Token, u.kind = k ↔ u = t)
    (c : Cursor) :
    (∃ c' locus, accept k c = .ok (true, c') ∧ c.Past [⟨t, locus⟩] c') ∨
      ∃ c', accept k c = .ok (false, c') ∧ c.Past [] c' ∧ ¬ Next [t.kind] c.ahead := by
  cases hrest : c.rest with
  | nil =>
    refine .inr ⟨c.note (.token k), ?_, .note c _, ?_⟩
    · simp only [accept, hrest]
    · simp [Cursor.ahead, hrest]
  | cons u rest =>
    by_cases hu : u.value.kind = k
    · refine .inl ⟨c.advance u.locus rest, u.locus, ?_, ?_, rfl⟩
      · simp only [accept, hrest, hu, if_true]
      · rw [hrest, ← (ht _).1 hu]
        rfl
    · refine .inr ⟨c.note (.token k), ?_, .note c _, ?_⟩
      · simp only [accept, hrest, hu, if_false]
      · rw [Cursor.ahead, hrest, List.map_cons, next_cons, List.mem_singleton, (ht t).2 rfl]
        exact hu

/-- Going on in the same way whether a token was taken or not. -/
theorem accept_bind_const (k : Token.Kind) (p : Reader β) :
    (accept k >>= fun _ => p) = accept k >>= fun b => if b = true then p else p := by
  congr 1
  funext b
  rw [ite_self]

@[simp] theorem kind_symbol (s : Symbol) : (Token.symbol s).kind = .symbol s := rfl

@[simp] theorem kind_word (k : Keyword) : (Token.word k).kind = .word k := rfl

@[simp] theorem kind_name (n : Name) : (Token.name n).kind = .name := rfl

@[simp] theorem kind_number (digits : String) : (Token.number digits).kind = .number := rfl

theorem kind_eq_symbol (s : Symbol) (u : Token) : u.kind = .symbol s ↔ u = .symbol s := by
  cases u <;> simp [Token.kind]

theorem kind_eq_word (k : Keyword) (u : Token) : u.kind = .word k ↔ u = .word k := by
  cases u <;> simp [Token.kind]

namespace Follows

variable {V : β → D → Prop} {W : γ → E → Prop} {R S : Rule D} {Q : D → Rule E} {p : Reader β}
  {k : Token.Kind} {t : Token} {P : Phrase D} {o : Reader (Option β)}

/-- **The next token decides between two readers.**  The first of them has one token less. -/
theorem branch {A B : Reader β} (ht : ∀ u : Token, u.kind = k ↔ u = t) (hm : n ≤ m + 1)
    (hA : Follows m V A R) (hB : Follows n V B S) :
    Follows n V (accept k >>= fun b => if b = true then A else B) (.either t R S) := by
  intro c hc
  change Finds V (R.either t S) c (accept k c >>= fun x => (if x.1 = true then A else B) x.2)
  rcases accept_cases ht c with ⟨c', locus, hc', hpast⟩ | ⟨c', hc', hpast, hne⟩
  · have hahead : c.ahead = t :: c'.ahead := hpast.ahead
    have hlen : c'.ahead.length < m := by
      rw [hahead, List.length_cons] at hc
      omega
    rw [hc']
    refine (hA c' hlen).behind hpast (fun hd => .inl ⟨_, hahead, hd⟩) ?_
    rintro s d r - (⟨s', hs', hd⟩ | ⟨hne, -⟩)
    · cases hs'
      exact hd
    · exact absurd (List.mem_singleton_self _) hne
  · have hahead : c.ahead = c'.ahead := hpast.ahead
    rw [hahead] at hc hne
    rw [hc']
    refine (hB c' hc).behind hpast (fun hd => .inr ⟨hahead ▸ hne, hahead ▸ hd⟩) ?_
    rintro s d r hs (⟨s', hs', -⟩ | ⟨-, hd⟩)
    · refine absurd ((next_congr hs).1 ?_) hne
      rw [show s = t :: s' from hs']
      exact List.mem_singleton_self _
    · exact hd

theorem expect (ht : ∀ u : Token, u.kind = k ↔ u = t) (hp : Follows n V p R) :
    Follows n V (expect k >>= fun _ => p) (.token t R) := by
  have h : Follows n (fun _ _ => True) (Reader.expect k) (.either t (.done ()) .never) :=
    branch ht (Nat.le_succ n) (pure trivial) fail
  refine (h.bind fun _ _ _ => hp).mono ?_ ?_
  · rintro _ d r ⟨_, _, ⟨s, rfl, -, rfl⟩ | ⟨-, h⟩, hd⟩
    · exact ⟨_, rfl, hd⟩
    · exact h.elim
  · rintro _ d r ⟨s, rfl, hd⟩
    exact ⟨(), s, .inl ⟨s, rfl, rfl, rfl⟩, hd⟩

/-- **What has to come next follows the rule itself.** -/
theorem require (ho : Follows n (Option.Rel V) o P.maybe) : Follows n V (require o) P.rule := by
  have h : Follows n V (Reader.require o) (P.maybe.bind fun d => d.elim .never .done) :=
    ho.option (fun _ _ hv => pure hv) fail
  refine h.mono ?_ ?_
  · rintro ts d r ⟨_ | d', s, ⟨-, hd⟩, h⟩
    · exact h.elim
    · obtain ⟨rfl, rfl⟩ := h
      exact hd
  · rintro _ d r ⟨rfl, hr⟩
    exact ⟨some d, r, ⟨P.begins d r, rfl, hr⟩, rfl, rfl⟩

/-- A reader that gives what another one finds in another form. -/
theorem map {k : Option β → Reader (Option γ)} {W : γ → D → Prop}
    (ho : Follows n (Option.Rel V) o P.maybe)
    (hsome : ∀ b d, V b d → Follows n (Option.Rel W) (k (some b)) (.done (some d)))
    (hnone : Follows n (Option.Rel W) (k none) (.done none)) :
    Follows n (Option.Rel W) (o >>= k) P.maybe := by
  refine (ho.option hsome hnone).mono ?_ ?_
  · rintro ts d r ⟨_ | d', s, hd, rfl, rfl⟩
    · exact hd
    · exact hd
  · rintro ts (_ | d) r hd
    · exact ⟨none, r, hd, rfl, rfl⟩
    · exact ⟨some d, r, hd, rfl, rfl⟩

theorem found (hp : Follows n V p R) :
    Follows n (Option.Rel V) (some <$> p) (R.bind fun d => .done (some d)) :=
  hp.bind fun _ _ hv => pure (.some hv)

/-- **Reading until nothing fits follows the rule of a list,** if no phrase goes on with what one
begins with. -/
theorem many (ho : Follows n (Option.Rel V) o P.maybe) (hsep : ∀ k ∈ P.first, k ∉ P.more) :
    Follows n (List.Forall₂ V) (many o) P.list := by
  refine ofLevels fun m hm => ?_
  induction m with
  | zero => exact fun c hc => absurd hc (Nat.not_lt_zero _)
  | succ m ih =>
    have hstep : Follows (m + 1) (List.Forall₂ V) (manyUpTo o (m + 1))
        (P.maybe.bind fun x => x.elim (.done []) fun d =>
          P.list.bind fun ds => .done (d :: ds)) := by
      refine (ho.anti hm).bindOn fun {b d ts r} hv hts hd => ?_
      cases hv with
      | none => exact pure .nil
      | some hv =>
        have hlt := P.length_lt hd.2
        refine ((ih (by omega)).anti (by omega)).bind fun bs ds hvs => ?_
        exact pure (.cons hv hvs)
    refine hstep.mono ?_ ?_
    · rintro ts ds r ⟨_ | d, s, ⟨-, hd⟩, h⟩
      · obtain ⟨rfl, rfl⟩ := h
        exact hd.symm
      · obtain ⟨ds', _, hds, rfl, rfl⟩ := h
        rw [show ts = P.yield d ++ s from hd, show s = ds'.flatMap P.yield ++ r from hds]
        exact (List.append_assoc ..).symm
    · rintro ts (_ | ⟨d, ds⟩) r ⟨hts, hr⟩
      · rw [next_append, not_or] at hr
        refine ⟨none, r, ⟨?_, hts.symm⟩, rfl, rfl⟩
        rw [hts]
        exact hr.2
      · have hts' : ts = P.yield d ++ (ds.flatMap P.yield ++ r) := by
          rw [hts, ← List.append_assoc]
          rfl
        exact ⟨some d, _, ⟨hts' ▸ P.begins d _, hts', P.not_next_list hsep hr⟩, ds, r, ⟨rfl, hr⟩,
          rfl, rfl⟩

/-- What a reader of things in braces does between the braces, apart from the braces. -/
theorem braced_eq (o : Reader (Option β)) :
    Reader.braced o = (expectSymbol .curlyL >>= fun _ =>
      (o >>= fun x => match x with
        | some a => (fun c => moreUpTo o (c.rest.length + 1) c) >>= fun as => Pure.pure (a :: as)
        | none => acceptSymbol .comma >>= fun _ => Pure.pure []) >>= fun bs =>
      expectSymbol .curlyR >>= fun _ => Pure.pure bs) := by
  unfold Reader.braced
  congr 1
  funext _
  rw [bind_assoc]
  congr 1
  funext x
  cases x with
  | some a => rw [bind_assoc]
  | none => rw [bind_assoc]

/-- A phrase in braces ends before what follows it there. -/
theorem not_next_others {tss : List (List Token)} {trailing : Bool} {r : List Token}
    {more : List Token.Kind} (hmore : .symbol .comma ∉ more ∧ .symbol .curlyR ∉ more)
    (hr : Next [.symbol .curlyR] r) :
    ¬ Next more (tss.flatMap (.symbol .comma :: ·) ++ (if trailing then [.symbol .comma] else []) ++
      r) := by
  cases tss with
  | nil =>
    cases trailing with
    | true => exact hmore.1
    | false => exact hr.not_of_disjoint (by simpa using hmore.2)
  | cons ts tss => exact hmore.1

/-- **Reading on after the first phrase in braces follows the rule of the others.** -/
theorem others (ho : Follows n (Option.Rel V) o P.maybe) (hfirst : .symbol .curlyR ∉ P.first)
    (hmore : .symbol .comma ∉ P.more ∧ .symbol .curlyR ∉ P.more) (hm : m ≤ n) :
    Follows m (Listed V) (moreUpTo o m) P.others := by
  induction m with
  | zero => exact fun c hc => absurd hc (Nat.not_lt_zero _)
  | succ m ih =>
    have hm' : m ≤ n := Nat.le_of_succ_le hm
    have hstep : Follows (m + 1) (Listed V) (moreUpTo o (m + 1))
        (.either (.symbol .comma)
          (P.maybe.bind fun x => x.elim (.done ([], true)) fun d =>
            P.others.bind fun x => .done (d :: x.1, x.2))
          (.done ([], false))) := by
      refine branch (kind_eq_symbol .comma) (Nat.le_refl _) ?_ (pure .nil)
      refine (ho.anti hm').option (fun b d hv => ?_) (pure .nil)
      exact (ih hm').bind fun bs x hvs => pure (.cons hv hvs)
    refine hstep.mono ?_ ?_
    · rintro ts x r (⟨s, rfl, _ | d, u, ⟨-, hd⟩, h⟩ | ⟨-, rfl, rfl⟩)
      · obtain ⟨rfl, rfl⟩ := h
        rw [hd]
        rfl
      · obtain ⟨x', _, hx, rfl, rfl⟩ := h
        rw [show s = P.yield d ++ u from hd, show u = _ from hx]
        simp [Phrase.others, Phrase.upToBrace]
      · rfl
    · rintro ts ⟨_ | ⟨d, ds⟩, trailing⟩ r ⟨hts, hr⟩
      · cases trailing with
        | true =>
          refine .inl ⟨r, hts, none, r, ⟨hr.not_of_disjoint ?_, rfl⟩, rfl, rfl⟩
          simpa using hfirst
        | false =>
          have hts : ts = r := hts
          subst hts
          exact .inr ⟨hr.not_of_disjoint (by simp), rfl, rfl⟩
      · have hts' : ts = .symbol .comma :: (P.yield d ++
            ((ds.map P.yield).flatMap (.symbol .comma :: ·) ++
              (if trailing then [.symbol .comma] else []) ++ r)) := by
          rw [hts]
          simp
        refine .inl ⟨_, hts', some d, _, ⟨P.begins d _, rfl, ?_⟩, (ds, trailing), r, ⟨rfl, hr⟩,
          rfl, rfl⟩
        exact not_next_others hmore hr

/-- **What stands between braces:** nothing, a comma alone, or a phrase and the others. -/
theorem items (ho : Follows n (Option.Rel V) o P.maybe)
    (hfirst : .symbol .comma ∉ P.first ∧ .symbol .curlyR ∉ P.first)
    (hmore : .symbol .comma ∉ P.more ∧ .symbol .curlyR ∉ P.more) :
    Follows n (Listed V)
      (o >>= fun x => match x with
        | some a => (fun c => moreUpTo o (c.rest.length + 1) c) >>= fun as => Pure.pure (a :: as)
        | none => acceptSymbol .comma >>= fun _ => Pure.pure []) P.items := by
  have hothers : Follows n (Listed V) (fun c => moreUpTo o (c.rest.length + 1) c) P.others :=
    ofLevels fun m hm => ho.others hfirst.2 hmore hm
  rw [acceptSymbol, accept_bind_const]
  refine (ho.option (fun b d hv => hothers.bind fun bs x hvs => pure (d := (d :: x.1, x.2))
    (.cons hv hvs)) (branch (kind_eq_symbol .comma) (Nat.le_succ n) (pure (d := ([], true)) .nil)
      (pure (d := ([], false)) .nil))).mono ?_ ?_
  · rintro ts x r ⟨_ | d, s, ⟨-, hd⟩, h⟩
    · rcases h with ⟨u, rfl, rfl, rfl⟩ | ⟨-, rfl, rfl⟩
      · exact hd.symm
      · exact hd.symm
    · obtain ⟨x', _, hx, rfl, rfl⟩ := h
      rw [show ts = P.yield d ++ s from hd, show s = _ from hx]
      simp [Phrase.items, Phrase.upToBrace, separated]
  · rintro ts ⟨_ | ⟨d, ds⟩, trailing⟩ r ⟨hts, hr⟩
    · cases trailing with
      | true =>
        have hts : ts = .symbol .comma :: r := hts
        subst hts
        exact ⟨none, _, ⟨hfirst.1, rfl⟩, .inl ⟨r, rfl, rfl, rfl⟩⟩
      | false =>
        have hts : ts = r := hts
        subst hts
        exact ⟨none, _, ⟨hr.not_of_disjoint (by simpa using hfirst.2), rfl⟩,
          .inr ⟨hr.not_of_disjoint (by simp), rfl, rfl⟩⟩
    · have hts' : ts = P.yield d ++ ((ds.map P.yield).flatMap (.symbol .comma :: ·) ++
          (if trailing then [.symbol .comma] else []) ++ r) := by
        rw [hts]
        simp [separated]
      exact ⟨some d, _, ⟨hts' ▸ P.begins d _, hts', not_next_others hmore hr⟩, (ds, trailing), r,
        ⟨rfl, hr⟩, rfl, rfl⟩

theorem braced (ho : Follows n (Option.Rel V) o P.maybe)
    (hfirst : .symbol .comma ∉ P.first ∧ .symbol .curlyR ∉ P.first)
    (hmore : .symbol .comma ∉ P.more ∧ .symbol .curlyR ∉ P.more) :
    Follows n (Listed V) (braced o) P.braced := by
  have h := expect (kind_eq_symbol .curlyL) ((ho.items hfirst hmore).bind fun bs x hvs =>
    expect (kind_eq_symbol .curlyR) (pure (V := Listed V) (d := x) hvs))
  rw [braced_eq]
  refine h.mono ?_ ?_
  · rintro _ x r ⟨_, rfl, _, _, rfl, _, rfl, rfl, rfl⟩
    simp [Phrase.braced, Rule.spelled, bracedYield]
  · rintro _ x r ⟨rfl, -⟩
    refine ⟨_, rfl, x, .symbol .curlyR :: r, ⟨?_, List.mem_singleton_self _⟩, r, rfl, rfl, rfl⟩
    simp

end Follows

/-! ## Whole sources -/

/-- **A parser accepts exactly a grammar** that is given by the tokens and the trees of its
derivations: -/
structure Exact {α : Type} (yield : D → List Token) (tree : D → α) (view : β → α)
    (parse : List Token → Reading β) : Prop where
  /-- it accepts a source iff the tokens that are not blank have a derivation; -/
  accepts : ∀ ts, (∃ b, (parse ts).result = .ok b) ↔ ∃ d, yield d = Token.visible ts
  /-- no tokens have two derivations; -/
  unique : ∀ d d', yield d = yield d' → d = d'
  /-- it returns what the derivation stands for; -/
  returns : ∀ ts b d, (parse ts).result = .ok b → yield d = Token.visible ts → view b = tree d
  /-- and blanks do not matter to what it returns. -/
  blanks : ∀ ts ts', Token.visible ts = Token.visible ts' →
    (parse ts).result.toOption.map view = (parse ts').result.toOption.map view

/-- Reading to the end succeeds iff nothing is left. -/
theorem read_toEnd_eq_ok {p : Reader β} {ts : List Token} {b : β} :
    ((toEnd p).read ts).result = .ok b ↔ ∃ c, p (.start ts) = .ok (b, c) ∧ c.ahead = [] := by
  cases hx : p (.start ts) with
  | error f => simp [Reader.read, toEnd, bind, StateT.bind, Except.bind, hx]
  | ok x =>
    obtain ⟨a, c⟩ := x
    cases hrest : c.rest with
    | nil => simp [Reader.read, toEnd, bind, StateT.bind, Except.bind, hx, hrest, Cursor.ahead]
    | cons t rest =>
      simp [Reader.read, toEnd, bind, StateT.bind, Except.bind, hx, hrest, Cursor.ahead, fail]

section

variable {α : Type} {p : Reader β} {yield : D → List Token} {more : List Token.Kind}
  {view : β → α} {tree : D → α} {ts ts' : List Token} {b : β} {d : D}

/-- A derivation of all tokens leaves nothing that could continue it. -/
theorem Rule.must_nil (hd : yield d = ts) : (spelled yield more).Must ts d [] :=
  ⟨by rw [hd, List.append_nil], next_nil⟩

variable (h : ∀ n, Follows n (fun b d => view b = tree d) p (.spelled yield more))

include h

theorem Follows.read_sound (hb : ((toEnd p).read ts).result = .ok b) :
    ∃ d, yield d = Token.visible ts := by
  obtain ⟨c, hc, hend⟩ := read_toEnd_eq_ok.1 hb
  obtain ⟨d, -, hd⟩ := Follows.can h hc
  have hd : (Cursor.start ts).ahead = yield d ++ c.ahead := hd
  rw [hend, List.append_nil, Cursor.ahead_start] at hd
  exact ⟨d, hd.symm⟩

theorem Follows.read_complete (hd : yield d = Token.visible ts) :
    ∃ b, ((toEnd p).read ts).result = .ok b ∧ view b = tree d := by
  rw [← Cursor.ahead_start] at hd
  obtain ⟨b, c, hc, hv, hend⟩ := Follows.must h (Rule.must_nil hd)
  exact ⟨b, read_toEnd_eq_ok.2 ⟨c, hc, hend⟩, hv⟩

theorem Follows.yield_injective {d d' : D} (hd : yield d = yield d') : d = d' := by
  -- any cursor before these tokens will do
  have hahead : (Cursor.mk ((yield d).map (⟨·, 0⟩)) 0 0 [] []).ahead = yield d := by
    simp [Cursor.ahead, Function.comp_def]
  exact (Follows.unique h (Rule.must_nil hahead.symm)
    (Rule.must_nil (hd.symm.trans hahead.symm))).1

theorem Follows.read_blanks (hts : Token.visible ts = Token.visible ts') :
    ((toEnd p).read ts).result.toOption.map view =
      ((toEnd p).read ts').result.toOption.map view := by
  by_cases hex : ∃ d, yield d = Token.visible ts
  · obtain ⟨d, hd⟩ := hex
    obtain ⟨b, hb, hv⟩ := Follows.read_complete h hd
    obtain ⟨b', hb', hv'⟩ := Follows.read_complete h (hd.trans hts)
    rw [hb, hb']
    exact congrArg some (hv.trans hv'.symm)
  · have hnone : ∀ {us}, Token.visible us = Token.visible ts →
        ((toEnd p).read us).result.toOption = none := by
      intro us hus
      cases hres : ((toEnd p).read us).result with
      | error e => rfl
      | ok b => exact absurd (hus ▸ Follows.read_sound h hres) hex
    rw [hnone rfl, hnone hts.symm]

/-- **A reader that follows a rule parses its derivations exactly.** -/
theorem Follows.exact : Exact yield tree view (toEnd p).read where
  accepts ts := by
    constructor
    · rintro ⟨b, hb⟩
      exact Follows.read_sound h hb
    · rintro ⟨d, hd⟩
      obtain ⟨b, hb, -⟩ := Follows.read_complete h hd
      exact ⟨b, hb⟩
  unique _ _ := Follows.yield_injective h
  returns ts b d hb hd := by
    obtain ⟨b', hb', hv⟩ := Follows.read_complete h hd
    cases hb.symm.trans hb'
    exact hv
  blanks _ _ := Follows.read_blanks h

end

end Grammar
end Constructions
