/-
# Where a reader stands

A cursor sits among the tokens of a source (`Cursor.Sits`) if it has before it just the tokens from
its position on that are not blank.  So all that matters of it is the position after the last token
read, and a statement about a reader is one about two positions:

| statement | meaning |
| --- | --- |
| `Took ts i t j` | from `i`, the token `t` was read and nothing else, and it ends at `j` |
| `Stretch ts i j` | from `i`, at least one token was read, and the last one ends at `j` |
| `Reads ts i p Q` | if `p` returns `b` from `i` and then stands at `j`, then `Q b j` |

The rules for `Reads` follow the shape of a reader, from its first token to its last.
-/

import Constructions.Proofs.Grammar.Rule

namespace Constructions

namespace Cursor

/-- The first token that is not blank, and those after it. -/
theorem place_eq_cons {i : Nat} {ts : List Token} {t : Located Token} {rest : List (Located Token)}
    (h : place i ts = t :: rest) :
    ∃ k, t.locus = i + k ∧ ts[k]? = some t.value ∧ t.value.kind ≠ .blank ∧
      rest = place (t.locus + 1) (ts.drop (k + 1)) := by
  induction ts generalizing i with
  | nil => cases h
  | cons u ts ih =>
    cases u with
    | blank s =>
      obtain ⟨k, hk, ht, hkind, hrest⟩ := ih h
      exact ⟨k + 1, by omega, ht, hkind, hrest⟩
    | _ =>
      cases h
      exact ⟨0, rfl, rfl, by simp [Token.kind], rfl⟩

/-- Before the first token that is not blank there are blanks only. -/
theorem blank_of_place {i k : Nat} {ts : List Token} (hk : k < ts.length)
    (h : ∀ t ∈ (place i ts).head?, i + k < t.locus) : ∃ s, ts[k]? = some (.blank s) := by
  induction ts generalizing i k with
  | nil => cases hk
  | cons u ts ih =>
    cases u with
    | blank s =>
      cases k with
      | zero => exact ⟨s, rfl⟩
      | succ k =>
        refine ih (i := i + 1) (Nat.lt_of_succ_lt_succ hk) fun t ht => ?_
        have := h t ht
        omega
    | _ =>
      have : i + k < i := h _ rfl
      omega

/-- **The cursor stands among the tokens `ts`:** what it has before it are those from its position
on. -/
structure Sits (ts : List Token) (c : Cursor) : Prop where
  rest : c.rest = place c.stop (ts.drop c.stop)
  limit : c.limit = ts.length
  stop_le : c.stop ≤ ts.length

theorem sits_start (ts : List Token) : (start ts).Sits ts := ⟨rfl, rfl, Nat.zero_le _⟩

end Cursor

namespace Grammar

open Reader

/-- A token that is not blank stands at the position `i`. -/
def VisibleAt (ts : List Token) (i : Nat) : Prop := ∃ t, ts[i]? = some t ∧ t.kind ≠ .blank

/-- The position of the first token from `i` on that is not blank, or the end. -/
def nextAt (ts : List Token) (i : Nat) : Nat :=
  match Cursor.place i (ts.drop i) with
  | [] => ts.length
  | t :: _ => t.locus

/-- The token `t` is the next one from `i` on, and it ends at `j`. -/
structure Took (ts : List Token) (i : Nat) (t : Token) (j : Nat) : Prop where
  start : i ≤ nextAt ts i
  token : ts[nextAt ts i]? = some t
  visible : t.kind ≠ .blank
  stop : j = nextAt ts i + 1

/-- The tokens from the next one after `i` up to `j` are not none, and the last is not blank. -/
structure Stretch (ts : List Token) (i j : Nat) : Prop where
  start : i ≤ nextAt ts i
  lt : nextAt ts i < j
  first : VisibleAt ts (nextAt ts i)
  last : VisibleAt ts (j - 1)

variable {ts : List Token} {i j k : Nat} {t : Token}

theorem VisibleAt.lt (h : VisibleAt ts i) : i < ts.length := by
  obtain ⟨t, ht, -⟩ := h
  exact (List.getElem?_eq_some_iff.1 ht).1

theorem le_nextAt (h : i ≤ ts.length) : i ≤ nextAt ts i := by
  rw [nextAt]
  split
  · exact h
  · next hplace =>
    obtain ⟨k, hk, -⟩ := Cursor.place_eq_cons hplace
    omega

/-- Before the next token there are blanks only. -/
theorem blank_of_lt_nextAt (hik : i ≤ k) (hk : k < nextAt ts i) (hlen : k < ts.length) :
    ∃ s, ts[k]? = some (.blank s) := by
  obtain ⟨n, rfl⟩ := Nat.exists_eq_add_of_le hik
  rw [← List.getElem?_drop]
  refine Cursor.blank_of_place (i := i) (by rw [List.length_drop]; omega) fun t ht => ?_
  obtain ⟨rest, hrest⟩ := List.head?_eq_some_iff.1 ht
  rwa [nextAt, hrest] at hk

theorem Took.stretch (h : Took ts i t j) : Stretch ts i j where
  start := h.start
  lt := by rw [h.stop]; exact Nat.lt_succ_self _
  first := ⟨t, h.token, h.visible⟩
  last := by rw [h.stop]; exact ⟨t, h.token, h.visible⟩

theorem Stretch.le (h : Stretch ts i j) : i ≤ j := Nat.le_trans h.start (Nat.le_of_lt h.lt)

theorem Stretch.le_length (h : Stretch ts i j) : j ≤ ts.length := by
  have := h.last.lt
  omega

/-- **A stretch may go on with a later one.** -/
theorem Stretch.trans {i' : Nat} (h : Stretch ts i j) (hle : j ≤ i') (h' : Stretch ts i' k) :
    Stretch ts i k where
  start := h.start
  lt := by
    have := h.lt
    have := h'.start
    have := h'.lt
    omega
  first := h.first
  last := h'.last

/-- **The reader `p` keeps its place:** from the position `i` it returns a `b` and stands at a
position `j` with `Q b j`, if it returns anything. -/
def Reads {β : Type} (ts : List Token) (i : Nat) (p : Reader β) (Q : β → Nat → Prop) : Prop :=
  ∀ c : Cursor, c.Sits ts → c.stop = i → ∀ b c', p c = .ok (b, c') → c'.Sits ts ∧ Q b c'.stop

/-- Nothing was read, or something with `P`. -/
def Maybe {β : Type} (P : Nat → β → Nat → Prop) (i : Nat) : Option β → Nat → Prop
  | none, j => j = i
  | some b, j => P i b j

/-- Things that were read one after the other between two positions.  Other tokens may stand
before each of them. -/
inductive Row {β : Type} (P : Nat → β → Nat → Prop) : Nat → List β → Nat → Prop
  | nil {i : Nat} : Row P i [] i
  | cons {i i' j k : Nat} {b : β} {bs : List β} :
      i ≤ i' → P i' b j → Row P j bs k → Row P i (b :: bs) k

namespace Row

variable {β : Type} {P : Nat → β → Nat → Prop} {bs : List β}

theorem le (hP : ∀ {i b j}, P i b j → i ≤ j) (h : Row P i bs k) : i ≤ k := by
  induction h with
  | nil => exact Nat.le_refl _
  | cons hi hb _ ih => exact Nat.le_trans hi (Nat.le_trans (hP hb) ih)

theorem mem (hP : ∀ {i b j}, P i b j → i ≤ j) (h : Row P i bs k) {b : β} (hb : b ∈ bs) :
    ∃ i' j', i ≤ i' ∧ P i' b j' ∧ j' ≤ k := by
  induction h with
  | nil => cases hb
  | @cons i i' j k c bs hi hc hbs ih =>
    rcases List.mem_cons.1 hb with rfl | hb
    · exact ⟨i', j, hi, hc, hbs.le hP⟩
    · obtain ⟨i'', j'', hi'', hb, hj''⟩ := ih hb
      exact ⟨i'', j'', Nat.le_trans hi (Nat.le_trans (hP hc) hi''), hb, hj''⟩

end Row

namespace Reads

variable {β γ : Type} {p : Reader β} {Q Q' : β → Nat → Prop} {R : γ → Nat → Prop}
  {P : Nat → β → Nat → Prop} {o : Reader (Option β)}

theorem mono (h : Reads ts i p Q) (hQ : ∀ b j, Q b j → Q' b j) : Reads ts i p Q' := by
  intro c hc hi b c' hp
  obtain ⟨hc', hb⟩ := h c hc hi b c' hp
  exact ⟨hc', hQ b _ hb⟩

theorem pure {b : β} (h : Q b i) : Reads ts i (pure b : Reader β) Q := by
  rintro c hc rfl b c' ⟨⟩
  exact ⟨hc, h⟩

theorem fail : Reads ts i (fail : Reader β) Q := by
  rintro c - - b c' ⟨⟩

theorem bind {q : β → Reader γ} (hp : Reads ts i p Q) (hq : ∀ b j, Q b j → Reads ts j (q b) R) :
    Reads ts i (p >>= q) R := by
  intro c hc hi b c' h
  obtain ⟨x, hx, h⟩ := bind_eq_ok.1 h
  obtain ⟨hc₁, hb⟩ := hp c hc hi x.1 x.2 hx
  exact hq _ _ hb _ hc₁ rfl b c' h

theorem map {f : β → γ} (hp : Reads ts i p fun b j => R (f b) j) : Reads ts i (f <$> p) R := by
  rw [map_eq_pure_bind]
  exact hp.bind fun _ _ h => pure h

/-- **What was read is read further on,** in either case. -/
theorem option {k : Option β → Reader γ} (ho : Reads ts i o (Maybe P i))
    (hsome : ∀ b j, P i b j → Reads ts j (k (some b)) R) (hnone : Reads ts i (k none) R) :
    Reads ts i (o >>= k) R := by
  refine ho.bind fun b j h => ?_
  cases b with
  | none =>
    cases h
    exact hnone
  | some b => exact hsome b j h

theorem require (ho : Reads ts i o (Maybe P i)) : Reads ts i (require o) (P i) :=
  ho.option (fun _ _ h => pure h) fail

theorem here {q : Nat → Reader β} (hq : Reads ts i (q (nextAt ts i)) Q) :
    Reads ts i (Reader.here >>= q) Q := by
  intro c hc hi b c' h
  have hhere : c.here = nextAt ts i := by
    cases hplace : Cursor.place i (ts.drop i) <;>
      simp [Cursor.here, nextAt, hc.rest, hc.limit, hi, hplace]
  rw [← hhere] at hq
  exact hq c hc hi b c' h

theorem spanFrom {start : Nat} {q : Span → Reader β} (hq : Reads ts i (q ⟨start, i⟩) Q) :
    Reads ts i (Reader.spanFrom start >>= q) Q := by
  rintro c hc rfl b c' h
  exact hq c hc rfl b c' h

/-- **Moving past the next token.** -/
theorem took_of_rest {c : Cursor} (hc : c.Sits ts) {t : Located Token}
    {rest : List (Located Token)} (hrest : c.rest = t :: rest) :
    Took ts c.stop t.value (t.locus + 1) ∧ t.locus = nextAt ts c.stop ∧
      (c.advance t.locus rest).Sits ts := by
  have hplace : Cursor.place c.stop (ts.drop c.stop) = t :: rest := hc.rest.symm.trans hrest
  have hnext : nextAt ts c.stop = t.locus := by rw [nextAt, hplace]
  obtain ⟨k, hk, htoken, hkind, hrest'⟩ := Cursor.place_eq_cons hplace
  rw [List.getElem?_drop, ← hk] at htoken
  have hlt : t.locus < ts.length := (List.getElem?_eq_some_iff.1 htoken).1
  refine ⟨⟨le_nextAt hc.stop_le, hnext ▸ htoken, hkind, by rw [hnext]⟩, hnext.symm, ?_,
    hc.limit, hlt⟩
  rw [List.drop_drop, ← Nat.add_assoc, ← hk] at hrest'
  exact hrest'

/-- **The next token decides between two readers.** -/
theorem branch {A B : Reader β} {k : Token.Kind} (ht : ∀ u : Token, u.kind = k ↔ u = t)
    (hA : ∀ j, Took ts i t j → Reads ts j A Q) (hB : ts[nextAt ts i]? ≠ some t → Reads ts i B Q) :
    Reads ts i (accept k >>= fun b => if b = true then A else B) Q := by
  rintro c hc rfl b c' h
  obtain ⟨⟨x, c₁⟩, hx, h⟩ := bind_eq_ok.1 h
  have hnote : (c.note (.token k)).Sits ts := ⟨hc.rest, hc.limit, hc.stop_le⟩
  cases hrest : c.rest with
  | nil =>
    simp only [accept, hrest] at hx
    cases hx
    refine hB ?_ _ hnote rfl b c' h
    rw [nextAt, ← hc.rest, hrest, List.getElem?_eq_none (Nat.le_refl _)]
    exact (Option.some_ne_none t).symm
  | cons u rest =>
    obtain ⟨htook, -, hsits⟩ := took_of_rest hc hrest
    simp only [accept, hrest] at hx
    split at hx
    · next hu =>
      cases hx
      rw [(ht _).1 hu] at htook
      exact hA _ htook _ hsits rfl b c' h
    · next hu =>
      cases hx
      refine hB (fun heq => hu ((ht _).2 ?_)) _ hnote rfl b c' h
      exact Option.some.inj (htook.token.symm.trans heq)

theorem expect {k : Token.Kind} (ht : ∀ u : Token, u.kind = k ↔ u = t)
    (hp : ∀ j, Took ts i t j → Reads ts j p Q) : Reads ts i (expect k >>= fun _ => p) Q := by
  have h : Reads ts i (Reader.expect k) (fun _ j => Took ts i t j) :=
    branch ht (fun j h => pure h) fun _ => fail
  exact h.bind fun _ j hj => hp j hj

theorem name? : Reads ts i name?
    (Maybe (fun i n j => Took ts i (.name n.value) j ∧ n.locus = nextAt ts i) i) := by
  rintro c hc rfl b c' h
  have hnote : (c.note (.token .name)).Sits ts := ⟨hc.rest, hc.limit, hc.stop_le⟩
  rcases hrest : c.rest with _ | ⟨⟨t, locus⟩, rest⟩
  · simp only [Reader.name?, hrest] at h
    cases h
    exact ⟨hnote, rfl⟩
  · cases t with
    | name x =>
      obtain ⟨htook, hlocus, hsits⟩ := took_of_rest hc hrest
      have henter : ((c.advance locus rest).enter x).Sits ts ∧
          ((c.advance locus rest).enter x).stop = locus + 1 := by
        unfold Cursor.enter
        split
        · exact ⟨hsits, rfl⟩
        · exact ⟨⟨hsits.rest, hsits.limit, hsits.stop_le⟩, rfl⟩
      simp only [Reader.name?, hrest] at h
      cases h
      rw [henter.2]
      exact ⟨henter.1, htook, hlocus⟩
    | _ =>
      simp only [Reader.name?, hrest] at h
      cases h
      exact ⟨hnote, rfl⟩

theorem universeLevel? :
    Reads ts i universeLevel? (Maybe (fun i _ j => Stretch ts i j) i) := by
  rintro c hc rfl b c' h
  have hnote : (c.note (.token .number)).Sits ts := ⟨hc.rest, hc.limit, hc.stop_le⟩
  rcases hrest : c.rest with _ | ⟨⟨t, locus⟩, rest⟩
  · simp only [Reader.universeLevel?, hrest] at h
    cases h
    exact ⟨hnote, rfl⟩
  · cases t with
    | number digits =>
      obtain ⟨htook, -, hsits⟩ := took_of_rest hc hrest
      simp only [Reader.universeLevel?, hrest] at h
      split at h
      · cases h
        exact ⟨hsits, htook.stretch⟩
      · cases h
    | _ =>
      simp only [Reader.universeLevel?, hrest] at h
      cases h
      exact ⟨hnote, rfl⟩

theorem many (ho : ∀ i, Reads ts i o (Maybe P i)) : Reads ts i (many o) (Row P i) := by
  have hup (n : Nat) : ∀ i, Reads ts i (manyUpTo o n) (Row P i) := by
    induction n with
    | zero => exact fun i => pure .nil
    | succ n ih =>
      refine fun i => (ho i).option (fun b j hb => ?_) (pure .nil)
      exact (ih j).bind fun bs k hbs => pure (.cons (Nat.le_refl i) hb hbs)
  exact fun c hc hi b c' h => hup _ i c hc hi b c' h

/-- **Things in braces lie between the braces.** -/
theorem braced (ho : ∀ i, Reads ts i o (Maybe P i)) :
    Reads ts i (braced o) fun bs j => ∃ i' k j', Took ts i (.symbol .curlyL) i' ∧
      Row P i' bs k ∧ k ≤ j' ∧ Took ts j' (.symbol .curlyR) j := by
  have hmore (n : Nat) : ∀ i, Reads ts i (moreUpTo o n) fun bs j => ∃ k, Row P i bs k ∧ k ≤ j := by
    induction n with
    | zero => exact fun i => pure ⟨i, .nil, Nat.le_refl i⟩
    | succ n ih =>
      refine fun i => branch (kind_eq_symbol .comma) (fun j hj => ?_)
        fun _ => pure ⟨i, .nil, Nat.le_refl i⟩
      refine (ho j).option (fun b k hb => ?_) (pure ⟨i, .nil, hj.stretch.le⟩)
      refine (ih k).bind fun bs l hbs => ?_
      obtain ⟨m, hbs, hm⟩ := hbs
      exact pure ⟨m, .cons hj.stretch.le hb hbs, hm⟩
  rw [Follows.braced_eq]
  refine expect (kind_eq_symbol .curlyL) fun i' hi' =>
    bind (Q := fun bs j => ∃ k, Row P i' bs k ∧ k ≤ j) ?_ fun bs j' hbs => ?_
  · refine (ho i').option (fun b j hb => ?_) ?_
    · refine bind (Q := fun bs k => ∃ m, Row P j bs m ∧ m ≤ k)
        (fun c hc hi b c' h => hmore _ j c hc hi b c' h) fun bs k hbs => ?_
      obtain ⟨m, hbs, hm⟩ := hbs
      exact pure ⟨m, .cons (Nat.le_refl i') hb hbs, hm⟩
    · dsimp only
      rw [acceptSymbol, accept_bind_const]
      exact branch (kind_eq_symbol .comma) (fun j hj => pure ⟨i', .nil, hj.stretch.le⟩)
        fun _ => pure ⟨i', .nil, Nat.le_refl i'⟩
  · obtain ⟨k, hbs, hk⟩ := hbs
    exact expect (kind_eq_symbol .curlyR) fun j hj => pure ⟨i', k, j', hi', hbs, hk, hj⟩

end Reads

end Grammar
end Constructions
