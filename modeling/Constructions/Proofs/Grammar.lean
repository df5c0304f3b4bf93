/-
# The parser and the grammar

Every reader of the parser follows the rule it is named for.  The proof of each
has the same three steps:

1. the rule of the reader is put together from the rules of its parts, token by
   token as the reader goes (`Follows.bind`, `Follows.branch`, `Follows.expect`);
2. what can be derived by that rule is a derivation of the grammar;
3. each alternative of the grammar must be derived by it.

The third step is where the next token has to decide between alternatives:

| alternatives | decided by |
| --- | --- |
| `\| label : headed \| -> headed`, `\| label : headed \| headed` | no expression begins with an arrow |
| these and `\| label+ \| headed` | neither a label nor a pipe is a colon |
| `spine -> headed`, `spine` | an arrow does not follow an expression |
| `( full : full )`, `( full )` | a colon does not continue an expression |
| `Type number`, `Type` | a number begins nothing |
| another argument or the end of a spine | no atom follows an expression |
| a comma before another item or at the end | neither a comma nor a brace begins an item |

Expressions may be nested as deeply as there are tokens, and the induction is on
that number (`expressionUpTo_follows`).
-/

import Constructions.Expression.Grammar
import Constructions.Proofs.Grammar.Rule
import Mathlib.Tactic.Ring

namespace Constructions
namespace Grammar

open Reader

variable {n : Nat} {inner : Inner}

/-- The kinds of tokens that an atom begins with. -/
def atomFirst : List Token.Kind := [.symbol .parenL, .word .type, .name]

/-- The kinds of tokens that a headed expression begins with. -/
def headedFirst : List Token.Kind := .symbol .pipe :: .word .elim :: atomFirst

/-- The kinds of tokens that may continue an expression: an arrow, the level of a universe, or
another argument. -/
def headedMore : List Token.Kind := .symbol .arrow :: .number :: atomFirst

@[simp] theorem symbol_mem_headedMore {s : Symbol} :
    Token.Kind.symbol s ∈ headedMore ↔ s = .arrow ∨ s = .parenL := by simp [headedMore, atomFirst]

@[simp] theorem word_mem_headedMore {k : Keyword} :
    Token.Kind.word k ∈ headedMore ↔ k = .type := by simp [headedMore, atomFirst]

theorem Atom.begins (a : Atom) (r : List Token) : Next atomFirst (a.yield ++ r) := by
  rcases a with _ | _ | (_ | _) | _ <;> simp [Atom.yield, atomFirst, Token.kind]

theorem Spine.begins (s : Spine) (r : List Token) : Next atomFirst (s.yield ++ r) := by
  obtain ⟨a, as⟩ := s
  rw [Spine.yield, List.append_assoc]
  exact a.begins _

theorem Headed.begins (h : Headed) (r : List Token) : Next headedFirst (h.yield ++ r) := by
  cases h with
  | arrow a b =>
    rw [Headed.yield, List.append_assoc]
    exact (a.begins _).mono (by simp [headedFirst])
  | spine s => exact (s.begins _).mono (by simp [headedFirst])
  | _ => simp [Headed.yield, headedFirst, Token.kind]

theorem Full.begins (e : Full) (r : List Token) :
    Next (.word .letIn :: headedFirst) (e.yield ++ r) := by
  cases e with
  | headed h => exact (h.begins r).mono (List.subset_cons_self _ _)
  | _ => simp [Full.yield, Token.kind]

namespace Phrase

/-- A name. -/
def name : Phrase Name where
  yield n := [.name n]
  first := [.name]
  more := []
  begins := by simp [Token.kind]

/-- The level of a universe. -/
def numeral : Phrase Numeral where
  yield x := [.number x.digits]
  first := [.number]
  more := []
  begins := by simp [Token.kind]

/-- A name or `_`. -/
def label : Phrase Label where
  yield := labelYield
  first := [.name, .symbol .lowDash]
  more := []
  begins := by rintro (_ | _) r <;> simp [labelYield, Token.kind]

/-- An atom.  `Type` alone goes on with a number. -/
def atom : Phrase Atom := ⟨Atom.yield, atomFirst, [.number], Atom.begins⟩

/-- A spine.  It goes on with another argument. -/
def spine : Phrase Spine := ⟨Spine.yield, atomFirst, .number :: atomFirst, Spine.begins⟩

/-- A headed expression.  It goes on with an arrow if it is a spine. -/
def headed : Phrase Headed := ⟨Headed.yield, headedFirst, headedMore, Headed.begins⟩

/-- A full expression. -/
def full : Phrase Full := ⟨Full.yield, .word .letIn :: headedFirst, headedMore, Full.begins⟩

end Phrase

/-- An expression is shown by what it is without positions. -/
def Shows {D : Type} (tree : D → Expression) (e : Expression) (d : D) : Prop := e.unplaced = tree d

/-! ## Names, levels and labels -/

theorem name?_follows : Follows n (Option.Rel fun l d => l.value = d) name? Phrase.name.maybe := by
  rintro c -
  rcases hrest : c.rest with _ | ⟨⟨t, locus⟩, rest⟩
  · simp only [name?, hrest]
    exact .nothing (by simp [Cursor.ahead, hrest]) (.note c _)
  · have hahead : c.ahead = t :: rest.map Located.value := by
      rw [Cursor.ahead, hrest, List.map_cons]
    cases t with
    | name x =>
      have hpast : c.Past [⟨.name x, locus⟩] (c.advance locus rest) := ⟨hrest, rfl⟩
      simp only [name?, hrest]
      refine ⟨some x, _, hpast.enter, .some rfl, ?_, ?_⟩
      · rw [hahead, Cursor.ahead_enter]
        exact ⟨List.mem_singleton_self _, rfl⟩
      · rintro s - (_ | d) r ⟨hn, hd⟩
        · exact absurd (List.mem_singleton_self _) hn
        · obtain ⟨hx, hr⟩ := List.cons.inj hd.1
          exact ⟨congrArg some (Token.name.inj hx).symm, hr.symm⟩
    | _ =>
      simp only [name?, hrest]
      exact .nothing (by simp [hahead, Phrase.name, Token.kind]) (.note c _)

/-- Digits are added up from the left as they are by place. -/
theorem foldl_decimal (cs : List Char) (a : Nat) :
    cs.foldl (fun n c => 10 * n + (c.toNat - '0'.toNat)) a = a * 10 ^ cs.length + decimal cs := by
  induction cs generalizing a with
  | nil => simp [decimal]
  | cons c cs ih =>
    rw [List.foldl_cons, ih, decimal, List.length_cons]
    ring

/-- **A number is a level iff it fits 64 bits.** -/
theorem level?_eq (digits : String) :
    level? digits = if h : decimal digits.toList < UInt64.size then some (Numeral.mk digits h).level
      else none := by
  have hvalue : digits.toList.foldl (fun n c => 10 * n + (c.toNat - '0'.toNat)) 0
      = decimal digits.toList := by rw [foldl_decimal, Nat.zero_mul, Nat.zero_add]
  simp only [level?, hvalue]
  by_cases h : decimal digits.toList < UInt64.size
  · rw [if_pos h, dif_pos h, Numeral.level, UInt64.ofNatLT_eq_ofNat]
  · rw [if_neg h, dif_neg h]

theorem universeLevel?_follows :
    Follows n (Option.Rel fun l x => l = x.level) universeLevel? Phrase.numeral.maybe := by
  rintro c -
  rcases hrest : c.rest with _ | ⟨⟨t, locus⟩, rest⟩
  · simp only [universeLevel?, hrest]
    exact .nothing (by simp [Cursor.ahead, hrest]) (.note c _)
  · have hahead : c.ahead = t :: rest.map Located.value := by
      rw [Cursor.ahead, hrest, List.map_cons]
    cases t with
    | number digits =>
      have hpast : c.Past [⟨.number digits, locus⟩] (c.advance locus rest) := ⟨hrest, rfl⟩
      simp only [universeLevel?, hrest]
      by_cases hfits : decimal digits.toList < UInt64.size
      · rw [level?_eq, dif_pos hfits]
        refine ⟨some ⟨digits, hfits⟩, _, hpast, .some rfl, ?_, ?_⟩
        · rw [hahead]
          exact ⟨List.mem_singleton_self _, rfl⟩
        · rintro s - (_ | ⟨digits', hfits'⟩) r ⟨hn, hd⟩
          · exact absurd (List.mem_singleton_self _) hn
          · obtain ⟨hx, hr⟩ := List.cons.inj hd.1
            cases hx
            exact ⟨rfl, hr.symm⟩
      · have hlevel : level? digits = none := by rw [level?_eq, dif_neg hfits]
        rw [hlevel]
        refine ⟨_, _, hpast, .inr ⟨_, List.mem_singleton_self _, digits, rfl, hlevel⟩, ?_⟩
        rintro s - (_ | ⟨digits', hfits'⟩) r ⟨hn, hd⟩
        · exact absurd (List.mem_singleton_self _) hn
        · obtain ⟨hx, -⟩ := List.cons.inj hd.1
          cases hx
          exact hfits hfits'
    | _ =>
      simp only [universeLevel?, hrest]
      exact .nothing (by simp [hahead, Phrase.numeral, Token.kind]) (.note c _)

theorem label?_follows :
    Follows n (Option.Rel fun l d => l.value = d) label? Phrase.label.maybe := by
  have h : Follows n (Option.Rel fun l d => l.value = d) label? _ :=
    name?_follows.option
      (fun b d hv => .pure (d := some (some d)) (.some (congrArg some hv)))
      (.here fun s => .branch (kind_eq_symbol .lowDash) (Nat.le_succ n)
        (.pure (d := some none) (.some rfl)) (.pure .none))
  refine h.mono ?_ ?_
  · rintro ts d r ⟨_ | x, s, ⟨hn, hd⟩, h⟩
    · subst hd
      rcases h with ⟨u, rfl, rfl, rfl⟩ | ⟨hd, rfl, rfl⟩
      · exact ⟨by simp [Phrase.label], rfl⟩
      · exact ⟨not_next_cons.2 ⟨hn, hd⟩, rfl⟩
    · obtain ⟨rfl, rfl⟩ := h
      exact ⟨hn.mono (by simp [Phrase.label, Phrase.name]), hd⟩
  · rintro ts (_ | _ | x) r ⟨hn, hd⟩
    · exact ⟨none, ts, ⟨fun h => hn (h.mono (by simp [Phrase.label, Phrase.name])), rfl⟩,
        .inr ⟨fun h => hn (h.mono (by simp [Phrase.label])), rfl, hd⟩⟩
    · obtain ⟨rfl, -⟩ := hd
      exact ⟨none, _, ⟨by simp [Phrase.label, Phrase.name, labelYield], rfl⟩,
        .inl ⟨r, rfl, rfl, rfl⟩⟩
    · obtain ⟨rfl, hr⟩ := hd
      exact ⟨some x, r, ⟨by simp [Phrase.label, Phrase.name, labelYield], rfl, hr⟩, rfl, rfl⟩

/-! ## Expressions -/

section Inner

variable (hfull : Follows n (Option.Rel (Shows Full.tree)) (inner .full) Phrase.full.maybe)
  (hheaded : Follows n (Option.Rel (Shows Headed.tree)) (inner .headed) Phrase.headed.maybe)

include hfull in
theorem parenthesized_follows (start : Nat) : Follows n (Shows Atom.tree)
    (parenthesized inner start) (Phrase.atom.after (.symbol .parenL)) := by
  have h : Follows n (Shows Atom.tree) (parenthesized inner start) _ :=
    hfull.require.bind fun e d he =>
      .branch (kind_eq_symbol .colon) (Nat.le_succ n)
        (hfull.require.bind fun t d' ht => .expect (kind_eq_symbol .parenR)
          (.spanFrom fun s => .pure (d := Atom.ascription d d')
            (congrArg₂ (Expression.ascribe default) he ht)))
        (.expect (kind_eq_symbol .parenR) (.pure (d := Atom.parenthesized d) he))
  refine h.mono ?_ ?_
  · rintro _ _ r ⟨e, _, rfl, ⟨_, rfl, t, _, rfl, _, rfl, rfl, rfl⟩ | ⟨-, _, rfl, rfl, rfl⟩⟩
    · simp [Phrase.after, Phrase.atom, Phrase.full, Atom.yield]
    · simp [Phrase.after, Phrase.atom, Phrase.full, Atom.yield]
  · rintro ts (⟨e, t⟩ | e | (_ | x) | x) r ⟨h, -⟩
    · have hts : ts = e.yield ++ .symbol .colon :: (t.yield ++ .symbol .parenR :: r) := by
        simpa [Phrase.atom, Atom.yield] using h
      exact ⟨e, _, ⟨hts, by simp [Phrase.full]⟩,
        .inl ⟨_, rfl, t, _, ⟨rfl, by simp [Phrase.full]⟩, r, rfl, rfl, rfl⟩⟩
    · have hts : ts = e.yield ++ .symbol .parenR :: r := by simpa [Phrase.atom, Atom.yield] using h
      exact ⟨e, _, ⟨hts, by simp [Phrase.full]⟩, .inr ⟨by simp, r, rfl, rfl, rfl⟩⟩
    all_goals simp [Phrase.atom, Atom.yield] at h

include hfull in
theorem atom?_follows :
    Follows (n + 1) (Option.Rel (Shows Atom.tree)) (atom? inner) Phrase.atom.maybe := by
  have h : Follows (n + 1) (Option.Rel (Shows Atom.tree)) (atom? inner) _ :=
    .here fun start => .branch (kind_eq_symbol .parenL) (Nat.le_refl _)
      (parenthesized_follows hfull start).found
      (.branch (kind_eq_word .type) (Nat.le_refl _)
        (universeLevel?_follows.bind fun level x hx => .spanFrom fun s =>
          .pure (d := some (Atom.type x)) (.some (by cases hx with
            | none => rfl
            | some h => rw [h]; rfl)))
        (name?_follows.option (fun l x hl => .spanFrom fun s =>
            .pure (d := some (Atom.name x)) (.some (congrArg (Expression.var default) hl)))
          (.pure .none)))
  refine h.mono ?_ ?_
  · rintro ts o r (⟨s, rfl, d, _, hd, rfl, rfl⟩ |
      ⟨hp, ⟨s, rfl, _ | x, _, ⟨hx, hs⟩, rfl, rfl⟩ | ⟨ht, _ | x, _, ⟨hx, hs⟩, rfl, rfl⟩⟩)
    · exact ⟨by simp [Phrase.atom, atomFirst], hd⟩
    · exact ⟨by simp [Phrase.atom, atomFirst], congrArg _ hs.symm⟩
    · exact ⟨by simp [Phrase.atom, atomFirst], congrArg _ hs⟩
    · exact ⟨not_next_cons.2 ⟨hp, not_next_cons.2 ⟨ht, hx⟩⟩, hs⟩
    · exact ⟨hx.mono (by simp [Phrase.atom, Phrase.name, atomFirst]), hs⟩
  · rintro ts (_ | ⟨e, t⟩ | e | (_ | x) | x) r ⟨hn, hd⟩
    · obtain ⟨hp, hn⟩ := not_next_cons.1 hn
      obtain ⟨ht, hn⟩ := not_next_cons.1 hn
      exact .inr ⟨hp, .inr ⟨ht, none, r, ⟨hn, hd⟩, rfl, rfl⟩⟩
    · obtain ⟨rfl, hr⟩ := hd
      exact .inl ⟨_, rfl, _, r, ⟨rfl, hr⟩, rfl, rfl⟩
    · obtain ⟨rfl, hr⟩ := hd
      exact .inl ⟨_, rfl, _, r, ⟨rfl, hr⟩, rfl, rfl⟩
    · obtain ⟨rfl, hr⟩ := hd
      exact .inr ⟨by simp [Phrase.atom, Atom.yield], .inl ⟨r, rfl, none, r, ⟨hr, rfl⟩, rfl, rfl⟩⟩
    · obtain ⟨rfl, -⟩ := hd
      exact .inr ⟨by simp [Phrase.atom, Atom.yield], .inl ⟨_, rfl, some x, r,
        ⟨by simp [Phrase.numeral], rfl, by simp [Phrase.numeral]⟩, rfl, rfl⟩⟩
    · obtain ⟨rfl, -⟩ := hd
      exact .inr ⟨by simp [Phrase.atom, Atom.yield], .inr ⟨by simp [Phrase.atom, Atom.yield],
        some x, r, ⟨by simp [Phrase.name, Phrase.atom, Atom.yield], rfl, by simp [Phrase.name]⟩,
        rfl, rfl⟩⟩

include hfull in
theorem argument?_follows : Follows (n + 1) (Option.Rel fun a d => Shows Atom.tree a.1 d)
    (argument? inner) Phrase.atom.maybe :=
  (atom?_follows hfull).map
    (fun _ _ he => .look (fun c => ⟨c, rfl⟩) fun _ => .pure (.some he)) (.pure .none)

/-- **Calls are read as they associate:** the first argument belongs to the innermost call. -/
theorem calls_unplaced {start : Nat} {f g : Expression} {as : List (Expression × Nat)}
    {bs : List Atom} (hf : f.unplaced = g)
    (has : List.Forall₂ (fun a b => Shows Atom.tree a.1 b) as bs) :
    (calls start f as).unplaced = (bs.map Atom.tree).foldl (.call default) g := by
  induction has generalizing f g with
  | nil => exact hf
  | cons ha _ ih => exact ih (congrArg₂ (Expression.call default) hf ha)

/-- A spine begins with the first token of an atom. -/
theorem Spine.kind_mem {t : Token} {ts r : List Token} (s : Spine) (h : t :: ts = s.yield ++ r) :
    t.kind ∈ atomFirst := by
  have := s.begins r
  rwa [← h] at this

theorem Spine.yield_append (a : Atom) (as : List Atom) (r : List Token) :
    (Spine.mk a as).yield ++ r = a.yield ++ (as.flatMap Atom.yield ++ r) := by
  rw [Spine.yield, Atom.yields_eq_map, List.append_assoc, List.flatMap_def]

include hfull in
theorem spine?_follows :
    Follows (n + 1) (Option.Rel (Shows Spine.tree)) (spine? inner) Phrase.spine.maybe := by
  have h : Follows (n + 1) (Option.Rel (Shows Spine.tree)) (spine? inner) _ :=
    .here fun start => (atom?_follows hfull).option
      (fun f g hf => ((argument?_follows hfull).many (by simp [Phrase.atom, atomFirst])).bind
        fun as bs has => .pure (d := some (Spine.mk g bs)) (.some (by
          rw [Shows, calls_unplaced hf has, Spine.tree, Atom.trees_eq_map])))
      (.pure .none)
  refine h.mono ?_ ?_
  · rintro ts o r ⟨_ | a, s, ⟨hn, hs⟩, h⟩
    · obtain ⟨rfl, rfl⟩ := h
      exact ⟨hn, hs⟩
    · obtain ⟨as, _, hr, rfl, rfl⟩ := h
      rw [show s = as.flatMap Atom.yield ++ r from hr] at hs
      exact ⟨hn, hs.trans (Spine.yield_append a as r).symm⟩
  · rintro ts (_ | ⟨a, as⟩) r ⟨hn, hd⟩
    · exact ⟨none, r, ⟨hn, hd⟩, rfl, rfl⟩
    · obtain ⟨hts, hr⟩ := hd
      exact ⟨some a, _, ⟨hn, hts.trans (Spine.yield_append a as r),
        Phrase.atom.not_next_list (by simp [Phrase.atom, atomFirst]) hr⟩, as, r, ⟨rfl, hr⟩, rfl,
        rfl⟩

theorem map_eq_map_of_forall₂ {α β γ : Type} {f : α → γ} {g : β → γ} {as : List α} {bs : List β}
    (h : List.Forall₂ (fun a b => f a = g b) as bs) : as.map f = bs.map g := by
  induction h with
  | nil => rfl
  | cons h _ ih => rw [List.map_cons, List.map_cons, h, ih]

include hfull hheaded in
theorem elimination_follows (start : Nat) : Follows n (Shows Headed.tree)
    (elimination inner start) (Phrase.headed.after (.word .elim)) := by
  have h : Follows n (Shows Headed.tree) (elimination inner start) _ :=
    ((spine?_follows hfull).anti (Nat.le_succ n)).require.bind fun t dt ht =>
      .expect (kind_eq_symbol .twoColon) (hheaded.require.bind fun m dm hm =>
        (hfull.braced (by simp [Phrase.full, headedFirst, atomFirst]) (by simp [Phrase.full])).bind
          fun ms x hms => .spanFrom fun s => .pure (d := Headed.elim dt dm x.1 x.2) (by
            rw [Shows, Expression.unplaced, Headed.tree, ht, hm, Expression.unplacedAll_eq_map,
              Full.trees_eq_map, map_eq_map_of_forall₂ hms]))
  refine h.mono ?_ ?_
  · rintro _ _ r ⟨t, _, rfl, _, rfl, m, _, rfl, x, _, rfl, rfl, rfl⟩
    simp [Phrase.after, Phrase.headed, Phrase.full, Phrase.spine, Headed.yield]
  · rintro ts (_ | _ | ⟨a, b⟩ | ⟨t, m, ms, trailing⟩ | _ | s) r ⟨h, -⟩
    · simp [Phrase.headed, Headed.yield] at h
    · simp [Phrase.headed, Headed.yield] at h
    · exact absurd (a.kind_mem (h.trans (List.append_assoc ..))) (by simp [atomFirst])
    · have hts : ts = t.yield ++ .symbol .twoColon ::
          (m.yield ++ (bracedYield (ms.map Full.yield) trailing ++ r)) := by
        simpa [Phrase.headed, Headed.yield] using h
      exact ⟨t, _, ⟨hts, by simp [Phrase.spine, atomFirst]⟩, _, rfl, m, _,
        ⟨rfl, by simp [Phrase.headed, bracedYield]⟩, (ms, trailing), r, ⟨rfl, by simp⟩, rfl, rfl⟩
    · simp [Phrase.headed, Headed.yield] at h
    · exact absurd (s.kind_mem h) (by simp [atomFirst])

theorem lams_unplaced {span : Span} {ls : List (Located Label)} {ds : List Label}
    {b e : Expression} (hb : b.unplaced = e) (hls : List.Forall₂ (fun l d => l.value = d) ls ds) :
    (ls.foldr (fun l b => .lam span l b) b).unplaced
      = ds.foldr (fun l b => .lam default ⟨l, 0⟩ b) e := by
  induction hls with
  | nil => exact hb
  | cons hl _ ih => rw [List.foldr_cons, Expression.unplaced, hl, ih, List.foldr_cons]

include hheaded in
theorem binder_follows (start : Nat) : Follows n (Shows Headed.tree)
    (binder inner start) (Phrase.headed.after (.symbol .pipe)) := by
  have h : Follows n (Shows Headed.tree) (binder inner start) _ :=
    label?_follows.require.bind fun l dl hl =>
      .branch (kind_eq_symbol .colon) (Nat.le_succ n)
        (hheaded.require.bind fun a da ha => .expect (kind_eq_symbol .pipe)
          (.branch (kind_eq_symbol .arrow) (Nat.le_succ n)
            (hheaded.require.bind fun b db hb => .spanFrom fun s =>
              .pure (d := Headed.pi dl da db) (by
                rw [Shows, Expression.unplaced, Headed.tree, hl, ha, hb]))
            (hheaded.require.bind fun b db hb => .spanFrom fun s =>
              .pure (d := Headed.typedLam dl da db) (by
                rw [Shows, Expression.unplaced, Headed.tree, hl, ha, hb]))))
        ((label?_follows.many (by simp [Phrase.label])).bind fun ls dls hls =>
          .expect (kind_eq_symbol .pipe) (hheaded.require.bind fun b db hb => .spanFrom fun s =>
            .pure (d := Headed.lam dl dls db)
              (lams_unplaced hb (.cons hl hls))))
  refine h.mono ?_ ?_
  · rintro _ _ r ⟨l, _, rfl, ⟨_, rfl, a, _, rfl, _, rfl, ⟨_, rfl, b, _, rfl, rfl, rfl⟩ |
      ⟨-, b, _, rfl, rfl, rfl⟩⟩ | ⟨-, ls, _, rfl, _, rfl, b, _, rfl, rfl, rfl⟩⟩
    · simp [Phrase.after, Phrase.headed, Phrase.label, Headed.yield]
    · simp [Phrase.after, Phrase.headed, Phrase.label, Headed.yield]
    · simp [Phrase.after, Phrase.headed, Phrase.label, Headed.yield]
  · rintro ts (⟨l, a, b⟩ | ⟨l, a, b⟩ | ⟨a, b⟩ | _ | ⟨l, ls, b⟩ | s) r ⟨h, hr⟩
    · have hts : ts = labelYield l ++ .symbol .colon :: (a.yield ++
          .symbol .pipe :: .symbol .arrow :: (b.yield ++ r)) := by
        simpa [Phrase.headed, Headed.yield] using h
      exact ⟨l, _, ⟨hts, by simp [Phrase.label]⟩,
        .inl ⟨_, rfl, a, _, ⟨rfl, by simp [Phrase.headed]⟩, _, rfl,
          .inl ⟨_, rfl, b, r, ⟨rfl, hr⟩, rfl, rfl⟩⟩⟩
    · have hts : ts = labelYield l ++ .symbol .colon :: (a.yield ++
          .symbol .pipe :: (b.yield ++ r)) := by
        simpa [Phrase.headed, Headed.yield] using h
      exact ⟨l, _, ⟨hts, by simp [Phrase.label]⟩,
        .inl ⟨_, rfl, a, _, ⟨rfl, by simp [Phrase.headed]⟩, _, rfl,
          .inr ⟨(b.begins r).not_of_disjoint (by simp [headedFirst, atomFirst]), b, r, ⟨rfl, hr⟩,
            rfl, rfl⟩⟩⟩
    · exact absurd (a.kind_mem (h.trans (List.append_assoc ..))) (by simp [atomFirst])
    · simp [Phrase.headed, Headed.yield] at h
    · have hts : ts = labelYield l ++ (ls.flatMap labelYield ++
          .symbol .pipe :: (b.yield ++ r)) := by
        simpa [Phrase.headed, Headed.yield] using h
      refine ⟨l, _, ⟨hts, by simp [Phrase.label]⟩,
        .inr ⟨?_, ls, _, ⟨rfl, by simp [Phrase.label]⟩, _, rfl, b, r, ⟨rfl, hr⟩, rfl, rfl⟩⟩
      -- the next label or the closing pipe comes where the other alternatives have a colon
      cases ls with
      | nil => simp
      | cons l' ls =>
        rw [List.flatMap_cons, List.append_assoc]
        exact (Phrase.label.begins l' _).not_of_disjoint (by simp [Phrase.label])
    · exact absurd (s.kind_mem h) (by simp [atomFirst])

include hfull hheaded in
theorem headed?_follows :
    Follows (n + 1) (Option.Rel (Shows Headed.tree)) (headed? inner) Phrase.headed.maybe := by
  have h : Follows (n + 1) (Option.Rel (Shows Headed.tree)) (headed? inner) _ :=
    .here fun start => .branch (kind_eq_symbol .pipe) (Nat.le_refl _)
      (binder_follows hheaded start).found
      (.branch (kind_eq_word .elim) (Nat.le_refl _)
        (elimination_follows hfull hheaded start).found
        ((spine?_follows hfull).option
          (fun a da ha => .branch (kind_eq_symbol .arrow) (Nat.le_refl _)
            (hheaded.require.bind fun b db hb => .spanFrom fun s =>
              .pure (d := some (Headed.arrow da db)) (.some (by
                rw [Shows, Expression.unplaced, Headed.tree, ha, hb])))
            (.pure (d := some (Headed.spine da)) (.some (by rw [Shows, Headed.tree, ha]))))
          (.pure .none)))
  refine h.mono ?_ ?_
  · rintro ts o r (⟨s, rfl, d, _, hd, rfl, rfl⟩ | ⟨hp, ⟨s, rfl, d, _, hd, rfl, rfl⟩ |
      ⟨he, _ | a, _, ⟨hn, hs⟩, h⟩⟩)
    · exact ⟨by simp [Phrase.headed, headedFirst], hd⟩
    · exact ⟨by simp [Phrase.headed, headedFirst], hd⟩
    · obtain ⟨rfl, rfl⟩ := h
      exact ⟨not_next_cons.2 ⟨hp, not_next_cons.2 ⟨he, hn⟩⟩, hs⟩
    · have hn' : Next headedFirst ts := hn.mono (by simp [headedFirst, Phrase.spine])
      rcases h with ⟨_, rfl, b, _, rfl, rfl, rfl⟩ | ⟨-, rfl, rfl⟩
      · exact ⟨hn', hs.trans (List.append_assoc a.yield (_ :: b.yield) r).symm⟩
      · exact ⟨hn', hs⟩
  · have hatom : ∀ {ts}, Next atomFirst ts → ¬ Next [.symbol .pipe] ts ∧ ¬ Next [.word .elim] ts :=
      fun h => ⟨h.not_of_disjoint (by simp [atomFirst]), h.not_of_disjoint (by simp [atomFirst])⟩
    rintro ts (_ | ⟨l, a, b⟩ | ⟨l, a, b⟩ | ⟨a, b⟩ | ⟨t, m, ms, trailing⟩ | ⟨l, ls, b⟩ | s) r
      ⟨hn, hd⟩
    · obtain ⟨hp, hn⟩ := not_next_cons.1 hn
      obtain ⟨he, hn⟩ := not_next_cons.1 hn
      exact .inr ⟨hp, .inr ⟨he, none, r, ⟨hn, hd⟩, rfl, rfl⟩⟩
    · obtain ⟨rfl, hr⟩ := hd
      exact .inl ⟨_, rfl, _, r, ⟨rfl, hr⟩, rfl, rfl⟩
    · obtain ⟨rfl, hr⟩ := hd
      exact .inl ⟨_, rfl, _, r, ⟨rfl, hr⟩, rfl, rfl⟩
    · obtain ⟨hts, hr⟩ := hd
      have hts : ts = a.yield ++ (.symbol .arrow :: (b.yield ++ r)) :=
        hts.trans (List.append_assoc a.yield (_ :: b.yield) r)
      have hfirst : Next atomFirst ts := hts ▸ a.begins _
      exact .inr ⟨(hatom hfirst).1, .inr ⟨(hatom hfirst).2, some a, _,
        ⟨hfirst, hts, by simp [Phrase.spine, atomFirst]⟩, .inl ⟨_, rfl, b, r, ⟨rfl, hr⟩, rfl, rfl⟩⟩⟩
    · obtain ⟨rfl, hr⟩ := hd
      exact .inr ⟨by simp [Phrase.headed, Headed.yield], .inl ⟨_, rfl, _, r, ⟨rfl, hr⟩, rfl, rfl⟩⟩
    · obtain ⟨rfl, hr⟩ := hd
      exact .inl ⟨_, rfl, _, r, ⟨rfl, hr⟩, rfl, rfl⟩
    · obtain ⟨hts, hr⟩ := hd
      have hfirst : Next atomFirst ts := hts ▸ s.begins r
      obtain ⟨harrow, hr⟩ := not_next_cons.1 hr
      exact .inr ⟨(hatom hfirst).1, .inr ⟨(hatom hfirst).2, some s, r, ⟨hfirst, hts, hr⟩,
        .inr ⟨harrow, rfl, rfl⟩⟩⟩

include hfull hheaded in
theorem binding_follows (start : Nat) : Follows n (Shows Full.tree)
    (binding inner start) (Phrase.full.after (.word .letIn)) := by
  have h : Follows n (Shows Full.tree) (binding inner start) _ :=
    label?_follows.require.bind fun l dl hl =>
      .branch (kind_eq_symbol .colon) (Nat.le_succ n)
        (hheaded.require.bind fun t dt ht => .expect (kind_eq_symbol .equal)
          (hheaded.require.bind fun a da ha => .expect (kind_eq_symbol .semi)
            (hfull.require.bind fun b db hb => .spanFrom fun s =>
              .pure (d := Full.typedLet dl dt da db) (by
                rw [Shows, Expression.unplaced, Full.tree, hl, ht, ha, hb]))))
        (.expect (kind_eq_symbol .equal)
          (hheaded.require.bind fun a da ha => .expect (kind_eq_symbol .semi)
            (hfull.require.bind fun b db hb => .spanFrom fun s =>
              .pure (d := Full.letIn dl da db) (by
                rw [Shows, Expression.unplaced, Full.tree, hl, ha, hb]))))
  refine h.mono ?_ ?_
  · rintro _ _ r ⟨l, _, rfl, ⟨_, rfl, t, _, rfl, _, rfl, a, _, rfl, _, rfl, b, _, rfl, rfl, rfl⟩ |
      ⟨-, _, rfl, a, _, rfl, _, rfl, b, _, rfl, rfl, rfl⟩⟩
    · simp [Phrase.after, Phrase.headed, Phrase.full, Phrase.label, Full.yield]
    · simp [Phrase.after, Phrase.headed, Phrase.full, Phrase.label, Full.yield]
  · rintro ts (⟨l, a, b⟩ | ⟨l, t, a, b⟩ | h') r ⟨h, hr⟩
    · have hts : ts = labelYield l ++ .symbol .equal :: (a.yield ++
          .symbol .semi :: (b.yield ++ r)) := by
        simpa [Phrase.full, Full.yield] using h
      exact ⟨l, _, ⟨hts, by simp [Phrase.label]⟩, .inr ⟨by simp, _, rfl, a, _,
        ⟨rfl, by simp [Phrase.headed]⟩, _, rfl, b, r, ⟨rfl, hr⟩, rfl, rfl⟩⟩
    · have hts : ts = labelYield l ++ .symbol .colon :: (t.yield ++ .symbol .equal :: (a.yield ++
          .symbol .semi :: (b.yield ++ r))) := by
        simpa [Phrase.full, Full.yield] using h
      exact ⟨l, _, ⟨hts, by simp [Phrase.label]⟩,
        .inl ⟨_, rfl, t, _, ⟨rfl, by simp [Phrase.headed]⟩, _, rfl, a, _, ⟨rfl, by simp [Phrase.headed]⟩, _, rfl, b, r, ⟨rfl, hr⟩, rfl, rfl⟩⟩
    · have hfirst := h'.begins r
      rw [← show .word .letIn :: ts = h'.yield ++ r from h] at hfirst
      simp [headedFirst, atomFirst] at hfirst

include hfull hheaded in
theorem full?_follows :
    Follows (n + 1) (Option.Rel (Shows Full.tree)) (full? inner) Phrase.full.maybe := by
  have h : Follows (n + 1) (Option.Rel (Shows Full.tree)) (full? inner) _ :=
    .here fun start => .branch (kind_eq_word .letIn) (Nat.le_refl _)
      (binding_follows hfull hheaded start).found
      ((headed?_follows hfull hheaded).via (Option.map Full.headed) fun _ _ h => by
        cases h with
        | none => exact .none
        | some h => exact .some h)
  refine h.mono ?_ ?_
  · rintro ts o r (⟨s, rfl, d, _, hd, rfl, rfl⟩ | ⟨hl, _ | d, _, ⟨hn, hs⟩, rfl, rfl⟩)
    · exact ⟨by simp [Phrase.full], hd⟩
    · exact ⟨not_next_cons.2 ⟨hl, hn⟩, hs⟩
    · exact ⟨hn.mono (List.subset_cons_self _ _), hs⟩
  · rintro ts (_ | ⟨l, a, b⟩ | ⟨l, t, a, b⟩ | d) r ⟨hn, hd⟩
    · obtain ⟨hl, hn⟩ := not_next_cons.1 hn
      exact .inr ⟨hl, none, r, ⟨hn, hd⟩, rfl, rfl⟩
    · obtain ⟨rfl, hr⟩ := hd
      exact .inl ⟨_, rfl, _, r, ⟨rfl, hr⟩, rfl, rfl⟩
    · obtain ⟨rfl, hr⟩ := hd
      exact .inl ⟨_, rfl, _, r, ⟨rfl, hr⟩, rfl, rfl⟩
    · obtain ⟨hts, hr⟩ := hd
      have hfirst : Next headedFirst ts := hts ▸ d.begins r
      exact .inr ⟨hfirst.not_of_disjoint (by simp [headedFirst, atomFirst]), some d, r,
        ⟨hfirst, hts, hr⟩, rfl, rfl⟩

end Inner

/-- **An expression reader follows the rules** on fewer tokens than it has levels. -/
theorem expressionUpTo_follows (n : Nat) :
    Follows n (Option.Rel (Shows Full.tree)) (expressionUpTo n .full) Phrase.full.maybe ∧
      Follows n (Option.Rel (Shows Headed.tree)) (expressionUpTo n .headed)
        Phrase.headed.maybe := by
  induction n with
  | zero =>
    exact ⟨fun c hc => absurd hc (Nat.not_lt_zero _), fun c hc => absurd hc (Nat.not_lt_zero _)⟩
  | succ n ih => exact ⟨full?_follows ih.1 ih.2, headed?_follows ih.1 ih.2⟩

theorem expression_follows : Follows n (Shows Full.tree) expression Phrase.full.rule := by
  have h : Follows n (Option.Rel (Shows Full.tree)) expression? Phrase.full.maybe :=
    .ofLevels fun m _ => (expressionUpTo_follows m).1
  exact h.require

/-! ## Declarations -/

theorem Group.begins (g : Group) (r : List Token) : Next [.symbol .parenL] (g.yield ++ r) := by
  simp [Group.yield]

theorem Clause.begins (c : Clause) (r : List Token) : Next [.name] (c.yield ++ r) := by
  simp [Clause.yield]

theorem Sentence.begins (d : Sentence) (r : List Token) :
    Next (commandWords.map .word) (d.yield ++ r) := by
  rcases d with _ | _ | ⟨_, _ | _, _⟩ | _ | _ <;> simp [Sentence.yield, commandWords]

namespace Phrase

/-- A parameter in parentheses. -/
def group : Phrase Group := ⟨Group.yield, [.symbol .parenL], [], Group.begins⟩

/-- A constructor and its type. -/
def clause : Phrase Clause := ⟨Clause.yield, [.name], headedMore, Clause.begins⟩

/-- A declaration. -/
def sentence : Phrase Sentence :=
  ⟨Sentence.yield, commandWords.map .word, headedMore, Sentence.begins⟩

end Phrase

theorem parameter?_follows :
    Follows n (Option.Rel fun p g => p.unplaced = Group.tree g) parameter? Phrase.group.maybe := by
  have h : Follows n (Option.Rel fun p g => p.unplaced = Group.tree g) parameter? _ :=
    .branch (kind_eq_symbol .parenL) (Nat.le_succ n)
      (label?_follows.require.bind fun l dl hl => .expect (kind_eq_symbol .colon)
        (expression_follows.bind fun t dt ht => .expect (kind_eq_symbol .parenR)
          (.pure (d := some (Group.mk dl dt)) (.some (by
            rw [Parameter.unplaced, Group.tree, hl, ht])))))
      (.pure .none)
  refine h.mono ?_ ?_
  · rintro ts _ r (⟨_, rfl, l, _, rfl, _, rfl, t, _, rfl, _, rfl, rfl, rfl⟩ | ⟨hn, rfl, rfl⟩)
    · exact ⟨List.mem_singleton_self _,
        by simp [Phrase.rule, Rule.spelled, Phrase.group, Group.yield, Phrase.label, Phrase.full]⟩
    · exact ⟨hn, rfl⟩
  · rintro ts (_ | g) r ⟨hn, hd⟩
    · exact .inr ⟨hn, rfl, hd⟩
    · obtain ⟨rfl, -⟩ := hd
      refine .inl ⟨_, rfl, g.label, _, ⟨?_, by simp [Phrase.label]⟩, _, rfl, g.type, _,
        ⟨rfl, by simp [Phrase.full]⟩, r, rfl, rfl, rfl⟩
      simp [Phrase.label, Phrase.full]

theorem clause?_follows :
    Follows n (Option.Rel fun p c => p.unplaced = Clause.tree c) clause? Phrase.clause.maybe := by
  have h : Follows n (Option.Rel fun p c => p.unplaced = Clause.tree c) clause? _ :=
    name?_follows.option
      (fun x dx hx => .expect (kind_eq_symbol .colon) (expression_follows.bind fun t dt ht =>
        .pure (d := some (Clause.mk dx dt)) (.some (by
          rw [ConstructorClause.unplaced, Clause.tree, hx, ht]))))
      (.pure .none)
  refine h.mono ?_ ?_
  · rintro ts _ r ⟨_ | x, _, ⟨hn, hs⟩, h⟩
    · obtain ⟨rfl, rfl⟩ := h
      exact ⟨hn, hs⟩
    · obtain ⟨_, rfl, t, _, rfl, rfl, rfl⟩ := h
      exact ⟨hn, hs⟩
  · rintro ts (_ | c) r ⟨hn, hd⟩
    · exact ⟨none, r, ⟨hn, hd⟩, rfl, rfl⟩
    · obtain ⟨rfl, hr⟩ := hd
      exact ⟨some c.name, _, ⟨hn, rfl, by simp [Phrase.name]⟩, _, rfl, c.type, r, ⟨rfl, hr⟩, rfl,
        rfl⟩

/-- A command is shown by what it is without positions. -/
def ShowsCommand (c : Command) (d : Sentence) : Prop := c.unplaced = d.command

theorem dataCommand_follows :
    Follows n ShowsCommand (commandOf .data) (Phrase.sentence.after (.word .data)) := by
  have h : Follows n ShowsCommand (commandOf .data) _ :=
    name?_follows.require.bind fun x dx hx =>
      (parameter?_follows.many (by simp [Phrase.group])).bind fun ps gs hgs =>
        .expect (kind_eq_symbol .colon) (expression_follows.bind fun a da ha =>
          (clause?_follows.braced (by simp [Phrase.clause]) (by simp [Phrase.clause])).bind
            fun cs ds hcs => .pure (d := Sentence.data dx gs da ds.1 ds.2) (by
              rw [ShowsCommand, Command.unplaced, Sentence.command, hx, ha,
                map_eq_map_of_forall₂ hgs, map_eq_map_of_forall₂ hcs]))
  refine h.mono ?_ ?_
  · rintro _ _ r ⟨x, _, rfl, gs, _, rfl, _, rfl, a, _, rfl, cs, _, rfl, rfl, rfl⟩
    simp [Phrase.after, Phrase.sentence, Phrase.name, Phrase.group, Phrase.full, Phrase.clause,
      Sentence.yield]
  · rintro ts (⟨x, gs, a, cs, trailing⟩ | _ | ⟨_, _ | _, _⟩ | _ | _) r ⟨h, -⟩
    · have hts : ts = .name x :: (gs.flatMap Group.yield ++ .symbol .colon ::
          (a.yield ++ (bracedYield (cs.map Clause.yield) trailing ++ r))) := by
        simpa [Phrase.sentence, Sentence.yield] using h
      exact ⟨x, _, ⟨hts, by simp [Phrase.name]⟩, gs, _, ⟨rfl, by simp [Phrase.group]⟩, _, rfl, a, _,
        ⟨rfl, by simp [Phrase.full, bracedYield]⟩, (cs, trailing), r, ⟨rfl, by simp⟩, rfl, rfl⟩
    all_goals simp [Phrase.sentence, Sentence.yield] at h

theorem postulateCommand_follows :
    Follows n ShowsCommand (commandOf .postulate) (Phrase.sentence.after (.word .postulate)) := by
  have h : Follows n ShowsCommand (commandOf .postulate) _ :=
    name?_follows.require.bind fun x dx hx => .expect (kind_eq_symbol .colon)
      (expression_follows.bind fun t dt ht => .pure (d := Sentence.postulate dx dt) (by
        rw [ShowsCommand, Command.unplaced, Sentence.command, hx, ht]))
  refine h.mono ?_ ?_
  · rintro _ _ r ⟨x, _, rfl, _, rfl, t, _, rfl, rfl, rfl⟩
    rfl
  · rintro ts (_ | ⟨x, t⟩ | ⟨_, _ | _, _⟩ | _ | _) r ⟨h, hr⟩
    case postulate =>
      have hts : ts = .name x :: .symbol .colon :: (t.yield ++ r) := by
        simpa [Phrase.sentence, Sentence.yield] using h
      exact ⟨x, _, ⟨hts, by simp [Phrase.name]⟩, _, rfl, t, r, ⟨rfl, hr⟩, rfl, rfl⟩
    all_goals simp [Phrase.sentence, Sentence.yield] at h

theorem defineCommand_follows :
    Follows n ShowsCommand (commandOf .define) (Phrase.sentence.after (.word .define)) := by
  have h : Follows n ShowsCommand (commandOf .define) _ :=
    name?_follows.require.bind fun x dx hx => .branch (kind_eq_symbol .colon) (Nat.le_succ n)
      (expression_follows.bind fun t dt ht => .expect (kind_eq_symbol .equal)
        (expression_follows.bind fun v dv hv => .pure (d := Sentence.define dx (some dt) dv) (by
          rw [ShowsCommand, Command.unplaced, Sentence.command, Option.map_some, Option.map_some,
            hx, ht, hv])))
      (.expect (kind_eq_symbol .equal)
        (expression_follows.bind fun v dv hv => .pure (d := Sentence.define dx none dv) (by
          rw [ShowsCommand, Command.unplaced, Sentence.command, Option.map_none, Option.map_none,
            hx, hv])))
  refine h.mono ?_ ?_
  · rintro _ _ r ⟨x, _, rfl, ⟨_, rfl, t, _, rfl, _, rfl, v, _, rfl, rfl, rfl⟩ |
      ⟨-, _, rfl, v, _, rfl, rfl, rfl⟩⟩
    · simp [Phrase.after, Phrase.sentence, Phrase.name, Phrase.full, Sentence.yield]
    · rfl
  · rintro ts (_ | _ | ⟨x, _ | t, v⟩ | _ | _) r ⟨h, hr⟩
    case define.none =>
      have hts : ts = .name x :: .symbol .equal :: (v.yield ++ r) := by
        simpa [Phrase.sentence, Sentence.yield] using h
      exact ⟨x, _, ⟨hts, by simp [Phrase.name]⟩, .inr ⟨by simp, _, rfl, v, r, ⟨rfl, hr⟩, rfl, rfl⟩⟩
    case define.some =>
      have hts : ts = .name x :: .symbol .colon :: (t.yield ++
          .symbol .equal :: (v.yield ++ r)) := by
        simpa [Phrase.sentence, Sentence.yield] using h
      exact ⟨x, _, ⟨hts, by simp [Phrase.name]⟩,
        .inl ⟨_, rfl, t, _, ⟨rfl, by simp [Phrase.full]⟩, _, rfl, v, r, ⟨rfl, hr⟩, rfl, rfl⟩⟩
    all_goals simp [Phrase.sentence, Sentence.yield] at h

theorem evaluateCommand_follows :
    Follows n ShowsCommand (commandOf .evaluate) (Phrase.sentence.after (.word .evaluate)) := by
  have h : Follows n ShowsCommand (commandOf .evaluate) _ :=
    expression_follows.bind fun e d he => .pure (d := Sentence.evaluate d) (by
      rw [ShowsCommand, Command.unplaced, Sentence.command, he])
  refine h.mono ?_ ?_
  · rintro _ _ r ⟨e, _, rfl, rfl, rfl⟩
    rfl
  · rintro ts (_ | _ | ⟨_, _ | _, _⟩ | e | _) r ⟨h, hr⟩
    case evaluate =>
      have hts : ts = e.yield ++ r := by simpa [Phrase.sentence, Sentence.yield] using h
      exact ⟨e, r, ⟨hts, hr⟩, rfl, rfl⟩
    all_goals simp [Phrase.sentence, Sentence.yield] at h

theorem checkCommand_follows :
    Follows n ShowsCommand (commandOf .check) (Phrase.sentence.after (.word .check)) := by
  have h : Follows n ShowsCommand (commandOf .check) _ :=
    expression_follows.bind fun e d he => .expect (kind_eq_symbol .colon)
      (expression_follows.bind fun t dt ht => .pure (d := Sentence.check d dt) (by
        rw [ShowsCommand, Command.unplaced, Sentence.command, he, ht]))
  refine h.mono ?_ ?_
  · rintro _ _ r ⟨e, _, rfl, _, rfl, t, _, rfl, rfl, rfl⟩
    simp [Phrase.after, Phrase.sentence, Phrase.full, Sentence.yield]
  · rintro ts (_ | _ | ⟨_, _ | _, _⟩ | _ | ⟨e, t⟩) r ⟨h, hr⟩
    case check =>
      have hts : ts = e.yield ++ .symbol .colon :: (t.yield ++ r) := by
        simpa [Phrase.sentence, Sentence.yield] using h
      exact ⟨e, _, ⟨hts, by simp [Phrase.full]⟩, _, rfl, t, r, ⟨rfl, hr⟩, rfl, rfl⟩
    all_goals simp [Phrase.sentence, Sentence.yield] at h

/-- No other word begins a declaration. -/
theorem noCommand_follows {k : Keyword} (hk : k ∉ commandWords) :
    Follows n ShowsCommand (fail : Reader Command) (Phrase.sentence.after (.word k)) := by
  refine Follows.fail.mono False.elim ?_
  rintro ts d r ⟨h, -⟩
  have hfirst := d.begins r
  rw [← show .word k :: ts = d.yield ++ r from h] at hfirst
  obtain ⟨k', hk', heq⟩ := List.mem_map.1 hfirst
  cases heq
  exact hk hk'

/-- **After its first word, a command is read by the rule of declarations.** -/
theorem commandOf_follows (k : Keyword) :
    Follows n ShowsCommand (commandOf k) (Phrase.sentence.after (.word k)) := by
  cases k with
  | data => exact dataCommand_follows
  | postulate => exact postulateCommand_follows
  | define => exact defineCommand_follows
  | evaluate => exact evaluateCommand_follows
  | check => exact checkCommand_follows
  | letIn => exact noCommand_follows (by decide)
  | elim => exact noCommand_follows (by decide)
  | type => exact noCommand_follows (by decide)

/-- One of the words `ks`. -/
def words (ks : List Keyword) : Rule Keyword where
  Can ts k r := k ∈ ks ∧ ts = .word k :: r
  Must ts k r := k ∈ ks ∧ ts = .word k :: r
  length_le := by
    rintro _ _ _ ⟨-, rfl⟩
    exact Nat.le_succ _

theorem acceptAnyOf_follows (ks : List Keyword) :
    Follows n (Option.Rel Eq) (acceptAnyOf ks) ((words ks).maybe (ks.map .word)) := by
  induction ks with
  | nil =>
    refine Follows.mono (.pure .none) ?_ ?_
    · rintro ts _ r ⟨rfl, rfl⟩
      exact ⟨by simp, rfl⟩
    · rintro ts (_ | k) r ⟨hn, hd⟩
      · exact ⟨rfl, hd⟩
      · exact absurd hn not_next_kinds_nil
  | cons k ks ih =>
    have h : Follows n (Option.Rel Eq) (acceptAnyOf (k :: ks)) _ :=
      .branch (kind_eq_word k) (Nat.le_succ n) (.pure (d := some k) (.some rfl)) ih
    refine h.mono ?_ ?_
    · rintro ts (_ | k') r (⟨_, rfl, h, rfl⟩ | ⟨hk, hn, hd⟩)
      · cases h
      · exact ⟨not_next_cons.2 ⟨hk, hn⟩, hd⟩
      · cases h
        exact ⟨by simp, List.mem_cons_self, rfl⟩
      · exact ⟨hn.mono (List.subset_cons_self _ _), List.mem_cons_of_mem k hd.1, hd.2⟩
    · rintro ts (_ | k') r ⟨hn, hd⟩
      · obtain ⟨hk, hn⟩ := not_next_cons.1 hn
        exact .inr ⟨hk, hn, hd⟩
      · obtain ⟨hk', rfl⟩ := hd
        by_cases heq : k' = k
        · subst heq
          exact .inl ⟨r, rfl, rfl, rfl⟩
        · have hmem : k' ∈ ks := (List.mem_cons.1 hk').resolve_left heq
          exact .inr ⟨by simpa using heq, by simpa using hmem, hmem, rfl⟩

theorem declaration?_follows :
    Follows n (Option.Rel fun e d => e.unplaced = Sentence.tree d) declaration?
      Phrase.sentence.maybe := by
  have h : Follows n (Option.Rel fun e d => e.unplaced = Sentence.tree d) declaration?
      (((words commandWords).maybe (commandWords.map .word)).bind fun o => o.elim (.done none)
        fun k => (Phrase.sentence.after (.word k)).bind fun d => .done (some d)) := by
    refine .here fun start => (acceptAnyOf_follows commandWords).option ?_ (.pure .none)
    rintro k _ rfl
    exact (commandOf_follows k).bind fun c d hc => .spanFrom fun s =>
      .pure (.some (congrArg (Declaration.mk default) hc))
  refine h.mono ?_ ?_
  · rintro ts o r ⟨_ | k, _, ⟨hn, hs⟩, h⟩
    · obtain ⟨rfl, rfl⟩ := h
      exact ⟨hn, hs⟩
    · obtain ⟨d, _, hd, rfl, rfl⟩ := h
      exact ⟨hn, hs.2.trans hd⟩
  · rintro ts (_ | d) r ⟨hn, hd⟩
    · exact ⟨none, r, ⟨hn, hd⟩, rfl, rfl⟩
    · cases ts with
      | nil => exact hn.elim
      | cons t ts =>
        obtain ⟨k, hk, hkind⟩ := List.mem_map.1 hn
        cases (kind_eq_word k t).1 hkind.symm
        exact ⟨some k, ts, ⟨hn, hk, rfl⟩, d, r, hd, rfl, rfl⟩

theorem program_follows (n : Nat) :
    Follows n (fun (P : Program) ds => P.map Declaration.unplaced = ds.map Sentence.tree)
      (many declaration?) Phrase.sentence.list :=
  Follows.imp (declaration?_follows.many (by simp [Phrase.sentence, commandWords]))
    map_eq_map_of_forall₂

/-- A derivation of `f x -> Type 1`: calls bind tighter than arrows. -/
example : (Full.headed (.arrow (.mk (.name "f") [.name "x"])
    (.spine (.mk (.type (some ⟨"1", by decide⟩)) [])))).yield
      = [.name "f", .name "x", .symbol .arrow, .word .type, .number "1"] := by decide

end Grammar
end Constructions
