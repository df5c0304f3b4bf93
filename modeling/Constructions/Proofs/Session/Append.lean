/-
# Programs with more behind them

A source may be continued by another one after a newline.  Then it is read as the declarations
of both (`Program.ofSource?_append`), the session of the first is extended by the second, and what
was printed for the first is printed again, with the signature that there is in the end
(`Outcome.text_of_le`).

| the first | the whole |
| --- | --- |
| runs | prints what the first prints, and perhaps more |
| fails | fails too, and prints the same |

Nothing is said of a run that is halted.  It has no report.
-/

import Mathlib
import Constructions.Proofs.Grammar
import Constructions.Proofs.Registry.Runs
import Constructions.Proofs.Session
import Constructions.Proofs.Token
import Constructions.Run

namespace Constructions

/-! ### Reading -/

/-- The program that a source is read as, if it is cut into tokens and these are accepted. -/
def Program.ofSource? (source : String) : Option Program :=
  (Token.lex source).toOption.bind fun tokens => (Program.parse tokens).result.toOption

theorem Program.ofSource?_eq_some {source : String} {P : Program} :
    ofSource? source = some P ↔
      ∃ tokens, Token.lex source = .ok tokens ∧ (Program.parse tokens).result = .ok P := by
  have hok {ε α : Type} {x : Except ε α} {a : α} : x.toOption = some a ↔ x = .ok a := by
    cases x <;> simp [Except.toOption]
  rw [ofSource?, Option.bind_eq_some_iff]
  simp only [hok]

/-- **Two sources joined by a newline are read as both programs**, apart from positions. -/
theorem Program.ofSource?_append {p q : String} {P Q : Program} (hp : ofSource? p = some P)
    (hq : ofSource? q = some Q) :
    ∃ R, ofSource? (p ++ "\n" ++ q) = some R ∧
      R.map Declaration.unplaced = P.map Declaration.unplaced ++ Q.map Declaration.unplaced := by
  obtain ⟨ts, hlex, hP⟩ := ofSource?_eq_some.1 hp
  obtain ⟨us, hlex', hQ⟩ := ofSource?_eq_some.1 hq
  obtain ⟨hpchars, hts⟩ := Token.lex_eq_ok_iff_chars.1 hlex
  obtain ⟨hqchars, hus⟩ := Token.lex_eq_ok_iff_chars.1 hlex'
  obtain ⟨ws, hws, hchars, hvisible⟩ := Token.exists_seam hts hus
  have hexact := Grammar.Follows.exact Grammar.program_follows
  obtain ⟨ds, hds⟩ := (hexact.accepts ts).1 ⟨P, hP⟩
  obtain ⟨es, hes⟩ := (hexact.accepts us).1 ⟨Q, hQ⟩
  have hall : (ds ++ es).flatMap Grammar.Phrase.sentence.yield = Token.visible ws := by
    rw [List.flatMap_append, hds, hes, hvisible]
  obtain ⟨R, hR⟩ := (hexact.accepts ws).2 ⟨ds ++ es, hall⟩
  refine ⟨R, ofSource?_eq_some.2 ⟨ws, Token.lex_eq_ok_iff_chars.2 ⟨?_, hws⟩, hR⟩, ?_⟩
  · rw [hchars, ← hpchars, ← hqchars]
    simp
  · rw [hexact.returns ws R _ hR hall, hexact.returns ts P _ hP hds,
      hexact.returns us Q _ hQ hes, List.map_append]

/-! ### Printing -/

/-- What is there before is there afterwards. -/
def Lasts {α : Type} (x y : Option α) : Prop := ∀ a, x = some a → y = some a

theorem Lasts.bind {α β : Type} {x y : Option α} {f g : α → Option β} (h : Lasts x y)
    (hf : ∀ a, Lasts (f a) (g a)) : Lasts (x >>= f) (y >>= g) := by
  intro b hb
  obtain ⟨a, ha, hb⟩ := Option.bind_eq_some_iff.1 hb
  exact Option.bind_eq_some_iff.2 ⟨a, h a ha, hf a b hb⟩

theorem Lasts.refl {α : Type} (x : Option α) : Lasts x x := fun _ h => h

section

variable {S S' : Signature}

namespace Term

mutual

/-- **The printed form of a term lasts**, whatever is declared later. -/
theorem tokens_of_le (h : S.Le S') : ∀ t : Term, Lasts (t.tokens S) (t.tokens S')
  | .var _ _ => .refl _
  | .const _ => .refl _
  | .type _ => .refl _
  | .letIn _ A a b => .bind (tokens_of_le h A) fun _ => .bind (tokens_of_le h a) fun _ =>
    .bind (tokens_of_le h b) fun _ => .refl _
  | .pi _ A B => .bind (tokens_of_le h A) fun _ => .bind (tokens_of_le h B) fun _ => .refl _
  | .lam _ A b => .bind (tokens_of_le h A) fun _ => .bind (tokens_of_le h b) fun _ => .refl _
  | .app f a => .bind (tokens_of_le h f) fun _ => .bind (tokens_of_le h a) fun _ => .refl _
  | .former id as => by
    intro ts hts
    obtain ⟨F, hF, hts⟩ := Option.bind_eq_some_iff.1 hts
    obtain ⟨state, hF', _⟩ := h.family hF
    refine Option.bind_eq_some_iff.2 ⟨_, hF', ?_⟩
    exact Lasts.bind (argumentTokens_of_le h as) (fun _ => .refl _) ts hts
  | .con id as => .bind (fun _ => h.constructor) fun _ =>
    .bind (argumentTokens_of_le h as) fun _ => .refl _
  | .elim t M ms => .bind (tokens_of_le h t) fun _ => .bind (tokens_of_le h M) fun _ =>
    .bind (methodTokens_of_le h ms) fun _ => .refl _

theorem argumentTokens_of_le (h : S.Le S') :
    ∀ ts : List Term, Lasts (argumentTokens S ts) (argumentTokens S' ts)
  | [] => .refl _
  | t :: ts => .bind (tokens_of_le h t) fun _ => .bind (argumentTokens_of_le h ts) fun _ => .refl _

theorem methodTokens_of_le (h : S.Le S') :
    ∀ ts : List Term, Lasts (methodTokens S ts) (methodTokens S' ts)
  | [] => .refl _
  | t :: ts => .bind (tokens_of_le h t) fun _ => .bind (methodTokens_of_le h ts) fun _ => .refl _

end

theorem inMessage_of_le (h : S.Le S') {t : Term} {s : String} (ht : t.inMessage S = .ok s) :
    t.inMessage S' = .ok s := by
  unfold inMessage print at ht ⊢
  cases hts : t.tokens S with
  | none =>
    rw [hts] at ht
    cases ht
  | some ts =>
    rw [hts] at ht
    rw [tokens_of_le h t ts hts]
    exact ht

end Term

/-- **The text of an outcome lasts**, whatever is declared later. -/
theorem Outcome.text_of_le (h : S.Le S') {o : Outcome} {s : String} (ho : o.text S = .ok s) :
    o.text S' = .ok s := by
  cases o with
  | declared name => exact ho
  | evaluated t v A =>
    obtain ⟨_, ht, ho⟩ := bind_eq_ok.1 ho
    obtain ⟨_, hA, ho⟩ := bind_eq_ok.1 ho
    obtain ⟨_, hv, ho⟩ := bind_eq_ok.1 ho
    refine bind_eq_ok.2 ⟨_, Term.inMessage_of_le h ht, bind_eq_ok.2 ⟨_, Term.inMessage_of_le h hA,
      bind_eq_ok.2 ⟨_, Term.inMessage_of_le h hv, ho⟩⟩⟩
  | checked t A =>
    obtain ⟨_, ht, ho⟩ := bind_eq_ok.1 ho
    obtain ⟨_, hA, ho⟩ := bind_eq_ok.1 ho
    exact bind_eq_ok.2 ⟨_, Term.inMessage_of_le h ht,
      bind_eq_ok.2 ⟨_, Term.inMessage_of_le h hA, ho⟩⟩

end

/-! ### Running -/

namespace Session

/-- The output of a session. -/
def Prints (σ : Session) (output : String) : Prop :=
  ∃ texts, σ.outcomes.mapM (·.text σ.signature) = .ok texts ∧ output = String.join texts

/-- **A session that goes on from another prints what that one prints**, and perhaps more. -/
theorem Prints.of_extends {σ σ' : Session} (hσ : σ.signature.Reachable) (h : Extends σ σ')
    {output output' : String} (hp : σ.Prints output) (hp' : σ'.Prints output') :
    ∃ rest, output' = output ++ rest := by
  obtain ⟨texts, htexts, rfl⟩ := hp
  obtain ⟨texts', htexts', rfl⟩ := hp'
  obtain ⟨os, hos⟩ := h.outcomes
  have hle := hσ.le_of_steps h.signature
  have hsame : σ.outcomes.mapM (·.text σ'.signature) = .ok texts :=
    mapM_eq_ok.2 ((mapM_eq_ok.1 htexts).imp fun _ _ ho => Outcome.text_of_le hle ho)
  rw [hos, List.mapM_append, hsame] at htexts'
  obtain ⟨_, h, htexts'⟩ := bind_eq_ok.1 htexts'
  cases h
  obtain ⟨more, _, h⟩ := bind_eq_ok.1 htexts'
  cases h
  exact ⟨String.join more, by simp⟩

/-- The exit code of a program and the session that it leaves, unless it is halted. -/
def exit? : Except (Stop ElaborationError × Session) Session → Option (Nat × Session)
  | .ok σ => some (0, σ)
  | .error (.error _, σ) => some (1, σ)
  | .error (.halt _, _) => none

theorem Extends.of_exit {σ : Session} {n : Nat} {P : Program} {x : Nat × Session}
    (h : exit? (P.foldlM (step n) σ) = some x) : Extends σ x.2 := by
  have hextends := foldlM_extends n σ P
  cases hfold : P.foldlM (step n) σ with
  | ok σ' =>
    rw [hfold] at h
    cases h
    exact hextends.of_ok hfold
  | error p =>
    obtain ⟨e, σ'⟩ := p
    rw [hfold] at h
    cases e with
    | halt e => cases h
    | error e =>
      cases h
      exact hextends.of_error hfold

/-- A report is about the session that the program leaves. -/
theorem exit?_of_runSource {width : List Char → Nat} {n : Nat} {p : String} {P : Program}
    {r : Report} (hp : Program.ofSource? p = some P) (hr : runSource width n p = .ok r) :
    ∃ σ, exit? (P.foldlM (step n) {}) = some (r.exitCode, σ) ∧ σ.Prints r.output := by
  obtain ⟨ts, hlex, hP⟩ := Program.ofSource?_eq_some.1 hp
  obtain ⟨ranges, hlexed⟩ := Token.lex_eq_ok_iff_lexed.1 hlex
  unfold runSource at hr
  rw [hlexed] at hr
  dsimp only at hr
  rw [hP] at hr
  dsimp only [Program.report] at hr
  rw [run_eq] at hr
  cases hfold : P.foldlM (step n) {} with
  | ok σ =>
    rw [hfold] at hr
    obtain ⟨texts, htexts, hr⟩ := bind_eq_ok.1 hr
    cases hr
    exact ⟨σ, rfl, texts, htexts, rfl⟩
  | error p =>
    obtain ⟨e, σ⟩ := p
    rw [hfold] at hr
    obtain ⟨texts, htexts, hr⟩ := bind_eq_ok.1 hr
    cases e with
    | halt h => cases hr
    | error e =>
      obtain ⟨errors, _, hr⟩ := bind_eq_ok.1 hr
      cases hr
      exact ⟨σ, rfl, texts, htexts, rfl⟩

/-- A program that is not halted ends alike with more fuel and without positions. -/
theorem exit?_unplaced {n m : Nat} (hnm : n ≤ m) {σ : Session} {P : Program}
    {x : Nat × Session} (h : exit? (P.foldlM (step n) σ) = some x) :
    exit? ((P.map Declaration.unplaced).foldlM (step m) σ) = some x := by
  have hcarry := foldlM_unplaced hnm σ P
  cases hfold : P.foldlM (step n) σ with
  | ok σ' =>
    rw [hfold] at h hcarry
    rw [mapError_eq_ok.1 hcarry]
    exact h
  | error p =>
    obtain ⟨e, σ'⟩ := p
    rw [hfold] at h hcarry
    cases e with
    | halt e => cases h
    | error e =>
      obtain hlacks | hcarry := hcarry
      · exact hlacks.elim
      cases hfold' : (P.map Declaration.unplaced).foldlM (step m) σ with
      | ok σ'' =>
        rw [hfold'] at hcarry
        cases hcarry
      | error p' =>
        obtain ⟨e', σ''⟩ := p'
        rw [hfold'] at hcarry
        obtain ⟨he, rfl⟩ := Prod.ext_iff.1 (Except.error.inj hcarry)
        cases e' with
        | halt e' => cases he
        | error e' => exact h

end Session

/-- **What a source prints stays when more is appended.**  If the source runs, then the longer
one prints what it prints, and perhaps more; if the source fails, then the longer one fails and
prints exactly the same. -/
theorem runSource_append {width : List Char → Nat} {p q : String}
    (hp : (Program.ofSource? p).isSome) (hq : (Program.ofSource? q).isSome) {n m : Nat}
    {r r' : Report} (hr : runSource width n p = .ok r)
    (hr' : runSource width m (p ++ "\n" ++ q) = .ok r') :
    r.exitCode = 0 ∧ (∃ rest, r'.output = r.output ++ rest) ∨
      r.exitCode = 1 ∧ r'.exitCode = 1 ∧ r'.output = r.output := by
  obtain ⟨P, hp⟩ := Option.isSome_iff_exists.1 hp
  obtain ⟨Q, hq⟩ := Option.isSome_iff_exists.1 hq
  obtain ⟨R, hpq, hR⟩ := Program.ofSource?_append hp hq
  obtain ⟨σ, hσ, hprint⟩ := Session.exit?_of_runSource hp hr
  obtain ⟨σ', hσ', hprint'⟩ := Session.exit?_of_runSource hpq hr'
  -- Both programs are compared without positions and with the larger fuel.
  replace hσ := Session.exit?_unplaced (Nat.le_max_left n m) hσ
  replace hσ' := Session.exit?_unplaced (Nat.le_max_right n m) hσ'
  rw [hR, List.foldlM_append] at hσ'
  cases hfold : (P.map Declaration.unplaced).foldlM (Session.step (max n m)) {} with
  | ok τ =>
    rw [hfold] at hσ hσ'
    obtain ⟨hcode, rfl⟩ := Prod.ext_iff.1 (Option.some.inj hσ)
    have hτ := (Session.foldlM_extends _ _ _).of_ok hfold
    exact .inl ⟨hcode.symm, hprint.of_extends hτ.signature (.of_exit hσ') hprint'⟩
  | error p =>
    obtain ⟨e, τ⟩ := p
    rw [hfold] at hσ hσ'
    -- The longer program ends here, too.
    obtain ⟨hcode', rfl⟩ := Prod.ext_iff.1 (Option.some.inj (hσ'.symm.trans hσ))
    obtain ⟨texts, htexts, houtput⟩ := hprint
    obtain ⟨texts', htexts', houtput'⟩ := hprint'
    cases htexts.symm.trans htexts'
    have hcode : r.exitCode = 1 := by
      cases e with
      | halt e => cases hσ
      | error e => exact (Prod.ext_iff.1 (Option.some.inj hσ)).1.symm
    exact .inr ⟨hcode, hcode'.trans hcode, houtput'.trans houtput.symm⟩

/-- The comment at the seam ends before the second source, which fails; so the third source, which
would declare `x`, changes nothing. -/
theorem runSource_append_seam : ∃ r r' r'',
    runSource List.length 9 "eval Type%" = .ok r ∧
    runSource List.length 9 ("eval Type%" ++ "\n" ++ "eval x%") = .ok r' ∧
    runSource List.length 9 ("eval Type%" ++ "\n" ++ "eval x%" ++ "\n" ++ "axiom x : Type")
      = .ok r'' ∧
    (r.exitCode = 0 ∧ ∃ rest, r'.output = r.output ++ rest) ∧
    (r'.exitCode = 1 ∧ r''.exitCode = 1 ∧ r''.output = r'.output) := by
  have hcode {x : Except Halt Report} {code : Nat} (h : x.map Report.exitCode = .ok code) :
      ∃ r, x = .ok r ∧ r.exitCode = code := by
    cases x with
    | ok r => exact ⟨r, rfl, Except.ok.inj h⟩
    | error e => cases h
  obtain ⟨r, hr, h0⟩ : ∃ r, runSource List.length 9 "eval Type%" = .ok r ∧ r.exitCode = 0 :=
    hcode (by cbv)
  obtain ⟨r', hr', h1⟩ : ∃ r, runSource List.length 9 ("eval Type%" ++ "\n" ++ "eval x%") = .ok r ∧
      r.exitCode = 1 := hcode (by cbv)
  obtain ⟨r'', hr'', _⟩ : ∃ r, runSource List.length 9
      ("eval Type%" ++ "\n" ++ "eval x%" ++ "\n" ++ "axiom x : Type") = .ok r ∧ r.exitCode = 1 :=
    hcode (by cbv)
  refine ⟨r, r', r'', hr, hr', hr'', ?_, ?_⟩
  · refine (runSource_append (by cbv) (by cbv) hr hr').resolve_right fun h => ?_
    cases h0.symm.trans h.1
  · refine (runSource_append (by cbv) (by cbv) hr' hr'').resolve_left fun h => ?_
    cases h1.symm.trans h.1

end Constructions
