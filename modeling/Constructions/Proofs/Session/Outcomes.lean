/-
# Outcomes that can be read again

An outcome shows a term that was elaborated and its type.  In the signature that a session has in
the end the term still has the type, which has a value, and the term is flat (`Session.run_judges`).
So the text of the term is read and elaborated to the term itself
(`Session.run_elaborate_printed`), on three conditions, each with a program that needs it
(`Session.printed_not_recovered`).

* `Term.Placed`: `eval |x : Type| (let y = x; y)` is printed as `|x : Type| let y : Type = x; y`.
  A local definition stands where there is none in the grammar.
* `Term.Named`: `check |B| |x| x : |A : Type| -> A -> A` is printed as `|B : Type| |x : A| x`.  The
  domain of `x` is read back from the expected type, with a name that is not in scope.
* `Term.Settled`: `eval ((|A : (|B : Type 2| B) (Type 1)| A) : Type 1 -> Type 1) Type` is printed
  as `(|A : (|B : Type 2| B) (Type 1)| A) Type`.  The type of the function is not expected any
  more, so its domain is computed.
-/

import Mathlib
import Constructions.Proofs.Elaboration.Flat
import Constructions.Proofs.Elaboration.Recovery
import Constructions.Proofs.Session.Names
import Constructions.Proofs.Stability.Kept

namespace Constructions

/-! ### Closed values -/

section

variable {P : Label → Nat → Prop} {L : Leaves}

mutual

/-- A value without levels has no variables. -/
theorem Value.All.vars (hL : ∀ l, ¬ L.level l) : ∀ {v : Value}, v.All L → v.Vars P
  | .neutral _, hm => Neutral.All.vars hL hm
  | .type _, _ => trivial
  | .pi _ _, ⟨hd, hc⟩ => ⟨Value.All.vars hL hd, Closure.All.vars hL hc⟩
  | .lam _ _, ⟨hd, hc⟩ => ⟨Value.All.vars hL hd, Closure.All.vars hL hc⟩
  | .former _ _, has => Value.Alls.vars hL has
  | .con _ _, has => Value.Alls.vars hL has

theorem Neutral.All.vars (hL : ∀ l, ¬ L.level l) : ∀ {m : Neutral}, m.All L → m.Vars P
  | .var _ l, hl => (hL l hl).elim
  | .const _, _ => trivial
  | .app _ _, ⟨hf, ha⟩ => ⟨Neutral.All.vars hL hf, Value.All.vars hL ha⟩
  | .elim _ _ _, ⟨ht, hM, hms⟩ =>
    ⟨Neutral.All.vars hL ht, Value.All.vars hL hM, Value.Alls.vars hL hms⟩

theorem Closure.All.vars (hL : ∀ l, ¬ L.level l) : ∀ {c : Closure}, c.All L → c.Vars P
  | .mk _ _ _, ⟨henv, _⟩ => Value.Alls.vars hL henv

theorem Value.Alls.vars (hL : ∀ l, ¬ L.level l) :
    ∀ {vs : List Value}, Value.Alls L vs → Value.AllVars P vs
  | [], _ => trivial
  | _ :: _, ⟨hv, hvs⟩ => ⟨Value.All.vars hL hv, Value.Alls.vars hL hvs⟩

end

end

/-- **What a closed value is read back as has a value.** -/
theorem Value.exists_eval_readBack {Θ : Theory} {S : Signature} (hΘ : Θ.Models S)
    (hS : S.DefinesInScope) {n : Nat} {v : Value} {t : Term} (hv : v.All S.valueLeaves)
    (h : v.readBack S n 0 = .ok t) : ∃ w, t.eval S n [] = .ok w := by
  have hvars : v.Vars (LabelAt []) := Value.All.vars (fun _ h => h) hv
  have hle : S.valueLeaves.Le S.waiting :=
    ⟨fun h => h, S.leaves_le_waiting.stuck, fun _ => trivial, fun _ => trivial⟩
  have hnormal := Value.readBack_normal (Signature.waiting_closed hΘ) (hv.mono hle) h
  obtain ⟨w, hw, _⟩ := (readBack_eval n).1 h (Value.readBack_labelled hS hvars h) hnormal
  exact ⟨w, hw⟩

/-! ### What an outcome shows -/

/-- The term that was elaborated and its type, if an outcome shows one. -/
def Outcome.judgment? : Outcome → Option (Term × Term)
  | .declared _ => none
  | .evaluated t _ A => some (t, A)
  | .checked t A => some (t, A)

/-- A closed term has a type, which has a value.  The term is flat, everything in it is declared,
and each of its universes has a successor. -/
structure Judged (Θ : Theory) (S : Signature) (t A : Term) : Prop where
  flat : t.Flat
  all : t.All S.leaves
  typed : HasType Θ [] (t.under []) (A.under [])
  typeAll : A.All S.valueLeaves
  isType : ∃ m, HasType Θ [] (A.under []) (.atom (.type m))
  value : ∃ n v, A.eval S n [] = .ok v

section

variable {Θ Θ' : Theory} {S S' : Signature} {n : Nat} {t A : Term}

theorem Signature.Le.all_leaves (hle : S.Le S') (h : t.All S.leaves) : t.All S'.leaves := by
  refine Term.All.mono ?_ ?_ h
  · rintro c ⟨g, hg⟩
    exact ⟨g, hle.global hg⟩
  · exact fun _ h => h

theorem Signature.Le.all_valueLeaves (hle : S.Le S') (h : t.All S.valueLeaves) :
    t.All S'.valueLeaves := by
  refine Term.All.mono ?_ ?_ h
  · rintro c ⟨g, hg⟩
    exact ⟨g, hle.global hg⟩
  · exact fun _ h => h

/-- **A judgment stays when more is declared.** -/
theorem Judged.mono (h : Judged Θ S t A) (hΘ : Θ.Models S) (hle : S.Le S') (hT : Θ.Le Θ') :
    Judged Θ' S' t A := by
  obtain ⟨m, hm⟩ := h.isType
  obtain ⟨n, v, hv⟩ := h.value
  have hA : A.All S.declared := by
    refine Term.All.mono ?_ (fun _ _ => trivial) h.typeAll
    exact fun _ h => h
  exact ⟨h.flat, hle.all_leaves h.all, h.typed.mono hT hΘ.sound, hle.all_valueLeaves h.typeAll,
    ⟨m, hm.mono hT hΘ.sound⟩, n, v, (Term.eval_kept hΘ hle (le_refl n) .nil hA v hv).1⟩

/-- What was elaborated and checked once more. -/
theorem Judged.of_elaborate (hΘ : Θ.Models S) {e : Expression} {expected : Option Value}
    {v : Value} (hx : Context.Expects Θ [] noLevels S.valueLeaves expected)
    (he : e.elaborate S n expected = .ok (t, v)) (hA : A.All S.valueLeaves)
    (heq : Θ.Equal (v.plain noLevels) (A.under [])) {m : Nat}
    (hAt : HasType Θ [] (A.under []) (.atom (.type m))) (hvalue : ∃ k w, A.eval S k [] = .ok w) :
    Judged Θ S t A := by
  obtain ⟨⟨t', v'⟩, hel, he⟩ := bind_eq_ok.1 he
  obtain ⟨_, hcheck, he⟩ := bind_eq_ok.1 he
  cases he
  have hte := ((Context.sound hΘ n).elaborate .empty hx hel).1
  obtain ⟨hall, _⟩ := (Context.check_post (.empty hΘ) n t hte.type).of_ok (Check.at_eq_ok.1 hcheck)
  exact ⟨(Context.flattens n).elaborate hel, hall, hte.typed.conv heq, hA, ⟨m, hAt⟩, hvalue⟩

/-- The term and the read back type of an expression that was evaluated. -/
theorem Judged.of_evaluate (hΘ : Θ.Models S) (hS : S.DefinesInScope) {e : Expression} {v : Value}
    (he : e.elaborate S n none = .ok (t, v)) (hA : v.readBack S n 0 = .ok A) :
    Judged Θ S t A := by
  obtain ⟨⟨t', v'⟩, hel, he'⟩ := bind_eq_ok.1 he
  obtain ⟨_, _, he'⟩ := bind_eq_ok.1 he'
  cases he'
  have hv := ((Context.sound hΘ n).elaborate .empty .none hel).1.type
  obtain ⟨m, hm⟩ := hv.typed
  obtain ⟨hAall, hr⟩ := Context.Reads.empty.quote_reds hΘ hv.all hm hA
  exact .of_elaborate hΘ .none he hAall hr.equal (hm.reds hΘ.sound hr)
    ⟨n, Value.exists_eval_readBack hΘ hS hv.all hA⟩

/-- A term that was checked against a type, and the type. -/
theorem Judged.of_check (hΘ : Θ.Models S) {e e' : Expression} {v B : Value}
    (hA : e'.elaborateType S n = .ok (A, v)) (he : e.elaborate S n (some v) = .ok (t, B)) :
    Judged Θ S t A := by
  obtain ⟨⟨A', l⟩, hel, hA⟩ := bind_eq_ok.1 hA
  obtain ⟨v', hv, hA⟩ := bind_eq_ok.1 hA
  cases hA
  have hv := liftM_eq_ok.1 hv
  obtain ⟨hAall, hAt, hr, hvt⟩ := Context.annotation_sound hΘ .empty (Context.sound hΘ n) hel hv
  obtain ⟨⟨t', B'⟩, hte, he'⟩ := bind_eq_ok.1 he
  obtain ⟨_, _, he'⟩ := bind_eq_ok.1 he'
  cases he'
  obtain rfl := ((Context.sound hΘ n).elaborate .empty (.some hvt) hte).2 v rfl
  exact .of_elaborate hΘ (.some hvt) he hAall hr.equal.symm hAt ⟨n, _, hv⟩

end

/-! ### Outcomes of a session -/

/-- Everything that outcomes show holds in a signature. -/
def Judges (S : Signature) (os : List Outcome) : Prop :=
  ∃ Θ, S.Coherent Θ ∧ ∀ o ∈ os, ∀ t A, o.judgment? = some (t, A) → Judged Θ S t A

theorem Judges.of_steps {S S' : Signature} {os : List Outcome} (h : Judges S os)
    (hsteps : Relation.ReflTransGen Signature.Step S S') : Judges S' os := by
  induction hsteps with
  | refl => exact h
  | tail _ e ih =>
    obtain ⟨Θ, hΘ, hos⟩ := ih
    obtain ⟨Θ', hle, hΘ'⟩ := e.coherent hΘ
    exact ⟨Θ', hΘ', fun o ho t A ht => (hos o ho t A ht).mono hΘ.models (e.le hΘ) hle⟩

/-- **A command that shows a judgment** evaluates or checks, and declares nothing. -/
theorem Command.run_judgment {n : Nat} {span : Span} {c : Command} {S S' : Signature} {o : Outcome}
    {t A : Term} (h : (c.run n span).outcome S = .ok (o, S')) (ho : o.judgment? = some (t, A)) :
    S' = S ∧ ((∃ e v, Expression.elaborate S n e none = .ok (t, v) ∧ v.readBack S n 0 = .ok A) ∨
      ∃ e e' v B, Expression.elaborateType S n e' = .ok (A, v) ∧
        Expression.elaborate S n e (some v) = .ok (t, B)) := by
  cases c with
  | data name parameters arity constructors =>
    obtain ⟨_, _, h⟩ := bind_eq_ok.1 ((Declare.outcome_bind _ _ _).symm.trans h)
    obtain ⟨_, _, h⟩ := bind_eq_ok.1 ((Declare.outcome_bind _ _ _).symm.trans h)
    obtain ⟨_, _, h⟩ := bind_eq_ok.1 ((Declare.outcome_bind _ _ _).symm.trans h)
    obtain ⟨_, _, h⟩ := bind_eq_ok.1 ((Declare.outcome_bind _ _ _).symm.trans h)
    obtain ⟨_, _, h⟩ := bind_eq_ok.1 ((Declare.outcome_bind _ _ _).symm.trans h)
    cases h
    cases ho
  | postulate name type | define name type value =>
    obtain ⟨_, _, h⟩ := bind_eq_ok.1 ((Declare.outcome_bind _ _ _).symm.trans h)
    obtain ⟨_, _, h⟩ := bind_eq_ok.1 ((Declare.outcome_bind _ _ _).symm.trans h)
    cases h
    cases ho
  | evaluate term =>
    obtain ⟨o', ho', h⟩ := bind_eq_ok.1 ((Declare.outcome_elaborating _ _).symm.trans h)
    cases h
    obtain ⟨⟨t', v⟩, ht, ho'⟩ := bind_eq_ok.1 (mapError_eq_ok.1 ho')
    obtain ⟨normal, _, ho'⟩ := bind_eq_ok.1 ho'
    obtain ⟨A', hA, ho'⟩ := bind_eq_ok.1 ho'
    cases ho'
    cases ho
    exact ⟨rfl, .inl ⟨term, v, ht, liftM_eq_ok.1 hA⟩⟩
  | check term type =>
    obtain ⟨o', ho', h⟩ := bind_eq_ok.1 ((Declare.outcome_elaborating _ _).symm.trans h)
    cases h
    obtain ⟨⟨A', v⟩, hA, ho'⟩ := bind_eq_ok.1 (mapError_eq_ok.1 ho')
    obtain ⟨⟨t', B⟩, ht, ho'⟩ := bind_eq_ok.1 ho'
    cases ho'
    cases ho
    exact ⟨rfl, .inr ⟨term, type, v, B, hA, ht⟩⟩

theorem Session.step_judges {n : Nat} {σ σ' : Session} {d : Declaration}
    (hS : σ.signature.Reachable) (h : Judges σ.signature σ.outcomes)
    (hstep : step n σ d = .ok σ') : Judges σ'.signature σ'.outcomes := by
  have hext := (step_extends n σ d).of_ok hstep
  obtain ⟨o, S, hout, rfl⟩ := step_eq_ok hstep
  obtain ⟨Θ, hΘ, hos⟩ := h.of_steps hext.signature
  refine ⟨Θ, hΘ, fun o' ho' t A ht => ?_⟩
  obtain ho' | ho' := List.mem_append.1 ho'
  · exact hos o' ho' t A ht
  · obtain rfl := List.mem_singleton.1 ho'
    obtain ⟨rfl, ⟨e, v, he, hA⟩ | ⟨e, e', v, B, hA, he⟩⟩ := Command.run_judgment hout ht
    · exact .of_evaluate hΘ.models hS.definesInScope he hA
    · exact .of_check hΘ.models hA he

/-- **What a program shows holds in the signature that it leaves.** -/
theorem Session.run_judges {n : Nat} {P : Program} {σ : Session}
    (h : Session.run n {} P = (σ, none)) :
    σ.signature.Reachable ∧ Judges σ.signature σ.outcomes := by
  refine foldlM_invariant (I := fun σ => σ.signature.Reachable ∧ Judges σ.signature σ.outcomes)
    ?_ ?_ (run_eq_iff.1 h)
  · rintro σ d _ σ' ⟨hS, hσ⟩ hstep
    exact ⟨.trans hS ((step_extends n σ d).of_ok hstep).signature, step_judges hS hσ hstep⟩
  · obtain ⟨Θ, hΘ⟩ := Signature.Reachable.coherent .refl
    exact ⟨.refl, Θ, hΘ, by rintro o ⟨⟩⟩

/-! ### Reading the text of an outcome -/

/-- Positions make no difference to what an expression elaborates to. -/
theorem Expression.elaborate_of_unplaced {S : Signature} {n : Nat} {e : Expression}
    {expected : Option Value} {P : Term × Value → Prop}
    (h : Post (e.unplaced.elaborate S n expected) P (Stop.Lacks Halt.Resource)) :
    Post (e.elaborate S n expected) P (Stop.Lacks Halt.Resource) := by
  have hcarries := Expression.elaborate_unplaces thins_id (FuelLe.refl n) S e.kept_id expected
  rw [Signature.relabel_id, funext Value.relabel_id, Option.map_id'] at hcarries
  cases he : e.elaborate S n expected with
  | ok p =>
    rw [he] at hcarries
    have hp := h.of_ok hcarries
    rwa [relabelTyped, Term.relabel_id, Value.relabel_id] at hp
  | error s =>
    rw [he] at hcarries
    cases s with
    | halt stop =>
      obtain hfalse | hcarries := hcarries
      · exact hfalse.elim
      · exact h.of_error hcarries
    | error e' =>
      obtain hfalse | hcarries := hcarries
      · exact hfalse.elim
      · exact h.of_error hcarries

/-- **What is printed for an outcome denotes the term.**  Let a program from a source run to its
end, and let an outcome show a term and its type.  The term is printed, and its text is cut into
tokens and read.  If names are resolved as they were, local definitions stand where the grammar has
them and no domain is there to be computed, then what was read elaborates to the term itself, labels
included, against the type and in the signature that there is in the end.  The only way to fail is
to run out of fuel or to count further than 64 bits reach. -/
theorem Session.run_elaborate_printed {source : String} {P : Program} {n : Nat} {σ : Session}
    (hP : Program.ofSource? source = some P) (hrun : Session.run n {} P = (σ, none))
    {o : Outcome} (ho : o ∈ σ.outcomes) {t A : Term} (ht : o.judgment? = some (t, A))
    (hn : t.Named σ.signature []) (hp : t.Placed true) (hs : t.Settled σ.signature [] true) :
    ∃ text tokens e, t.print σ.signature = some text ∧ Token.lex text = .ok tokens ∧
      (Expression.parse tokens).result = .ok e ∧
      ∃ k v, (∀ m, k ≤ m → A.eval σ.signature m [] = .ok v) ∧
        ∀ m, e.elaborate σ.signature m (some v) = .ok (t, v) ∨
          ∃ h, e.elaborate σ.signature m (some v) = .error (.halt h) ∧ h.Resource := by
  obtain ⟨hS, Θ, hΘ, hos⟩ := run_judges hrun
  obtain ⟨hlabels, hnames⟩ := run_names hP hrun
  have hj := hos o ho t A ht
  -- The text is read: the labels are names from the source, and so is what is declared.
  have hrelabel : t.relabel (Label.only Token.IsName) = t := by
    have hrelabel := relabel_outcome hlabels ho
    cases o with
    | declared name => cases ht
    | evaluated t' v' A' =>
      cases ht
      exact (Outcome.evaluated.inj hrelabel).1
    | checked t' A' =>
      cases ht
      exact (Outcome.checked.inj hrelabel).1
  have hspelled := Term.spelled hS.registered hnames t hrelabel hn hj.all
    (hj.typed.declared hΘ.models)
  obtain ⟨text, tokens, e, htext, hlex, hparse, he⟩ := Term.parse_print hspelled hp
  refine ⟨text, tokens, e, htext, hlex, hparse, ?_⟩
  -- The type has a value, which the term has as its type.
  obtain ⟨k, v, hv⟩ := hj.value
  obtain ⟨m, hAt⟩ := hj.isType
  obtain ⟨hvall, hr⟩ := ((Context.Typed.empty hΘ.models).eval_all_post hj.typeAll hAt k).of_ok hv
  have hvt : v.IsType Θ [] σ.signature.valueLeaves noLevels :=
    ⟨hvall, m, hAt.reds hΘ.models.sound hr⟩
  have hl : t.Legible σ.signature [] := ⟨hn, hj.flat, hj.all.bounded⟩
  refine ⟨k, v, fun m hm => Term.eval_of_le hm hv, fun m => ?_⟩
  have hpost := Term.elaborate_expression hΘ.models hS.registered hl hs hvt
    (hj.typed.conv hr.equal) m
  rw [← he] at hpost
  have hpost := Expression.elaborate_of_unplaced hpost
  cases hx : e.elaborate σ.signature m (some v) with
  | ok p =>
    rw [hx] at hpost
    exact .inl (congrArg Except.ok hpost)
  | error s =>
    rw [hx] at hpost
    cases s with
    | halt h => exact .inr ⟨h, rfl, hpost⟩
    | error e' => exact hpost.elim

/-- A copy of a number, under a local definition that is used below two binders of a method. -/
theorem Session.copying_elaborate_printed :
    let N := Term.former ⟨0⟩ []
    let A := Term.pi none N N
    let t := Term.letIn (some "p") A (.con ⟨1⟩ []) (.lam (some "n") N (.elim (.var (some "n") 0)
      (.lam none N N) [.con ⟨0⟩ [], .lam none N (.lam (some "r") N
        (.app (.var (some "p") 3) (.var (some "r") 0)))]))
    ∃ P σ, Program.ofSource?
        "data N:Type{z:N,s:N->N}check let p=s;|n|elim n::|_|N{z,|_ r|p r}:N->N" = some P ∧
      Session.run 20 {} P = (σ, none) ∧ .checked t A ∈ σ.outcomes ∧
      t.Named σ.signature [] ∧ t.Placed true ∧ t.Settled σ.signature [] true ∧
      ∃ text tokens e, t.print σ.signature = some text ∧ Token.lex text = .ok tokens ∧
        (Expression.parse tokens).result = .ok e ∧
        ∃ k v, (∀ m, k ≤ m → A.eval σ.signature m [] = .ok v) ∧
          ∀ m, e.elaborate σ.signature m (some v) = .ok (t, v) ∨
            ∃ h, e.elaborate σ.signature m (some v) = .error (.halt h) ∧ h.Resource := by
  intro N A t
  have hsource : (Program.ofSource?
      "data N:Type{z:N,s:N->N}check let p=s;|n|elim n::|_|N{z,|_ r|p r}:N->N").map (fun P =>
        ((Session.run 20 {} P).1.outcomes, (Session.run 20 {} P).2,
          (Session.run 20 {} P).1.signature.familyName ⟨0⟩,
          (Session.run 20 {} P).1.signature.constructorName ⟨0⟩,
          (Session.run 20 {} P).1.signature.constructorName ⟨1⟩)) =
      some ([.declared "N", .checked t A], none, "N", "z", "s") := by cbv
  obtain ⟨P, hP, h⟩ := Option.map_eq_some_iff.1 hsource
  generalize hrun : Session.run 20 {} P = r at h
  obtain ⟨σ, failure⟩ := r
  simp only [Prod.mk.injEq] at h
  obtain ⟨houtcomes, rfl, hN, hz, hs⟩ := h
  have ho : Outcome.checked t A ∈ σ.outcomes := by simp [houtcomes]
  have hnamed : t.Named σ.signature [] := by
    simp [t, A, N, Term.Named, Term.AllNamed, hN, hz, hs, List.idxOf?, List.findIdx?_cons]
  have hplaced : t.Placed true := by simp [t, A, N, Term.Placed, Term.AllPlaced]
  have hsettled : t.Settled σ.signature [] true := by
    simp [t, A, N, Term.Settled, Term.AllSettled, Term.Still, Term.Normal, Term.Normals,
      Term.Stands, Term.AllStand]
  exact ⟨P, σ, hP, hrun, ho, hnamed, hplaced, hsettled,
    Session.run_elaborate_printed hP hrun ho rfl hnamed hplaced hsettled⟩

/-- **None of the conditions can be left out.**  Of three programs that run to their end, the term
that the first shows has a text that is not read, the text of the second names a variable that is
not in scope, and the text of the third elaborates to a term with another domain. -/
theorem Session.printed_not_recovered :
    (∃ P tokens cause,
      let t : Term := .lam (some "x") (.type 0)
        (.letIn (some "y") (.type 0) (.var (some "x") 0) (.var (some "y") 0))
      let q : Term := .lam (some "x") (.type 0) (.var (some "x") 0)
      let A : Term := .pi (some "x") (.type 0) (.type 0)
      let text := "|x : Type| let y : Type = x; y"
      Program.ofSource? "eval|x:Type|(let y=x;y)" = some P ∧
      Session.run 20 {} P = (⟨.empty, [.evaluated t q A]⟩, none) ∧
      t.print .empty = some text ∧ Token.lex text = .ok tokens ∧
      (Expression.parse tokens).result = .error cause) ∧
    (∃ P tokens e v span,
      let t : Term := .lam (some "B") (.type 0)
        (.lam (some "x") (.var (some "A") 0) (.var (some "x") 0))
      let A : Term := .pi (some "A") (.type 0) (.pi none (.var (some "A") 0) (.var (some "A") 1))
      let text := "|B : Type| |x : A| x"
      Program.ofSource? "check|B x|x:|A:Type|->A->A" = some P ∧
      Session.run 20 {} P = (⟨.empty, [.checked t A]⟩, none) ∧
      t.print .empty = some text ∧ Token.lex text = .ok tokens ∧
      (Expression.parse tokens).result = .ok e ∧ A.eval .empty 20 [] = .ok v ∧
      e.elaborate .empty 20 (some v) = .error (.error ⟨span, .notInScope "A"⟩)) ∧
    ∃ P tokens e v,
      let f (D : Term) : Term := .app (.lam (some "A") D (.var (some "A") 0)) (.type 0)
      let D : Term := .app (.lam (some "B") (.type 2) (.var (some "B") 0)) (.type 1)
      let text := "(|A : (|B : Type 2| B) (Type 1)| A) Type"
      Program.ofSource? "eval((|A:(|B:Type 2|B)(Type 1)|A):Type 1->Type 1)Type" = some P ∧
      Session.run 20 {} P = (⟨.empty, [.evaluated (f D) (.type 0) (.type 1)]⟩, none) ∧
      (f D).print .empty = some text ∧ Token.lex text = .ok tokens ∧
      (Expression.parse tokens).result = .ok e ∧ (Term.type 1).eval .empty 20 [] = .ok v ∧
      e.elaborate .empty 20 (some v) = .ok (f (.type 1), v) ∧
      (f D).relabel (fun _ => none) ≠ (f (.type 1)).relabel fun _ => none := by
  have hread (source : String) {r : Session × Option (Stop ElaborationError)}
      (h : (Program.ofSource? source).map (Session.run 20 {}) = some r) :
      ∃ P, Program.ofSource? source = some P ∧ Session.run 20 {} P = r :=
    Option.map_eq_some_iff.1 h
  refine ⟨?_, ?_, ?_⟩
  · obtain ⟨P, hP, hrun⟩ := hread "eval|x:Type|(let y=x;y)" (by cbv)
    exact ⟨P, _, _, hP, hrun, by cbv, by cbv, by cbv⟩
  · obtain ⟨P, hP, hrun⟩ := hread "check|B x|x:|A:Type|->A->A" (by cbv)
    exact ⟨P, _, _, _, _, hP, hrun, by cbv, by cbv, by cbv, by cbv, by cbv⟩
  · obtain ⟨P, hP, hrun⟩ :=
      hread "eval((|A:(|B:Type 2|B)(Type 1)|A):Type 1->Type 1)Type" (by cbv)
    exact ⟨P, _, _, _, hP, hrun, by cbv, by cbv, by cbv, by cbv, by cbv, by rintro ⟨⟩⟩

end Constructions
