/-
# Elaboration stays in scope

An expression is elaborated before anybody has checked it.  Whatever it is, no variable is looked up
that is not there, and the term and the type that come out mention only what is declared.  If the
expression is refused, so do the terms that the error shows (`Context.elaborationStays`).  So every
error can be told: a term that mentions only what is declared has a text.

| an error shows | read back from |
| --- | --- |
| a type that was found | the type of a subexpression |
| a type that was expected | a domain, or the type of a method |
| a mismatch of the kernel | what the second check compares |
-/

import Constructions.Elaboration
import Constructions.Proofs.Scope.Typing

namespace Constructions

/-- The terms that an error shows. -/
def ElaborationCause.terms : ElaborationCause → List Term
  | .expectedUniverse t => [t]
  | .expectedFunction t => [t]
  | .unexpectedLambda t => [t]
  | .invalidMotive t => [t]
  | .mismatch synthesized expected => [synthesized, expected]
  | .kernel e => e.terms
  | _ => []

/-- A procedure halts in scope, or it reports an error that shows declared terms. -/
def Stop.Shows (S : Signature) : Stop ElaborationError → Prop
  | .halt e => e.InScope
  | .error e => ∀ q ∈ e.cause.terms, q.Declared S

theorem Stop.shows_lift {S : Signature} {α : Type} {P : α → Prop} {x : Except Halt α}
    (h : Post x P Halt.InScope) : Post (liftM x : Elaborate α) P (Stop.Shows S) := .liftM h

/-- An argument is taken into the list of a former or constructor. -/
theorem Term.Declared.apply {S : Signature} {f a : Term} (hf : f.Declared S)
    (ha : a.Declared S) : (f.apply a).Declared S := by
  have hconcat {as : List Term} (has : Term.Declareds S as) : Term.Declareds S (as ++ [a]) := by
    rw [Term.declareds_iff] at has ⊢
    exact List.forall_mem_append.2 ⟨has, List.forall_mem_singleton.2 ha⟩
  cases f with
  | former F as => exact ⟨hf.1, hconcat hf.2⟩
  | con c as => exact ⟨hf.1, hconcat hf.2⟩
  | var | const | letIn | type | pi | lam | app | elim => exact ⟨hf, ha⟩

theorem Term.Scoped.apply {n : Nat} {f a : Term} (hf : f.Scoped n) (ha : a.Scoped n) :
    (f.apply a).Scoped n := by
  have hconcat {as : List Term} (has : Term.Scopeds n as) : Term.Scopeds n (as ++ [a]) := by
    rw [Term.scopeds_iff] at has ⊢
    exact List.forall_mem_append.2 ⟨has, List.forall_mem_singleton.2 ha⟩
  cases f with
  | former F as => exact hconcat hf
  | con c as => exact hconcat hf
  | var | const | letIn | type | pi | lam | app | elim => exact ⟨hf, ha⟩

namespace Context

variable {S : Signature} {Γ : Context} {L : Levels} {n : Nat} {α : Type} {P : α → Prop}

/-! ### Errors -/

theorem Visits.signature {Δ : Context} {t : Term} (h : Γ.Visits t Δ) :
    Δ.signature = Γ.signature := by
  induction h with
  | here => rfl
  | _ => assumption

/-- **What the kernel reports about a subterm** shows declared terms. -/
theorem Reports.shows (hS : Γ.signature.WellScoped) {t : Term} {x : Check α}
    (hx : Post x P (Reports Γ.signature (Γ.Visits t))) (span : Span) :
    Post (x.at span) P (Stop.Shows Γ.signature) := by
  cases x with
  | ok a => exact hx
  | error s =>
    cases s with
    | halt e => exact hx
    | error e =>
      obtain ⟨_, Δ, hΔ, hterms⟩ := hx
      intro q hq
      obtain ⟨n, v, hv, hquote, _⟩ := hterms q hq
      rw [quote, hΔ.signature] at hquote
      exact ((Value.readBack_scoped hS (fun _ h => h) hv n).of_ok hquote).1

section

variable (hS : Γ.signature.WellScoped) (h : Within Γ.signature L Γ)

include hS h

theorem Within.quote_shows {v : Value} (hv : v.WellScoped Γ.signature L) (n : Nat) :
    Post (liftM (Γ.quote n v) : Elaborate Term)
      (fun q => q.Declared Γ.signature ∧ q.Scoped Γ.level) (Stop.Shows Γ.signature) :=
  Stop.shows_lift ((h.quote_post hS hv n).mono (fun _ hq => hq.2) fun _ h => h)

/-- An error that shows a value of the context. -/
theorem Within.throwAt_shows {v : Value} (hv : v.WellScoped Γ.signature L)
    {cause : Term → ElaborationCause} (hcause : ∀ q, (cause q).terms = [q]) (span : Span) :
    Post (do
      let q ← Γ.quote n v
      (cause q).throwAt span : Elaborate α) P (Stop.Shows Γ.signature) := by
  refine Post.bind (h.quote_shows hS hv n) fun q _ hq t ht => ?_
  rw [hcause, List.mem_singleton] at ht
  exact ht ▸ hq.1

end

/-! ### The procedures of elaboration -/

/-- The term is in the scope of `level` variables and the type in that of the levels `L`, and both
mention only what is declared. -/
structure Fits (S : Signature) (L : Levels) (level : Nat) (p : Term × Value) : Prop where
  declared : p.1.Declared S
  bound : p.1.Scoped level
  type : p.2.WellScoped S L

/-- With `n` units of fuel, elaboration stays in scope. -/
structure ElaborationStays (S : Signature) (n : Nat) : Prop where
  elaborate : ∀ {Γ : Context} {L : Levels}, Within S L Γ → ∀ (e : Expression)
    {expected : Option Value}, (∀ A ∈ expected, A.WellScoped S L) →
    Post (Context.elaborate n Γ e expected) (Fits S L Γ.level) (Stop.Shows S)
  elaborateType : ∀ {Γ : Context} {L : Levels}, Within S L Γ → ∀ e : Expression,
    Post (Context.elaborateType n Γ e) (fun p => p.1.Declared S ∧ p.1.Scoped Γ.level)
      (Stop.Shows S)
  elaborateMotive : ∀ {Γ : Context} {L : Levels}, Within S L Γ → ∀ (e : Expression)
    {ds : List Value}, TeleWellScoped S L Γ.level ds →
    Post (Context.elaborateMotive n Γ e ds) (Fits S L Γ.level) (Stop.Shows S)

section

variable (hS : Γ.signature.WellScoped) (h : Within Γ.signature L Γ)

include hS h

/-- **A name is resolved** to a variable of the context or to what is declared. -/
theorem elaborate_var_stays (span : Span) (name : Name) :
    Post (Context.elaborate (n + 1) Γ (.var span name) none) (Fits Γ.signature L Γ.level)
      (Stop.Shows Γ.signature) := by
  have hclosed {A : Value} (hA : A.WellScoped Γ.signature .none) : A.WellScoped Γ.signature L :=
    hA.le fun _ hl => hl.elim
  rw [Context.elaborate]
  split
  · next i A hlookup =>
    obtain ⟨j, _, e⟩ := Option.bind_eq_some_iff.1 hlookup
    obtain ⟨b, hb, e⟩ := Option.bind_eq_some_iff.1 e
    cases e
    exact ⟨trivial, (List.getElem?_eq_some_iff.1 hb).1, (h.binding b (List.mem_of_getElem? hb)).1⟩
  · split
    · next found hlookup =>
      obtain ⟨entry, _, e⟩ := Option.bind_eq_some_iff.1 hlookup
      cases entry with
      | global =>
        obtain ⟨g, hg, e⟩ := Option.bind_eq_some_iff.1 e
        cases e
        exact ⟨trivial, trivial, hclosed (hS.type hg)⟩
      | family id =>
        obtain ⟨F, hF, e⟩ := Option.bind_eq_some_iff.1 e
        cases e
        exact ⟨⟨⟨F, hF⟩, trivial⟩, trivial, hclosed (hS.family hF)⟩
      | constructor id =>
        obtain ⟨K, hK, e⟩ := Option.bind_eq_some_iff.1 e
        cases e
        exact ⟨⟨⟨K, hK⟩, trivial⟩, trivial, hclosed (hS.constructor hK)⟩
    · rintro q ⟨⟩

omit hS h in
theorem elaborate_type_stays (span : Span) (level : UInt64) :
    Post (Context.elaborate (n + 1) Γ (.type span level) none) (Fits Γ.signature L Γ.level)
      (Stop.Shows Γ.signature) := by
  rw [Context.elaborate]
  split
  · exact ⟨trivial, trivial, trivial⟩
  · rintro q ⟨⟩

/-- **A function over a domain** stays in scope if its body does. -/
theorem abstraction_stays (label : Label) {d : Value} (hd : d.WellScoped Γ.signature L)
    {body : Context → Elaborate (Term × Value)}
    (hbody : Post (body (Γ.bind label d))
      (Fits Γ.signature (L.extend Γ.level 1) (Γ.level + 1)) (Stop.Shows Γ.signature)) :
    Post (Γ.abstraction n label d body) (Fits Γ.signature L Γ.level)
      (Stop.Shows Γ.signature) := by
  refine Post.bind (h.quote_shows hS hd n) fun D _ hD => ?_
  refine Post.bind hbody fun p _ hp => ?_
  have hquote := Within.quote_shows (Γ := Γ.bind label d) hS (h.bind label hd) hp.type n
  refine Post.bind hquote fun B _ hB => ?_
  refine ⟨⟨hD.1, hp.declared⟩, ⟨hD.2, hp.bound⟩, hd, h.alls_env, hB.1, ?_⟩
  rw [env, List.length_map]
  exact hB.2

variable (ih : ElaborationStays Γ.signature n)

include ih

/-- An annotation is elaborated, and then computed. -/
theorem elaborateType_eval_stays (e : Expression) {k : Term × UInt64 → Value → Elaborate α}
    (hk : ∀ p v, p.1.Declared Γ.signature → p.1.Scoped Γ.level → v.WellScoped Γ.signature L →
      Post (k p v) P (Stop.Shows Γ.signature)) :
    Post (do
      let p ← Context.elaborateType n Γ e
      let v ← Γ.eval n p.1
      k p v) P (Stop.Shows Γ.signature) := by
  refine Post.bind (ih.elaborateType h e) fun p _ hp => ?_
  exact Post.bind (Stop.shows_lift (h.eval_post hS hp.1 hp.2 n)) fun v _ hv => hk p v hp.1 hp.2 hv

/-- An argument is elaborated, and then computed. -/
theorem elaborate_eval_stays (e : Expression) {A : Value} (hA : A.WellScoped Γ.signature L)
    {k : Term × Value → Value → Elaborate α}
    (hk : ∀ p v, Fits Γ.signature L Γ.level p → v.WellScoped Γ.signature L →
      Post (k p v) P (Stop.Shows Γ.signature)) :
    Post (do
      let p ← Context.elaborate n Γ e (some A)
      let v ← Γ.eval n p.1
      k p v) P (Stop.Shows Γ.signature) := by
  refine Post.bind (ih.elaborate h e (by simpa using hA)) fun p _ hp => ?_
  exact Post.bind (Stop.shows_lift (h.eval_post hS hp.declared hp.bound n)) fun v _ hv =>
    hk p v hp hv

theorem elaborate_letIn_stays (span : Span) (label : Located Label) (argument body : Expression)
    {expected : Option Value} (hx : ∀ A ∈ expected, A.WellScoped Γ.signature L) :
    Post (Context.elaborate (n + 1) Γ (.letIn span label argument body) expected)
      (Fits Γ.signature L Γ.level) (Stop.Shows Γ.signature) := by
  refine Post.bind (ih.elaborate h argument (by simp)) fun p _ hp => ?_
  refine Post.bind (h.quote_shows hS hp.type n) fun D _ hD => ?_
  refine Post.bind (Stop.shows_lift (h.eval_post hS hp.declared hp.bound n)) fun v _ hv => ?_
  refine Post.bind (ih.elaborate (h.define label.value hp.type hv) body hx) fun q _ hq => ?_
  exact ⟨⟨hD.1, hp.declared, hq.declared⟩, ⟨hD.2, hp.bound, hq.bound⟩, hq.type⟩

theorem elaborate_typedLet_stays (span : Span) (label : Located Label)
    (type argument body : Expression) {expected : Option Value}
    (hx : ∀ A ∈ expected, A.WellScoped Γ.signature L) :
    Post (Context.elaborate (n + 1) Γ (.typedLet span label type argument body) expected)
      (Fits Γ.signature L Γ.level) (Stop.Shows Γ.signature) := by
  refine elaborateType_eval_stays hS h ih type fun D d hD hDs hd => ?_
  refine elaborate_eval_stays hS h ih argument hd fun p v hp hv => ?_
  refine Post.bind (ih.elaborate (h.define label.value hd hv) body hx) fun q _ hq => ?_
  exact ⟨⟨hD, hp.declared, hq.declared⟩, ⟨hDs, hp.bound, hq.bound⟩, hq.type⟩

theorem elaborate_call_stays (span : Span) (callee argument : Expression) :
    Post (Context.elaborate (n + 1) Γ (.call span callee argument) none)
      (Fits Γ.signature L Γ.level) (Stop.Shows Γ.signature) := by
  refine Post.bind (ih.elaborate h callee (by simp)) fun p _ hp => ?_
  obtain ⟨f, A⟩ := p
  obtain ⟨hf, hfs, hA⟩ := hp
  cases A with
  | pi d c =>
    refine elaborate_eval_stays hS h ih argument hA.1 fun p v hp hv => ?_
    refine Post.bind (Stop.shows_lift (Closure.instantiate_post hS hA.2 hv n)) fun w _ hw => ?_
    exact ⟨hf.apply hp.declared, hfs.apply hp.bound, hw⟩
  | neutral | type | lam | former | con => exact h.throwAt_shows hS hA (fun _ => rfl) _

/-- **A method is elaborated.**  Its constructor exists, since the family lists it. -/
theorem elaborate_method_stays {id : FamilyId} {F : Family}
    (hF : Γ.signature.family? id = some F) {c : ConstructorId} (hc : c ∈ F.constructors)
    {ps : List Value} (hlength : ps.length = F.parameterCount)
    (hps : Value.AllWellScoped Γ.signature L ps) {m : Value} (hm : m.WellScoped Γ.signature L)
    (method : Expression) :
    Post (do
        let K ← orDangling (Γ.signature.constructor? c)
        let type ← methodType Γ.signature n Γ.level Γ.env K ps m
        let (a, _) ← Context.elaborate n Γ method (some type)
        Except.ok a : Elaborate Term)
      (fun a => a.Declared Γ.signature ∧ a.Scoped Γ.level) (Stop.Shows Γ.signature) := by
  obtain ⟨K, hK, hfamily⟩ := (hS.registered.members hF c).1 hc
  obtain ⟨F', hF', hcount⟩ := hS.registered.parameters hK
  obtain rfl : F = F' := Option.some.inj (hF.symm.trans (hfamily ▸ hF'))
  refine Post.bind (P := (K = ·)) (.liftM (.orDangling hK rfl)) fun _ _ e => ?_
  cases e
  have htype := methodType_wellScoped hS h.below hK h.alls_env (List.length_map _) hps
    (hlength.trans hcount.symm) hm n
  refine Post.bind (Stop.shows_lift htype) fun T _ hT => ?_
  exact Post.bind (ih.elaborate h method (by simpa using hT)) fun p _ hp =>
    ⟨hp.declared, hp.bound⟩

theorem elaborate_elim_stays (span : Span) (target motive : Expression)
    (methods : List Expression) :
    Post (Context.elaborate (n + 1) Γ (.elim span target motive methods) none)
      (Fits Γ.signature L Γ.level) (Stop.Shows Γ.signature) := by
  refine Post.bind (ih.elaborate h target (by simp)) fun p _ hp => ?_
  obtain ⟨t, T⟩ := p
  obtain ⟨ht, hts, hT⟩ := hp
  have hsplit := splitTarget_wellScoped (n := n) (t := t) hS h hT
  refine Post.bind (Reports.shows hS hsplit target.span) ?_
  rintro ⟨F, ps, is⟩ _ ⟨⟨id, hF⟩, hlength, hps, his⟩
  dsimp only at hF hlength hps his ⊢
  rw [dispatch]
  cases htable : F.dispatch? with
  | none => rintro q ⟨⟩
  | some table =>
    have hcs := Family.constructors_of_dispatch? htable
    refine Post.bind (P := (table = ·)) rfl fun _ _ e => ?_
    cases e
    rw [← hcs]
    split
    · rintro q ⟨⟩
    refine Post.bind (Stop.shows_lift (motiveDomains_wellScoped hS hF hps n Γ.level))
      fun ds _ hds => ?_
    refine Post.bind (ih.elaborateMotive h motive hds) fun m _ hm => ?_
    refine Post.bind (Stop.shows_lift (motiveLevel?_wellScoped hS hds hm.type n)) fun o _ _ => ?_
    cases o with
    | none => exact h.throwAt_shows hS hm.type (fun _ => rfl) _
    | some l =>
      refine Post.bind (Stop.shows_lift (h.eval_post hS hm.declared hm.bound n)) fun v _ hv => ?_
      refine Post.bind (Post.mapM fun x hx => elaborate_method_stays hS h ih hF
        (List.of_mem_zip hx).2 hlength hps hv x.1) fun ms _ hms => ?_
      have hms := forall_mem_of_forall₂ hms
      refine Post.bind (Stop.shows_lift (h.eval_post hS ht hts n)) fun a _ ha => ?_
      have hargs : Value.AllWellScoped Γ.signature L (is ++ [a]) :=
        Value.allWellScoped_append.2 ⟨his, ha, trivial⟩
      refine Post.bind (Stop.shows_lift (Value.applyAll_post hS hv hargs n)) fun r _ hr => ?_
      exact ⟨⟨ht, hm.declared, Term.declareds_iff.2 fun m hm => (hms m hm).1⟩,
        ⟨hts, hm.bound, Term.scopeds_iff.2 fun m hm => (hms m hm).2⟩, hr⟩

/-- **Synthesis stays in scope.** -/
theorem synthesize_stays (e : Expression) :
    Post (Context.elaborate (n + 1) Γ e none) (Fits Γ.signature L Γ.level)
      (Stop.Shows Γ.signature) := by
  cases e with
  | var span name => exact elaborate_var_stays hS h span name
  | ascribe span term type =>
    refine elaborateType_eval_stays hS h ih type fun D d _ _ hd => ?_
    refine Post.bind (ih.elaborate h term (by simpa using hd)) fun p _ hp => ?_
    exact ⟨hp.declared, hp.bound, hd⟩
  | letIn span label a b => exact elaborate_letIn_stays hS h ih span label a b (by simp)
  | typedLet span label A a b => exact elaborate_typedLet_stays hS h ih span label A a b (by simp)
  | type span level => exact elaborate_type_stays span level
  | pi span label A B =>
    refine elaborateType_eval_stays hS h ih A fun D d hD hDs hd => ?_
    refine Post.bind (ih.elaborateType (h.bind label.value hd) B) fun q _ hq => ?_
    exact ⟨⟨hD, hq.1⟩, ⟨hDs, hq.2⟩, trivial⟩
  | lam span label b => rintro q ⟨⟩
  | typedLam span label A b =>
    refine elaborateType_eval_stays hS h ih A fun D d _ _ hd => ?_
    exact abstraction_stays hS h _ hd (ih.elaborate (h.bind label.value hd) b (by simp))
  | call span f a => exact elaborate_call_stays hS h ih span f a
  | elim span t M ms => exact elaborate_elim_stays hS h ih span t M ms

/-- A type that was synthesized is compared with the one that is expected. -/
theorem compare_stays (e : Expression) {A : Value} (hA : A.WellScoped Γ.signature L)
    (span : Span) :
    Post (do
      let (t, synthesized) ← Context.elaborate n Γ e none
      if ← Γ.convert n synthesized A then .ok (t, A)
      else do
        let found ← Γ.quote n synthesized
        let wanted ← Γ.quote n A
        (ElaborationCause.mismatch found wanted).throwAt span : Elaborate (Term × Value))
      (Fits Γ.signature L Γ.level) (Stop.Shows Γ.signature) := by
  refine Post.bind (ih.elaborate h e (by simp)) fun p _ hp => ?_
  refine Post.bind (Stop.shows_lift (Value.convert_post hS hp.type hA n)) fun b _ _ => ?_
  cases b with
  | true => exact ⟨hp.declared, hp.bound, hA⟩
  | false =>
    refine Post.bind (h.quote_shows hS hp.type n) fun q _ hq => ?_
    refine Post.bind (h.quote_shows hS hA n) fun r _ hr => ?_
    exact List.forall_mem_cons.2 ⟨hq.1, List.forall_mem_singleton.2 hr.1⟩

/-- A body is elaborated against the codomain of the type that is expected. -/
theorem body_stays (label : Label) {d : Value} {c : Closure}
    (hA : (Value.pi d c).WellScoped Γ.signature L) {D : Term} (hD : D.Declared Γ.signature)
    (hDs : D.Scoped Γ.level) (body : Expression) :
    Post (do
      let codomain ← c.enter Γ.signature n Γ.level
      let (b, _) ← Context.elaborate n (Γ.bind label d) body (some codomain)
      .ok (.lam label D b, .pi d c) : Elaborate (Term × Value))
      (Fits Γ.signature L Γ.level) (Stop.Shows Γ.signature) := by
  refine Post.bind (Stop.shows_lift (Closure.enter_post hS hA.2 n Γ.level)) fun C _ hC => ?_
  refine Post.bind (ih.elaborate (h.bind label hA.1) body (by simpa using hC)) fun p _ hp => ?_
  exact ⟨⟨hD, hp.declared⟩, ⟨hDs, hp.bound⟩, hA⟩

/-- **Elaboration against a type stays in scope.** -/
theorem verify_stays (e : Expression) {A : Value} (hA : A.WellScoped Γ.signature L) :
    Post (Context.elaborate (n + 1) Γ e (some A)) (Fits Γ.signature L Γ.level)
      (Stop.Shows Γ.signature) := by
  cases e with
  | letIn span label a b =>
    exact elaborate_letIn_stays hS h ih span label a b (by simpa using hA)
  | typedLet span label D a b =>
    exact elaborate_typedLet_stays hS h ih span label D a b (by simpa using hA)
  | lam span label b =>
    cases A with
    | pi d c =>
      refine Post.bind (h.quote_shows hS hA.1 n) fun D _ hD => ?_
      exact body_stays hS h ih _ hA hD.1 hD.2 b
    | neutral | type | lam | former | con => exact h.throwAt_shows hS hA (fun _ => rfl) _
  | typedLam span label D b =>
    cases A with
    | pi d c =>
      refine elaborateType_eval_stays hS h ih D fun p v hp hps hv => ?_
      refine Post.bind (Stop.shows_lift (Value.convert_post hS hv hA.1 n)) fun b _ _ => ?_
      cases b with
      | true => exact body_stays hS h ih _ hA hp hps _
      | false =>
        refine Post.bind (h.quote_shows hS hA.1 n) fun q _ hq => ?_
        exact List.forall_mem_cons.2 ⟨hp, List.forall_mem_singleton.2 hq.1⟩
    | neutral | type | lam | former | con => exact h.throwAt_shows hS hA (fun _ => rfl) _
  | var | ascribe | type | pi | call | elim => exact compare_stays hS h ih _ hA _

theorem elaborateType_stays (e : Expression) :
    Post (Context.elaborateType (n + 1) Γ e)
      (fun p => p.1.Declared Γ.signature ∧ p.1.Scoped Γ.level) (Stop.Shows Γ.signature) := by
  refine Post.bind (ih.elaborate h e (by simp)) fun p _ hp => ?_
  obtain ⟨t, A⟩ := p
  cases A with
  | type l => exact ⟨hp.declared, hp.bound⟩
  | neutral | pi | lam | former | con => exact h.throwAt_shows hS hp.type (fun _ => rfl) _

theorem elaborateMotive_stays (e : Expression) {ds : List Value}
    (hds : TeleWellScoped Γ.signature L Γ.level ds) :
    Post (Context.elaborateMotive (n + 1) Γ e ds) (Fits Γ.signature L Γ.level)
      (Stop.Shows Γ.signature) := by
  unfold Context.elaborateMotive
  split
  · next span label body d ds =>
    exact abstraction_stays hS h _ hds.head
      (ih.elaborateMotive (h.bind label.value hds.head) body hds.tail)
  · exact ih.elaborate h e (by simp)

end

/-- **Elaboration stays in scope,** on any expression. -/
theorem elaborationStays (hS : S.WellScoped) (n : Nat) : ElaborationStays S n := by
  induction n with
  | zero =>
    have hex := Halt.InScope.exhausted
    exact ⟨fun _ _ _ _ => hex, fun _ _ => hex, fun _ _ _ _ => hex⟩
  | succ n ih =>
    refine ⟨?_, ?_, ?_⟩
    · intro Γ L h e expected hx
      obtain rfl := h.signature
      cases expected with
      | none => exact synthesize_stays hS h ih e
      | some A => exact verify_stays hS h ih e (hx A rfl)
    · intro Γ L h e
      obtain rfl := h.signature
      exact elaborateType_stays hS h ih e
    · intro Γ L h e ds hds
      obtain rfl := h.signature
      exact elaborateMotive_stays hS h ih e hds

end Context

end Constructions
