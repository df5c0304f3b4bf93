/-
# What a run says can be said

Outcomes and errors show terms, and a term has a text if each family and constructor in it is
declared (`Term.exists_print`).  What is declared stays declared, so it is enough that an outcome or
an error shows declared terms when it comes up.

| shown by | declared because |
| --- | --- |
| an outcome | elaboration and reading back stay in scope |
| an error of elaboration | so do the types that were found and expected |
| an error of the kernel | the terms that it is given were elaborated before |

So whenever a program is not halted, all its outcomes have a text, and so does its error
(`Session.run_texts`).
-/

import Constructions.Proofs.Scope.Elaboration
import Constructions.Proofs.Scope.Runs
import Constructions.Proofs.Session.Families
import Constructions.Run

namespace Constructions

/-! ### Texts of terms -/

namespace Term

variable {S : Signature}

mutual

theorem exists_tokens : ∀ t : Term, t.Declared S → ∃ ts, t.tokens S = some ts
  | .var label _, _ => ⟨[label.token], rfl⟩
  | .const name, _ => ⟨[.name name], rfl⟩
  | .type level, _ => by
    rw [tokens]
    split <;> exact ⟨_, rfl⟩
  | .letIn _ A a b, ⟨hA, ha, hb⟩ => by
    obtain ⟨_, hA⟩ := exists_tokens A hA
    obtain ⟨_, ha⟩ := exists_tokens a ha
    obtain ⟨_, hb⟩ := exists_tokens b hb
    rw [tokens, hA, ha, hb]
    exact ⟨_, rfl⟩
  | .pi label A B, ⟨hA, hB⟩ => by
    obtain ⟨_, hA⟩ := exists_tokens A hA
    obtain ⟨_, hB⟩ := exists_tokens B hB
    rw [tokens, hA, hB]
    dsimp only [bind, Option.bind]
    split <;> exact ⟨_, rfl⟩
  | .lam _ A b, ⟨hA, hb⟩ => by
    obtain ⟨_, hA⟩ := exists_tokens A hA
    obtain ⟨_, hb⟩ := exists_tokens b hb
    rw [tokens, hA, hb]
    exact ⟨_, rfl⟩
  | .app f a, ⟨hf, ha⟩ => by
    obtain ⟨_, hf⟩ := exists_tokens f hf
    obtain ⟨_, ha⟩ := exists_tokens a ha
    rw [tokens, hf, ha]
    exact ⟨_, rfl⟩
  | .former id as, ⟨⟨F, hF⟩, has⟩ => by
    obtain ⟨⟨_, has⟩, _⟩ := exists_listTokens as has
    rw [tokens, hF, has]
    exact ⟨_, rfl⟩
  | .con id as, ⟨⟨K, hK⟩, has⟩ => by
    obtain ⟨⟨_, has⟩, _⟩ := exists_listTokens as has
    rw [tokens, hK, has]
    exact ⟨_, rfl⟩
  | .elim t M ms, ⟨ht, hM, hms⟩ => by
    obtain ⟨_, ht⟩ := exists_tokens t ht
    obtain ⟨_, hM⟩ := exists_tokens M hM
    obtain ⟨_, _, hms⟩ := exists_listTokens ms hms
    rw [tokens, ht, hM, hms]
    exact ⟨_, rfl⟩

theorem exists_listTokens : ∀ ts : List Term, Term.Declareds S ts →
    (∃ us, argumentTokens S ts = some us) ∧ ∃ us, methodTokens S ts = some us
  | [], _ => ⟨⟨[], rfl⟩, [], rfl⟩
  | t :: ts, ⟨ht, hts⟩ => by
    obtain ⟨_, ht⟩ := exists_tokens t ht
    obtain ⟨⟨_, has⟩, _, hms⟩ := exists_listTokens ts hts
    rw [argumentTokens, methodTokens, ht, has, hms]
    exact ⟨⟨_, rfl⟩, _, rfl⟩

end

/-- **A term that mentions only what is declared has a text.** -/
theorem exists_print {t : Term} (h : t.Declared S) : ∃ text, t.inMessage S = .ok text := by
  obtain ⟨ts, hts⟩ := exists_tokens t h
  exact ⟨Token.textAll ts, by rw [inMessage, print, hts]; rfl⟩

end Term

/-- The terms that an outcome shows. -/
def Outcome.terms : Outcome → List Term
  | .declared _ => []
  | .evaluated term normal type => [term, normal, type]
  | .checked term type => [term, type]

theorem Outcome.exists_text {S : Signature} {o : Outcome} (h : ∀ t ∈ o.terms, t.Declared S) :
    ∃ text, o.text S = .ok text := by
  cases o with
  | declared name => exact ⟨"", rfl⟩
  | evaluated t q A =>
    obtain ⟨_, ht⟩ := Term.exists_print (h t (by simp [terms]))
    obtain ⟨_, hA⟩ := Term.exists_print (h A (by simp [terms]))
    obtain ⟨_, hq⟩ := Term.exists_print (h q (by simp [terms]))
    rw [text, ht, hA, hq]
    exact ⟨_, rfl⟩
  | checked t A =>
    obtain ⟨_, ht⟩ := Term.exists_print (h t (by simp [terms]))
    obtain ⟨_, hA⟩ := Term.exists_print (h A (by simp [terms]))
    rw [text, ht, hA]
    exact ⟨_, rfl⟩

theorem exists_mismatchText {S : Signature} (kind : String) {expected found : Term}
    (he : expected.Declared S) (hf : found.Declared S) :
    ∃ text, mismatchText S kind expected found = .ok text := by
  obtain ⟨_, he⟩ := Term.exists_print he
  obtain ⟨_, hf⟩ := Term.exists_print hf
  rw [mismatchText, he, hf]
  exact ⟨_, rfl⟩

/-- **An error that shows declared terms has a text.** -/
theorem ElaborationCause.exists_text {S : Signature} {cause : ElaborationCause}
    (h : ∀ t ∈ cause.terms, t.Declared S) (shown : Name → String) :
    ∃ text, cause.text S shown = .ok text := by
  have hone {t : Term} (ht : t ∈ cause.terms) (f : String → String) :
      ∃ text, (do .ok (f (← t.inMessage S)) : Except Halt String) = .ok text := by
    obtain ⟨_, ht⟩ := Term.exists_print (h t ht)
    rw [ht]
    exact ⟨_, rfl⟩
  cases cause with
  | notInScope | synthesizedLambda | methodCount => exact ⟨_, rfl⟩
  | expectedUniverse t => exact hone (List.mem_singleton_self t) _
  | expectedFunction t => exact hone (List.mem_singleton_self t) _
  | unexpectedLambda t => exact hone (List.mem_singleton_self t) (_ ++ · ++ _)
  | invalidMotive t => exact hone (List.mem_singleton_self t) (_ ++ · ++ _)
  | mismatch synthesized expected =>
    exact exists_mismatchText _ (h expected (by simp [terms])) (h synthesized (by simp [terms]))
  | kernel e =>
    unfold text
    split
    all_goals first | contradiction | exact ⟨_, rfl⟩ | skip
    next expected found hcause =>
      cases hcause
      exact exists_mismatchText _ (h expected (.head _)) (h found (.tail _ (.head _)))

/-! ### Errors -/

/-- The error shows a term with something that is not declared. -/
def KernelError.Dangles (S : Signature) (e : KernelError) : Prop := ∃ t ∈ e.terms, ¬ t.Declared S

/-- The error shows a term with something that is not declared. -/
def ElaborationError.Dangles (S : Signature) (e : ElaborationError) : Prop :=
  ∃ t ∈ e.cause.terms, ¬ t.Declared S

section

variable {S : Signature} {α : Type} {n : Nat}

theorem Stop.Shows.spares {P : α → Prop} {x : Elaborate α} (h : Post x P (Stop.Shows S)) :
    Post x P (Stop.Outside (ElaborationError.Dangles S)) := by
  refine h.mono (fun _ h => h) fun s hs => ?_
  cases s with
  | halt e => trivial
  | error e =>
    rintro ⟨t, ht, hd⟩
    exact hd (hs t ht)

/-- An error about declarations shows no terms. -/
theorem KernelError.not_dangles (e : SignatureError) : ¬ KernelError.Dangles S (.signature e) := by
  rintro ⟨t, ht, _⟩
  cases ht

theorem Spares.of_signature (e : SignatureError) :
    Spares (KernelError.Dangles S) (e.throw : Check α) := KernelError.not_dangles e

/-- **What the kernel reports about a closed term** shows declared terms. -/
theorem Spares.of_reports (hS : S.WellScoped) {t : Term} {P : α → Prop} {x : Check α}
    (h : Post x P (Context.Reports S ((Context.empty S).Visits t))) :
    Spares (KernelError.Dangles S) x := by
  have hshows := (Stop.Shows.spares (Context.Reports.shows (Γ := .empty S) hS h default))
  cases x with
  | ok a => trivial
  | error s =>
    cases s with
    | halt e => trivial
    | error e => exact hshows

namespace Signature

theorem reserve_shows (S : Signature) (name : Name) :
    Spares (KernelError.Dangles S) (S.reserve name) :=
  S.reserve_spares (KernelError.not_dangles _)

theorem familyNamed_shows (S : Signature) (name : Name) :
    Spares (KernelError.Dangles S) (S.familyNamed name) := by
  unfold familyNamed
  split
  · exact .ok _
  · exact .of_signature _

theorem closeFamily_shows (S : Signature) (family : Name) :
    Spares (KernelError.Dangles S) (S.closeFamily family) := by
  refine .bind (S.familyNamed_shows family) fun F _ => ?_
  split
  · exact .of_signature _
  · split
    · exact .of_signature _
    · exact .ok _

theorem constructorFields_shows (S : Signature) (F : Family) (name : Name) (type : Value) :
    Spares (KernelError.Dangles S) (S.constructorFields n F name type) := by
  refine .bind (.lift _) fun P _ => .bind (.lift _) fun E _ => ?_
  -- What is left to do once the parameters were compared.
  have hrest (agree : Bool) : Spares (KernelError.Dangles S) (if !agree then
      (SignatureError.constructorParameters name).throw
    else do
      let fields ← P.body.telescope S n F.parameterCount none
      let recursiveFields ←
        S.recursivePositions n F P.parameters name F.parameterCount fields.domains
      let level := F.parameterCount + fields.length
      if ← S.isUniform n F P.parameters level fields.body then
        .ok (fields.length, recursiveFields)
      else (SignatureError.constructorTarget name).throw : Check (Nat × List Nat)) := by
    split
    · exact .of_signature _
    refine .bind (.lift _) fun T _ => .bind (S.recursivePositions_spares n F _
      (fun _ => KernelError.not_dangles _) _ _) fun r _ => .bind (.lift _) fun uniform _ => ?_
    cases uniform with
    | true => exact .ok _
    | false => exact .of_signature _
  dsimp only
  split
  · exact .bind (.lift _) fun agree _ => hrest agree
  · exact .bind (.ok false) fun agree _ => hrest agree

variable (hS : S.WellScoped) {type value : Term} (ht : type.Declared S)

include hS ht

/-- **A type is admitted, or the error shows declared terms.** -/
theorem admitType_shows : Spares (KernelError.Dangles S) (S.admitType n type) := by
  have hcheck := (Context.stays hS n).checkType Context.WellScoped.empty.within ht
  exact .bind (.of_reports hS hcheck) fun _ _ => .lift _

theorem postulate_shows (name : Name) :
    Spares (KernelError.Dangles S) (S.postulate n name type) :=
  .bind (S.reserve_shows name) fun _ _ => .bind (admitType_shows hS ht) fun _ _ => .ok _

theorem openFamily_shows (name : Name) (parameterCount : Nat) :
    Spares (KernelError.Dangles S) (S.openFamily n name parameterCount type) := by
  refine .bind (S.reserve_shows name) fun _ _ => .bind (admitType_shows hS ht) fun A _ => ?_
  refine .bind (.bind (.lift _) fun T _ => ?_) fun _ _ => .ok _
  split
  · exact .of_signature _
  · split
    · exact .ok _
    · exact .of_signature _

theorem declareConstructor_shows (family name : Name) :
    Spares (KernelError.Dangles S) (S.declareConstructor n family name type) := by
  refine .bind (S.familyNamed_shows family) fun F _ => ?_
  split
  · exact .of_signature _
  · exact .bind (S.reserve_shows name) fun _ _ => .bind (admitType_shows hS ht) fun A _ =>
      .bind (S.constructorFields_shows F name A) fun _ _ => .ok _

theorem define_shows {Θ : Theory} (hM : Θ.Models S) (hv : value.Declared S) (name : Name) :
    Spares (KernelError.Dangles S) (S.define n name type value) := by
  refine .bind (S.reserve_shows name) fun _ _ => .bind (admitType_shows hS ht) fun A hA => ?_
  have hcheck := (Context.stays hS n).check Context.WellScoped.empty.within hv
    ((hS.admitType hM hA).le fun _ hl => hl.elim)
  exact .bind (.of_reports hS hcheck) fun _ _ => .bind (.lift _) fun _ _ => .ok _

end Signature

end

/-! ### Closed expressions -/

section

variable {S : Signature} {n : Nat} (hS : S.WellScoped)

include hS

theorem Expression.elaborate_stays (e : Expression) {expected : Option Value}
    (hx : ∀ A ∈ expected, A.WellScoped S (.below 0)) :
    Post (e.elaborate S n expected) (Context.Fits S (.below 0) 0) (Stop.Shows S) := by
  have hempty := Context.WellScoped.empty (S := S).within
  refine Post.bind ((Context.elaborationStays hS n).elaborate hempty e hx) fun p _ hp => ?_
  have hcheck := (Context.stays hS n).check hempty hp.declared hp.type
  exact Post.bind (Context.Reports.shows (Γ := .empty S) hS hcheck e.span) fun _ _ _ => hp

theorem Expression.elaborateType_stays (e : Expression) :
    Post (e.elaborateType S n) (fun p => p.1.Declared S ∧ p.2.WellScoped S (.below 0))
      (Stop.Shows S) :=
  Context.elaborateType_eval_stays (Γ := .empty S) hS Context.WellScoped.empty.within
    (Context.elaborationStays hS n) e fun _ _ hp _ hv => ⟨hp, hv⟩

/-- The term and the type of a definition. -/
theorem Command.elaborateDefinition_stays (type : Option Expression) (value : Expression) :
    Post (elaborateDefinition S n type value) (fun p => p.1.Declared S ∧ p.2.Declared S)
      (Stop.Shows S) := by
  cases type with
  | some type =>
    refine Post.bind (type.elaborateType_stays hS) fun p _ hp => ?_
    refine Post.bind (value.elaborate_stays hS (by simpa using hp.2)) fun q _ hq => ?_
    exact ⟨hp.1, hq.declared⟩
  | none =>
    refine Post.bind (value.elaborate_stays hS (by simp)) fun p _ hp => ?_
    have hread := Value.readBack_scoped hS (fun _ hl => hl) hp.type n
    exact Post.bind (Stop.shows_lift hread) fun t _ ht => ⟨ht.1, hp.declared⟩

end

/-! ### Telescopes -/

/-- Each term is in the scope of `level` variables and of one for each term before it. -/
def Telescopic (S : Signature) : Nat → List (Label × Term) → Prop
  | _, [] => True
  | level, p :: T => p.2.Declared S ∧ p.2.Scoped level ∧ Telescopic S (level + 1) T

theorem Telescopic.mono {S S' : Signature} (hle : S.Le S') {level : Nat}
    {T : List (Label × Term)} (h : Telescopic S level T) : Telescopic S' level T := by
  induction T generalizing level with
  | nil => trivial
  | cons p T ih => exact ⟨h.1.mono hle, h.2.1, ih h.2.2⟩

theorem Telescopic.pis {S : Signature} {level : Nat} {T : List (Label × Term)}
    (h : Telescopic S level T) {t : Term} (ht : t.Declared S) : (Term.pis T t).Declared S := by
  induction T generalizing level with
  | nil => exact ht
  | cons p T ih => exact ⟨h.1, ih h.2.2⟩

section

variable {Γ : Context} {L : Levels} {n : Nat} (hS : Γ.signature.WellScoped)
  (h : Context.Within Γ.signature L Γ)

include hS h

theorem elaborateParameters_stays (ps : List Parameter) :
    Post (elaborateParameters n Γ ps) (Telescopic Γ.signature Γ.level)
      (Stop.Shows Γ.signature) := by
  induction ps generalizing Γ L with
  | nil => trivial
  | cons p ps ih =>
    refine Context.elaborateType_eval_stays hS h (Context.elaborationStays hS n) p.type
      fun q v hq hqs hv => ?_
    refine Post.bind (ih (Γ := Γ.bind p.label.value v) hS (h.bind p.label.value hv))
      fun T _ hT => ?_
    exact ⟨hq, hqs, hT⟩

theorem bindAll_stays {T : List (Label × Term)} (hT : Telescopic Γ.signature Γ.level T) :
    Post (Γ.bindAll n T)
      (fun Δ => Δ.signature = Γ.signature ∧ ∃ L', Context.Within Γ.signature L' Δ)
      Halt.InScope := by
  induction T generalizing Γ L with
  | nil => exact ⟨rfl, L, h⟩
  | cons p T ih =>
    refine Post.bind (h.eval_post hS hT.1 hT.2.1 n) fun v _ hv => ?_
    exact ih (Γ := Γ.bind p.1 v) hS (h.bind p.1 hv) hT.2.2

end

theorem elaborateOver_stays {S : Signature} (hS : S.WellScoped) {n : Nat}
    {T : List (Label × Term)} (hT : Telescopic S 0 T) (e : Expression) :
    Post (elaborateOver S n T e) (·.Declared S) (Stop.Shows S) := by
  have hbind := bindAll_stays (Γ := .empty S) (n := n) hS Context.WellScoped.empty.within hT
  refine Post.bind (Stop.shows_lift hbind) fun Δ _ hΔ => ?_
  obtain ⟨L, hΔ⟩ := hΔ.2
  refine Post.bind ((Context.elaborationStays hS n).elaborateType hΔ e) fun p _ hp => ?_
  exact hT.pis hp.1

/-! ### Running declarations -/

namespace Declare

variable {α β : Type} {S : Signature} {P : α → Signature → Prop}

/-- A running declaration leaves a signature that was reached, and its result satisfies `P` there.
If it fails, then the error shows only what is declared by then. -/
def Tells (x : Declare α) (S : Signature) (P : α → Signature → Prop) : Prop :=
  Post (x.outcome S) (fun p => p.2.Reachable ∧ S.Le p.2 ∧ P p.1 p.2)
    fun p => p.1.Outside (ElaborationError.Dangles p.2)

namespace Tells

theorem imp {x : Declare α} {Q : α → Signature → Prop} (hx : x.Tells S P)
    (h : ∀ a S', P a S' → Q a S') : x.Tells S Q :=
  hx.mono (fun _ hp => ⟨hp.1, hp.2.1, h _ _ hp.2.2⟩) fun _ h => h

theorem bind {x : Declare α} {k : α → Declare β} {Q : β → Signature → Prop} (hx : x.Tells S P)
    (hk : ∀ a S', S'.Reachable → S.Le S' → P a S' → (k a).Tells S' Q) : (x >>= k).Tells S Q := by
  unfold Tells
  rw [outcome_bind]
  refine Post.bind hx fun p _ hp => ?_
  obtain ⟨hS', hle, hP⟩ := hp
  refine (hk p.1 p.2 hS' hle hP).mono (fun q hq => ?_) fun _ h => h
  exact ⟨hq.1, hle.trans hq.2.1, hq.2.2⟩

theorem pure (hS : S.Reachable) {a : α} (ha : P a S) : (pure a : Declare α).Tells S P :=
  ⟨hS, .refl S, ha⟩

theorem forM (hS : S.Reachable) {k : α → Declare PUnit} {as : List α}
    (hk : ∀ a ∈ as, ∀ S', S'.Reachable → S.Le S' → (k a).Tells S' fun _ _ => True) :
    (as.forM k).Tells S fun _ _ => True := by
  induction as generalizing S with
  | nil => exact pure hS trivial
  | cons a as ih =>
    refine bind (hk a List.mem_cons_self S hS (.refl S)) fun _ S' hS' hle _ => ih hS' ?_
    exact fun b hb S'' hS'' hle' => hk b (List.mem_cons_of_mem a hb) S'' hS'' (hle.trans hle')

theorem elaborating (hS : S.Reachable) {f : Signature → Elaborate α} {P : α → Prop}
    (hf : Post (f S) P (Stop.Shows S)) : (elaborating f).Tells S fun a S' => S' = S ∧ P a := by
  unfold Tells
  rw [outcome_elaborating]
  refine Post.bind (P := P) (.mapError (Stop.Shows.spares hf)) fun a _ ha => ?_
  exact ⟨hS, .refl S, rfl, ha⟩

theorem admitting (hS : S.Reachable) {span : Span} {u : Update α}
    {f : Signature → Check (Signature × α)} (hu : u.Refines f)
    (hf : Spares (KernelError.Dangles S) (f S)) (hstep : ∀ S' a, f S = .ok (S', a) → S.Step S') :
    (admitting span u).Tells S fun _ _ => True := by
  have hspares : Spares (ElaborationError.Dangles S) ((f S).at span) := hf.at_span fun _ h => h
  unfold Tells
  rw [outcome_admitting span hu]
  cases hfS : f S with
  | ok p =>
    have hreach : Relation.ReflTransGen Signature.Step S p.1 := .single (hstep p.1 p.2 hfS)
    exact ⟨.trans hS hreach, hS.le_of_steps hreach, trivial⟩
  | error s =>
    rw [hfS] at hspares
    cases s <;> exact hspares

end Tells

end Declare

/-- **A command shows only what is declared**, in its outcome and in its error. -/
theorem Command.run_tells {S : Signature} (hS : S.Reachable) (n : Nat) (span : Span)
    (c : Command) : (c.run n span).Tells S fun o S' => ∀ t ∈ o.terms, t.Declared S' := by
  have hw := hS.wellScoped
  cases c with
  | data name parameters arity constructors =>
    refine .bind (.elaborating hS (elaborateParameters_stays (Γ := .empty S) hw
      Context.WellScoped.empty.within parameters)) ?_
    rintro T _ - - ⟨rfl, hT⟩
    refine .bind (.elaborating hS (elaborateOver_stays hw hT arity)) ?_
    rintro type _ - - ⟨rfl, htype⟩
    refine .bind (.admitting hS (Update.openFamily_refines n _ _ type)
      (Signature.openFamily_shows hw htype _ _) fun S' id h => .openFamily n _ _ _ h)
      fun _ S₁ hS₁ hle₁ _ => .bind (.forM hS₁ fun c _ S' hS' hle => ?_) fun _ S₂ hS₂ _ _ => ?_
    · refine .bind (.elaborating hS' (elaborateOver_stays hS'.wellScoped
        (hT.mono (hle₁.trans hle)) c.type)) ?_
      rintro type _ - - ⟨rfl, htype⟩
      exact .bind (.admitting hS' (Update.declareConstructor_refines n _ _ type)
        (Signature.declareConstructor_shows hS'.wellScoped htype _ _)
        fun S' id h => .declareConstructor n _ _ _ h) fun _ S' hS' _ _ => .pure hS' trivial
    · exact .bind (.admitting hS₂ (Update.closeFamily_refines _)
        (S₂.closeFamily_shows name.value) fun S' id h => .closeFamily _ h)
        fun _ S' hS' _ _ => .pure hS' (by rintro t ⟨⟩)
  | postulate name type =>
    refine .bind (.elaborating hS (type.elaborateType_stays hw)) ?_
    rintro p _ - - ⟨rfl, hp⟩
    refine .bind (.admitting hS (Update.postulate_refines n _ _)
      (.bind (Signature.postulate_shows hw hp.1 _) fun _ _ => .ok _)
      fun S' _ h => ?_) fun _ S' hS' _ _ => .pure hS' (by rintro t ⟨⟩)
    obtain ⟨_, hS', h⟩ := bind_eq_ok.1 h
    cases h
    exact .postulate n _ _ hS'
  | define name type value =>
    refine .bind (.elaborating hS (elaborateDefinition_stays hw type value)) ?_
    rintro p _ - - ⟨rfl, hp⟩
    obtain ⟨Θ, hΘ⟩ := hS.coherent
    refine .bind (.admitting hS (Update.define_refines n _ _ _)
      (.bind (Signature.define_shows hw hp.1 hΘ.models hp.2 _) fun _ _ => .ok _)
      fun S' _ h => ?_) fun _ S' hS' _ _ => .pure hS' (by rintro t ⟨⟩)
    obtain ⟨_, hS', h⟩ := bind_eq_ok.1 h
    cases h
    exact .define n _ _ _ hS'
  | evaluate term =>
    refine (Declare.Tells.elaborating hS (P := fun o => ∀ t ∈ o.terms, t.Declared S) ?_).imp
      (by rintro o _ ⟨rfl, ho⟩; exact ho)
    refine Post.bind (term.elaborate_stays hw (by simp)) fun p _ hp => ?_
    have hempty : Value.AllWellScoped S (.below 0) [] := trivial
    have hvalue := Term.eval_post hw hempty hp.declared hp.bound n
    have hread {v : Value} (hv : v.WellScoped S (.below 0)) :=
      Value.readBack_scoped hw (fun _ hl => hl) hv n
    refine Post.bind (Stop.shows_lift (Post.bind hvalue fun v _ hv => hread hv)) fun q _ hq => ?_
    refine Post.bind (Stop.shows_lift (hread hp.type)) fun A _ hA => ?_
    exact List.forall_mem_cons.2 ⟨hp.declared, List.forall_mem_cons.2
      ⟨hq.1, List.forall_mem_singleton.2 hA.1⟩⟩
  | check term type =>
    refine (Declare.Tells.elaborating hS (P := fun o => ∀ t ∈ o.terms, t.Declared S) ?_).imp
      (by rintro o _ ⟨rfl, ho⟩; exact ho)
    refine Post.bind (type.elaborateType_stays hw) fun p _ hp => ?_
    refine Post.bind (term.elaborate_stays hw (by simpa using hp.2)) fun q _ hq => ?_
    exact List.forall_mem_cons.2 ⟨hq.declared, List.forall_mem_singleton.2 hp.1⟩

/-! ### Programs -/

namespace Session

/-- The outcomes of a session show only what is declared in it. -/
def Readable (σ : Session) : Prop := ∀ o ∈ σ.outcomes, ∀ t ∈ o.terms, t.Declared σ.signature

theorem step_readable {n : Nat} {σ : Session} (hS : σ.signature.Reachable) (h : σ.Readable)
    (d : Declaration) :
    Post (step n σ d) (fun σ' => σ'.signature.Reachable ∧ σ'.Readable)
      fun p => p.2.Readable ∧ p.1.Outside (ElaborationError.Dangles p.2.signature) := by
  have htells := Command.run_tells hS n d.span d.command
  have hext := step_extends n σ d
  unfold step Declaration.run at hext ⊢
  cases hrun : (d.command.run n d.span).outcome σ.signature with
  | ok p =>
    obtain ⟨hS', hle, ho⟩ := htells.of_ok hrun
    refine ⟨hS', List.forall_mem_append.2 ⟨fun o ho t ht => (h o ho t ht).mono hle, ?_⟩⟩
    exact List.forall_mem_singleton.2 ho
  | error p =>
    rw [hrun] at hext
    have hle := hS.le_of_steps hext.signature
    exact ⟨fun o ho t ht => (h o ho t ht).mono hle, htells.of_error hrun⟩

/-- **Whatever a program shows is declared**, also if it fails. -/
theorem foldlM_readable {n : Nat} {σ : Session} (hS : σ.signature.Reachable) (h : σ.Readable)
    (P : Program) :
    Post (P.foldlM (step n) σ) (fun σ' => σ'.signature.Reachable ∧ σ'.Readable)
      fun p => p.2.Readable ∧ p.1.Outside (ElaborationError.Dangles p.2.signature) := by
  induction P generalizing σ with
  | nil => exact ⟨hS, h⟩
  | cons d P ih =>
    rw [List.foldlM_cons]
    exact Post.bind (step_readable hS h d) fun σ' _ h' => ih h'.1 h'.2

/-- The outcomes of a session have texts. -/
theorem Readable.exists_output {σ : Session} (h : σ.Readable) :
    ∃ output, σ.outcomes.mapM (·.text σ.signature) = .ok output := by
  have hpost : Post (σ.outcomes.mapM (·.text σ.signature)) (fun _ => True) fun _ => False := by
    refine (Post.mapM (R := fun _ _ => True) fun o ho => ?_).mono (fun _ _ => trivial) fun _ h => h
    obtain ⟨text, htext⟩ := Outcome.exists_text (h o ho)
    rw [htext]
    trivial
  cases hout : σ.outcomes.mapM (·.text σ.signature) with
  | ok output => exact ⟨output, rfl⟩
  | error e => exact (hpost.of_error hout).elim

/-- **What a run says can be said.**  However a program ends, all outcomes that it has by then have
a text, and so has the error that it ends with. -/
theorem run_texts {n : Nat} {P : Program} {σ : Session} {failure : Option (Stop ElaborationError)}
    (h : Session.run n {} P = (σ, failure)) (shown : Name → String) :
    (∃ output, σ.outcomes.mapM (·.text σ.signature) = .ok output) ∧
      ∀ e, failure = some (.error e) → ∃ message, e.cause.text σ.signature shown = .ok message := by
  have hpost := foldlM_readable (n := n) (σ := {}) .refl (by rintro o ⟨⟩) P
  rw [run_eq] at h
  cases hfold : P.foldlM (step n) {} with
  | ok σ' =>
    rw [hfold] at h hpost
    cases h
    exact ⟨hpost.2.exists_output, nofun⟩
  | error p =>
    obtain ⟨s, σ'⟩ := p
    rw [hfold] at h hpost
    cases h
    refine ⟨hpost.1.exists_output, ?_⟩
    rintro e ⟨⟩
    refine ElaborationCause.exists_text (fun t ht => ?_) shown
    by_contra hd
    exact hpost.2 ⟨t, ht, hd⟩

end Session

end Constructions
