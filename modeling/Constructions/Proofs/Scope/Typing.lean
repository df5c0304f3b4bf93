/-
# Checking stays in scope

Terms are checked that nobody has checked before: they may use variables that do not exist, and
be of no type at all.  Inference and checking still never look up a variable that is not there,
in whatever context they are started; a term that gets a type has bound variables only, and its
type is a value of the scope.  If a term is refused, the terms that the error shows were read
back in the context of one of its subterms, and are well scoped there
(`Signature.Reachable.infer_wellScoped`).

A term is computed only after it was accepted, so that its variables are known to be bound.
-/

import Constructions.Proofs.Scope.Motive
import Constructions.Typing

namespace Constructions

/-! ### Contexts and their subterms -/

/-- The terms that an error shows. -/
def TypeError.terms : TypeError → List Term
  | .expectedUniverse t => [t]
  | .expectedFunction t => [t]
  | .expectedInductive t => [t]
  | .invalidMotive t => [t]
  | .mismatch expected found => [expected, found]
  | _ => []

/-- The terms that an error of the kernel shows. -/
def KernelError.terms : KernelError → List Term
  | .type e => e.terms
  | _ => []

namespace Context

/-- A context is built from values that are in scope where they are added. -/
inductive WellScoped (S : Signature) : Context → Prop where
  | empty : WellScoped S (.empty S)
  | bind {Γ : Context} {d : Value} (label : Label) : WellScoped S Γ →
      d.WellScoped S (.below Γ.level) → WellScoped S (Γ.bind label d)
  | define {Γ : Context} {d v : Value} (label : Label) : WellScoped S Γ →
      d.WellScoped S (.below Γ.level) → v.WellScoped S (.below Γ.level) →
      WellScoped S (Γ.define label d v)

/-- The contexts in which the subterms of a term stand, for a term in a context. -/
inductive Visits : Context → Term → Context → Prop where
  | here (Γ : Context) (t : Term) : Visits Γ t Γ
  | letType {Γ Δ : Context} {label : Label} {A a b : Term} : Visits Γ A Δ →
      Visits Γ (.letIn label A a b) Δ
  | letValue {Γ Δ : Context} {label : Label} {A a b : Term} : Visits Γ a Δ →
      Visits Γ (.letIn label A a b) Δ
  | letBody {Γ Δ : Context} {label : Label} {A a b : Term} {n m : Nat} {d v : Value} :
      Γ.eval n A = .ok d → Γ.eval m a = .ok v → Visits (Γ.define label d v) b Δ →
      Visits Γ (.letIn label A a b) Δ
  | piDomain {Γ Δ : Context} {label : Label} {A B : Term} : Visits Γ A Δ →
      Visits Γ (.pi label A B) Δ
  | piCodomain {Γ Δ : Context} {label : Label} {A B : Term} {n : Nat} {d : Value} :
      Γ.eval n A = .ok d → Visits (Γ.bind label d) B Δ → Visits Γ (.pi label A B) Δ
  | lamDomain {Γ Δ : Context} {label : Label} {A b : Term} : Visits Γ A Δ →
      Visits Γ (.lam label A b) Δ
  | lamBody {Γ Δ : Context} {label : Label} {A b : Term} {n : Nat} {d : Value} :
      Γ.eval n A = .ok d → Visits (Γ.bind label d) b Δ → Visits Γ (.lam label A b) Δ
  | callee {Γ Δ : Context} {f a : Term} : Visits Γ f Δ → Visits Γ (.app f a) Δ
  | argument {Γ Δ : Context} {f a : Term} : Visits Γ a Δ → Visits Γ (.app f a) Δ
  | former {Γ Δ : Context} {F : FamilyId} {a : Term} {as : List Term} : a ∈ as →
      Visits Γ a Δ → Visits Γ (.former F as) Δ
  | con {Γ Δ : Context} {c : ConstructorId} {a : Term} {as : List Term} : a ∈ as →
      Visits Γ a Δ → Visits Γ (.con c as) Δ
  | target {Γ Δ : Context} {t M : Term} {ms : List Term} : Visits Γ t Δ →
      Visits Γ (.elim t M ms) Δ
  | motive {Γ Δ : Context} {t M : Term} {ms : List Term} : Visits Γ M Δ →
      Visits Γ (.elim t M ms) Δ
  | method {Γ Δ : Context} {t M m : Term} {ms : List Term} : m ∈ ms → Visits Γ m Δ →
      Visits Γ (.elim t M ms) Δ

variable {S : Signature} {Γ : Context}

/-- The types and values of a context have variables at the given levels only. -/
structure Within (S : Signature) (L : Levels) (Γ : Context) : Prop where
  signature : Γ.signature = S
  binding : ∀ b ∈ Γ.bindings, b.type.WellScoped S L ∧ b.value.WellScoped S L
  below : ∀ l, L l → l < Γ.level

namespace Within

variable {L L' : Levels} {d v : Value}

/-- A local definition takes up a level, and no variable stands there. -/
theorem define (h : Within S L Γ) (label : Label) (hd : d.WellScoped S L)
    (hv : v.WellScoped S L) : Within S L (Γ.define label d v) where
  signature := h.signature
  binding := List.forall_mem_cons.2 ⟨⟨hd, hv⟩, h.binding⟩
  below l hl := Nat.lt_succ_of_lt (h.below l hl)

theorem bind (h : Within S L Γ) (label : Label) (hd : d.WellScoped S L) :
    Within S (L.extend Γ.level 1) (Γ.bind label d) where
  signature := h.signature
  binding := by
    have hle : ∀ l, L l → L.extend Γ.level 1 l := fun _ => Levels.le_extend Γ.level 1
    have hvar : (Value.var label Γ.level).WellScoped S (L.extend Γ.level 1) :=
      L.extend_self Γ.level
    refine List.forall_mem_cons.2 ⟨⟨hd.le hle, hvar⟩, fun b hb => ?_⟩
    exact ⟨(h.binding b hb).1.le hle, (h.binding b hb).2.le hle⟩
  below _ := Levels.extend_below h.below

/-- All levels of the context may be used. -/
theorem all (h : Within S L Γ) : Within S (.below Γ.level) Γ where
  signature := h.signature
  binding b hb := ⟨(h.binding b hb).1.le h.below, (h.binding b hb).2.le h.below⟩
  below _ hl := hl

end Within

/-- **The values of a context are in its scope.** -/
theorem WellScoped.within (h : WellScoped S Γ) : Within S (.below Γ.level) Γ := by
  induction h with
  | empty => exact ⟨rfl, by rintro b ⟨⟩, fun _ hl => hl⟩
  | bind label _ hd ih => exact (ih.bind label hd).all
  | define label _ hd hv ih => exact (ih.define label hd hv).all

/-! ### Reports -/

/-- A procedure halts in scope, or it reports an error.  The terms of the error were read back in
a context of the given kind, from values in its scope. -/
def Reports (S : Signature) (R : Context → Prop) : Stop KernelError → Prop
  | .halt e => e.InScope
  | .error e => e ≠ .violation .escapedVariable ∧ ∃ Δ, R Δ ∧ ∀ q ∈ e.terms, ∃ n v,
      v.WellScoped S (.below Δ.level) ∧ Δ.quote n v = .ok q ∧ q.Scoped Δ.level

variable {α : Type} {P : α → Prop} {R R' : Context → Prop}

theorem Reports.mono (h : ∀ Δ, R Δ → R' Δ) : ∀ {s}, Reports S R s → Reports S R' s
  | .halt _, he => he
  | .error _, ⟨he, Δ, hΔ, hterms⟩ => ⟨he, Δ, h Δ hΔ, hterms⟩

theorem Reports.imp {x : Check α} (hx : Post x P (Reports S R)) (h : ∀ Δ, R Δ → R' Δ) :
    Post x P (Reports S R') := hx.mono (fun _ h => h) fun _ => Reports.mono h

theorem Reports.lift {x : Except Halt α} (h : Post x P Halt.InScope) :
    Post (liftM x : Check α) P (Reports S R) := .liftM h

/-- An error that shows no terms. -/
theorem Reports.of_terms {e : KernelError} (he : e ≠ .violation .escapedVariable)
    (hterms : e.terms = []) {Δ : Context} (hΔ : R Δ) : Reports S R (.error e) := by
  refine ⟨he, Δ, hΔ, ?_⟩
  rw [hterms]
  rintro q ⟨⟩

section

variable {L : Levels} {n : Nat} (hS : Γ.signature.WellScoped) (h : Within Γ.signature L Γ)

include h

theorem Within.alls_env : Value.AllWellScoped Γ.signature L Γ.env := by
  refine Value.allWellScoped_iff.2 fun v hv => ?_
  obtain ⟨b, hb, rfl⟩ := List.mem_map.1 hv
  exact (h.binding b hb).2

include hS

theorem Within.eval_post {t : Term} (ht : t.Declared Γ.signature) (hs : t.Scoped Γ.level)
    (n : Nat) : Post (Γ.eval n t) (Value.WellScoped Γ.signature L) Halt.InScope := by
  refine Term.eval_post hS h.alls_env ht ?_ n
  rwa [env, List.length_map]

theorem Within.quote_post {v : Value} (hv : v.WellScoped Γ.signature L) (n : Nat) :
    Post (Γ.quote n v) (fun q => Γ.quote n v = .ok q ∧ q.Declared Γ.signature ∧ q.Scoped Γ.level)
      Halt.InScope := by
  have hq := Value.readBack_scoped hS h.below hv n
  exact .intro (fun q e => ⟨e, hq.of_ok e⟩) fun e he => hq.of_error he

/-- An error that shows a value of the context. -/
theorem Within.throw_post {v : Value} (hv : v.WellScoped Γ.signature L) (hR : R Γ)
    {e : Term → TypeError} (he : ∀ q, (e q).terms = [q]) :
    Post (do
      let q ← Γ.quote n v
      (e q).throw : Check α) P (Reports Γ.signature R) := by
  refine Post.bind (Reports.lift (h.quote_post hS hv n)) fun q _ hq =>
    ⟨by rintro ⟨⟩, Γ, hR, fun t ht => ?_⟩
  rw [KernelError.terms, he, List.mem_singleton] at ht
  exact ht ▸ ⟨n, v, hv.le h.below, hq.1, hq.2.2⟩

/-- A mismatch shows two values of the context. -/
theorem Within.mismatch_post {v w : Value} (hv : v.WellScoped Γ.signature L)
    (hw : w.WellScoped Γ.signature L) (hR : R Γ) :
    Post (do
      let expected ← Γ.quote n v
      let found ← Γ.quote n w
      (TypeError.mismatch expected found).throw : Check α) P (Reports Γ.signature R) := by
  refine Post.bind (Reports.lift (h.quote_post hS hv n)) fun q _ hq => ?_
  refine Post.bind (Reports.lift (h.quote_post hS hw n)) fun q' _ hq' =>
    ⟨by rintro ⟨⟩, Γ, hR, fun t ht => ?_⟩
  obtain rfl | ht := List.mem_cons.1 ht
  · exact ⟨n, v, hv.le h.below, hq.1, hq.2.2⟩
  · exact List.mem_singleton.1 ht ▸ ⟨n, w, hw.le h.below, hq'.1, hq'.2.2⟩

end

/-! ### The procedures of the kernel -/

/-- With `n` units of fuel, the procedures of the kernel stay in scope: they accept only terms
with bound variables, and the types that they find have variables at the levels of the context
only. -/
structure Stays (S : Signature) (n : Nat) : Prop where
  infer : ∀ {Γ : Context} {L : Levels}, Within S L Γ → ∀ {t : Term}, t.Declared S →
    Post (Context.infer n Γ t) (fun v => t.Scoped Γ.level ∧ v.WellScoped S L)
      (Reports S (Visits Γ t))
  check : ∀ {Γ : Context} {L : Levels}, Within S L Γ → ∀ {t : Term}, t.Declared S →
    ∀ {type : Value}, type.WellScoped S L →
    Post (Context.check n Γ t type) (fun _ => t.Scoped Γ.level) (Reports S (Visits Γ t))
  checkType : ∀ {Γ : Context} {L : Levels}, Within S L Γ → ∀ {t : Term}, t.Declared S →
    Post (Context.checkType n Γ t) (fun _ => t.Scoped Γ.level) (Reports S (Visits Γ t))
  inferArgument : ∀ {Γ : Context} {L : Levels}, Within S L Γ → ∀ {a : Term}, a.Declared S →
    ∀ {type : Value}, type.WellScoped S L →
    Post (Context.inferArgument n Γ type a) (fun v => a.Scoped Γ.level ∧ v.WellScoped S L)
      (Reports S fun Δ => Δ = Γ ∨ Visits Γ a Δ)
  inferSpine : ∀ {Γ : Context} {L : Levels}, Within S L Γ → ∀ {as : List Term},
    Term.Declareds S as → ∀ (arity : Nat) {type : Value}, type.WellScoped S L →
    Post (Context.inferSpine n Γ arity type as)
      (fun v => Term.Scopeds Γ.level as ∧ v.WellScoped S L)
      (Reports S fun Δ => Δ = Γ ∨ ∃ a ∈ as, Visits Γ a Δ)

section

variable {L : Levels} {n : Nat} (hS : Γ.signature.WellScoped) (ih : Stays Γ.signature n)
  (h : Within Γ.signature L Γ)

include hS ih h

/-- An annotation is accepted before it is computed. -/
theorem annotation_wellScoped {A : Term} (hA : A.Declared Γ.signature)
    (hR : ∀ Δ, Visits Γ A Δ → R Δ) {k : UInt64 → Value → Check α}
    (hk : ∀ {l : UInt64} {d : Value}, A.Scoped Γ.level → Γ.eval n A = .ok d →
      d.WellScoped Γ.signature L → Post (k l d) P (Reports Γ.signature R)) :
    Post (do
      let l ← Context.checkType n Γ A
      let d ← Γ.eval n A
      k l d) P (Reports Γ.signature R) := by
  refine Post.bind (Reports.imp (ih.checkType h hA) hR) fun l _ hs => ?_
  exact Post.bind (Reports.lift (h.eval_post hS hA hs n)) fun d hd hdw =>
    hk hs (liftM_eq_ok.1 hd) hdw

/-- The value of a local definition, or an argument, is accepted before it is computed. -/
theorem definition_wellScoped {a : Term} (ha : a.Declared Γ.signature) {d : Value}
    (hd : d.WellScoped Γ.signature L) (hR : ∀ Δ, Visits Γ a Δ → R Δ) {k : Value → Check α}
    (hk : ∀ {v : Value}, a.Scoped Γ.level → Γ.eval n a = .ok v →
      v.WellScoped Γ.signature L → Post (k v) P (Reports Γ.signature R)) :
    Post (do
      Context.check n Γ a d
      let v ← Γ.eval n a
      k v) P (Reports Γ.signature R) := by
  refine Post.bind (Reports.imp (ih.check h ha hd) hR) fun _ _ hs => ?_
  exact Post.bind (Reports.lift (h.eval_post hS ha hs n)) fun v hv hvw =>
    hk hs (liftM_eq_ok.1 hv) hvw

omit hS ih in
theorem infer_var_wellScoped (label : Label) (i : Nat) :
    Post (Context.infer (n + 1) Γ (.var label i))
      (fun v => (Term.var label i).Scoped Γ.level ∧ v.WellScoped Γ.signature L)
      (Reports Γ.signature (Visits Γ (.var label i))) := by
  refine Post.bind (Reports.lift (nextNumber_post i)) fun _ _ _ => ?_
  cases hb : Γ.bindings[i]? with
  | none => exact Reports.of_terms (by rintro ⟨⟩) rfl (.here Γ _)
  | some b =>
    exact ⟨(List.getElem?_eq_some_iff.1 hb).1, (h.binding b (List.mem_of_getElem? hb)).1⟩

omit ih h in
theorem infer_const_wellScoped (c : Name) :
    Post (Context.infer (n + 1) Γ (.const c))
      (fun v => (Term.const c).Scoped Γ.level ∧ v.WellScoped Γ.signature L)
      (Reports Γ.signature (Visits Γ (.const c))) := by
  rw [Context.infer]
  cases hg : Γ.signature.global? c with
  | none => exact Reports.of_terms (by rintro ⟨⟩) rfl (.here Γ _)
  | some g => exact ⟨trivial, (hS.type hg).le fun _ hl => hl.elim⟩

omit hS ih h in
theorem infer_type_wellScoped (l : UInt64) :
    Post (Context.infer (n + 1) Γ (.type l))
      (fun v => (Term.type l).Scoped Γ.level ∧ v.WellScoped Γ.signature L)
      (Reports Γ.signature (Visits Γ (.type l))) := by
  rw [Context.infer]
  cases nextLevel? l with
  | none => exact Reports.of_terms (by rintro ⟨⟩) rfl (.here Γ _)
  | some next => exact ⟨trivial, trivial⟩

theorem infer_letIn_wellScoped (label : Label) {A a b : Term} (hA : A.Declared Γ.signature)
    (ha : a.Declared Γ.signature) (hb : b.Declared Γ.signature) :
    Post (Context.infer (n + 1) Γ (.letIn label A a b))
      (fun v => (Term.letIn label A a b).Scoped Γ.level ∧ v.WellScoped Γ.signature L)
      (Reports Γ.signature (Visits Γ (.letIn label A a b))) := by
  rw [Context.infer]
  refine annotation_wellScoped hS ih h hA (fun _ => .letType) fun hAs hd hdw => ?_
  refine definition_wellScoped hS ih h ha hdw (fun _ => .letValue) fun has hv hvw => ?_
  have hbody := ih.infer (h.define label hdw hvw) hb
  exact (Reports.imp hbody fun _ => .letBody hd hv).mono
    (fun w hw => ⟨⟨hAs, has, hw.1⟩, hw.2⟩) fun _ h => h

theorem infer_pi_wellScoped (label : Label) {A B : Term} (hA : A.Declared Γ.signature)
    (hB : B.Declared Γ.signature) :
    Post (Context.infer (n + 1) Γ (.pi label A B))
      (fun v => (Term.pi label A B).Scoped Γ.level ∧ v.WellScoped Γ.signature L)
      (Reports Γ.signature (Visits Γ (.pi label A B))) := by
  rw [Context.infer]
  refine annotation_wellScoped hS ih h hA (fun _ => .piDomain) fun hAs hd hdw => ?_
  have hcodomain := ih.checkType (h.bind label hdw) hB
  exact Post.bind (Reports.imp hcodomain fun _ => .piCodomain hd) fun m _ hBs =>
    ⟨⟨hAs, hBs⟩, trivial⟩

/-- The type of the body is read back, one level deeper, to become the body of a closure. -/
theorem infer_lam_wellScoped (label : Label) {A b : Term} (hA : A.Declared Γ.signature)
    (hb : b.Declared Γ.signature) :
    Post (Context.infer (n + 1) Γ (.lam label A b))
      (fun v => (Term.lam label A b).Scoped Γ.level ∧ v.WellScoped Γ.signature L)
      (Reports Γ.signature (Visits Γ (.lam label A b))) := by
  rw [Context.infer]
  refine annotation_wellScoped hS ih h hA (fun _ => .lamDomain) fun {_ d} hAs hd hdw => ?_
  have hinner := h.bind label hdw
  refine Post.bind (Reports.imp (ih.infer hinner hb) fun _ => .lamBody hd) fun w _ hw => ?_
  have hquote := Within.quote_post (Γ := Γ.bind label d) hS hinner hw.2 n
  refine Post.bind (Reports.lift hquote) fun B _ hB => ?_
  refine ⟨⟨hAs, hw.1⟩, hdw, h.alls_env, hB.2.1, ?_⟩
  rw [env, List.length_map]
  exact hB.2.2

omit hS in
theorem infer_app_wellScoped {f a : Term} (hf : f.Declared Γ.signature)
    (ha : a.Declared Γ.signature) :
    Post (Context.infer (n + 1) Γ (.app f a))
      (fun v => (Term.app f a).Scoped Γ.level ∧ v.WellScoped Γ.signature L)
      (Reports Γ.signature (Visits Γ (.app f a))) := by
  rw [Context.infer]
  refine Post.bind (Reports.imp (ih.infer h hf) fun _ => .callee) fun type _ ht => ?_
  refine (Reports.imp (ih.inferArgument h ha ht.2) fun Δ hΔ => ?_).mono
    (fun v hv => ⟨⟨ht.1, hv.1⟩, hv.2⟩) fun _ h => h
  obtain rfl | hΔ := hΔ
  · exact .here _ _
  · exact .argument hΔ

omit hS in
/-- A type former or a constructor with arguments. -/
theorem spine_wellScoped {t : Term} {as : List Term} (has : Term.Declareds Γ.signature as)
    {type : Value} (htype : type.WellScoped Γ.signature .none) (arity : Nat)
    (hargument : ∀ {a Δ}, a ∈ as → Visits Γ a Δ → Visits Γ t Δ) :
    Post (Context.inferSpine n Γ arity type as)
      (fun v => Term.Scopeds Γ.level as ∧ v.WellScoped Γ.signature L)
      (Reports Γ.signature (Visits Γ t)) := by
  refine Reports.imp (ih.inferSpine h has arity (htype.le fun _ hl => hl.elim)) fun Δ hΔ => ?_
  obtain rfl | ⟨a, ha, hΔ⟩ := hΔ
  · exact .here _ _
  · exact hargument ha hΔ

omit ih in
/-- The parameters and indices of a target are in scope, and none is missing. -/
theorem splitTarget_wellScoped {t : Term} {type : Value} (ht : type.WellScoped Γ.signature L) :
    Post (Γ.splitTarget n type) (fun (F, ps, is) => (∃ id, Γ.signature.family? id = some F) ∧
        ps.length = F.parameterCount ∧ Value.AllWellScoped Γ.signature L ps ∧
        Value.AllWellScoped Γ.signature L is) (Reports Γ.signature (Visits Γ t)) := by
  have hthrow {type : Value} (ht : type.WellScoped Γ.signature L) :
      Post (do
        let t ← Γ.quote n type
        (TypeError.expectedInductive t).throw : Check (Family × List Value × List Value))
        (fun (F, ps, is) => (∃ id, Γ.signature.family? id = some F) ∧
          ps.length = F.parameterCount ∧ Value.AllWellScoped Γ.signature L ps ∧
          Value.AllWellScoped Γ.signature L is) (Reports Γ.signature (Visits Γ t)) :=
    h.throw_post hS ht (.here Γ t) fun _ => rfl
  cases type with
  | former id as =>
    obtain ⟨⟨F, hF⟩, has⟩ := ht
    rw [splitTarget]
    refine Post.bind (P := (F = ·)) (.liftM (.orDangling hF rfl)) fun _ _ e => ?_
    cases e
    split
    · next hlength =>
      have hle : F.parameterCount ≤ as.length := hlength ▸ Nat.le_add_right _ _
      refine ⟨⟨id, hF⟩, List.length_take_of_le hle, ?_, ?_⟩
      · exact Value.allWellScoped_iff.2 fun a ha =>
          Value.allWellScoped_iff.1 has a (List.mem_of_mem_take ha)
      · exact Value.allWellScoped_iff.2 fun a ha =>
          Value.allWellScoped_iff.1 has a (List.mem_of_mem_drop ha)
    · exact hthrow ⟨⟨F, hF⟩, has⟩
  | neutral | type | pi | lam | con => exact hthrow ht

/-- **A method is checked.**  Its constructor exists, since the family lists it. -/
theorem method_wellScoped {id : FamilyId} {F : Family} (hF : Γ.signature.family? id = some F)
    {c : ConstructorId} (hc : c ∈ F.constructors) {ps : List Value}
    (hlength : ps.length = F.parameterCount) (hps : Value.AllWellScoped Γ.signature L ps)
    {m : Value} (hm : m.WellScoped Γ.signature L) {method : Term}
    (hmethod : method.Declared Γ.signature) (hR : ∀ Δ, Visits Γ method Δ → R Δ) :
    Post (do
        let K ← orDangling (Γ.signature.constructor? c)
        let expected ← methodType Γ.signature n Γ.level Γ.env K ps m
        Context.check n Γ method expected : Check Unit)
      (fun _ => method.Scoped Γ.level) (Reports Γ.signature R) := by
  obtain ⟨K, hK, hfamily⟩ := (hS.registered.members hF c).1 hc
  obtain ⟨F', hF', hcount⟩ := hS.registered.parameters hK
  obtain rfl : F = F' := Option.some.inj (hF.symm.trans (hfamily ▸ hF'))
  refine Post.bind (P := (K = ·)) (.liftM (.orDangling hK rfl)) fun _ _ e => ?_
  cases e
  have hexpected := methodType_wellScoped hS h.below hK h.alls_env (List.length_map _) hps
    (hlength.trans hcount.symm) hm n
  exact Post.bind (Reports.lift hexpected) fun ty _ hty =>
    Reports.imp (ih.check h hmethod hty) hR

theorem infer_elim_wellScoped {t M : Term} {ms : List Term} (ht : t.Declared Γ.signature)
    (hM : M.Declared Γ.signature) (hms : Term.Declareds Γ.signature ms) :
    Post (Context.infer (n + 1) Γ (.elim t M ms))
      (fun v => (Term.elim t M ms).Scoped Γ.level ∧ v.WellScoped Γ.signature L)
      (Reports Γ.signature (Visits Γ (.elim t M ms))) := by
  rw [Context.infer]
  refine Post.bind (Reports.imp (ih.infer h ht) fun _ => .target) fun type _ htype => ?_
  refine Post.bind (splitTarget_wellScoped hS h htype.2) ?_
  rintro ⟨F, ps, is⟩ _ ⟨⟨id, hF⟩, hlength, hps, his⟩
  dsimp only at hF hlength hps his ⊢
  rw [dispatch]
  cases htable : F.dispatch? with
  | none => exact Reports.of_terms (by rintro ⟨⟩) rfl (.here Γ _)
  | some table =>
    have hcs := Family.constructors_of_dispatch? htable
    refine Post.bind (P := (table = ·)) rfl fun _ _ e => ?_
    cases e
    rw [← hcs]
    split
    · exact Reports.of_terms (by rintro ⟨⟩) rfl (.here Γ _)
    · next hcount =>
      refine Post.bind (Reports.imp (ih.infer h hM) fun _ => .motive) fun mtype _ hmtype => ?_
      refine Post.bind (Reports.lift (motiveDomains_wellScoped hS hF hps n Γ.level))
        fun ds _ hds => ?_
      refine Post.bind (Reports.lift (motiveLevel?_wellScoped hS hds hmtype.2 n)) fun o _ _ => ?_
      cases o with
      | none => exact h.throw_post hS hmtype.2 (.here Γ _) fun _ => rfl
      | some l =>
        refine Post.bind (Reports.lift (h.eval_post hS hM hmtype.1 n)) fun m _ hm => ?_
        refine Post.bind (Post.forM fun x hx => method_wellScoped hS ih h hF
          (List.of_mem_zip hx).2 hlength hps hm
          (Term.declareds_iff.1 hms _ (List.of_mem_zip hx).1)
          fun _ => .method (List.of_mem_zip hx).1) fun _ _ hall => ?_
        refine Post.bind (Reports.lift (h.eval_post hS ht htype.1 n)) fun a _ ha => ?_
        have hargs : Value.AllWellScoped Γ.signature L (is ++ [a]) :=
          Value.allWellScoped_append.2 ⟨his, ha, trivial⟩
        refine Reports.lift ((Value.applyAll_post hS hm hargs n).mono (fun v hv => ?_)
          fun _ h => h)
        refine ⟨⟨htype.1, hmtype.1, Term.scopeds_iff.2 fun method hmethod => ?_⟩, hv⟩
        -- Every method has a constructor beside it, so every method was checked.
        obtain ⟨j, hj⟩ := List.getElem?_of_mem hmethod
        have hjl : j < F.constructors.length :=
          not_not.1 hcount ▸ (List.getElem?_eq_some_iff.1 hj).1
        exact hall (method, F.constructors[j]) (List.mem_of_getElem?
          (List.getElem?_zip_eq_some.2 ⟨hj, List.getElem?_eq_getElem hjl⟩))

/-- **Inference stays in scope.** -/
theorem infer_step_wellScoped {t : Term} (ht : t.Declared Γ.signature) :
    Post (Context.infer (n + 1) Γ t)
      (fun v => t.Scoped Γ.level ∧ v.WellScoped Γ.signature L)
      (Reports Γ.signature (Visits Γ t)) := by
  cases t with
  | var label i => exact infer_var_wellScoped h label i
  | const c => exact infer_const_wellScoped hS c
  | letIn label A a b => exact infer_letIn_wellScoped hS ih h label ht.1 ht.2.1 ht.2.2
  | type l => exact infer_type_wellScoped l
  | pi label A B => exact infer_pi_wellScoped hS ih h label ht.1 ht.2
  | lam label A b => exact infer_lam_wellScoped hS ih h label ht.1 ht.2
  | app f a => exact infer_app_wellScoped ih h ht.1 ht.2
  | former F as =>
    obtain ⟨⟨D, hD⟩, has⟩ := ht
    rw [Context.infer]
    refine Post.bind (P := (D = ·)) (.liftM (.orDangling hD rfl)) fun _ _ e => ?_
    cases e
    exact spine_wellScoped ih h has (hS.family hD) D.arity .former
  | con c as =>
    obtain ⟨⟨K, hK⟩, has⟩ := ht
    rw [Context.infer]
    refine Post.bind (P := (K = ·)) (.liftM (.orDangling hK rfl)) fun _ _ e => ?_
    cases e
    exact spine_wellScoped ih h has (hS.constructor hK) K.arity .con
  | elim t M ms => exact infer_elim_wellScoped hS ih h ht.1 ht.2.1 ht.2.2

/-- A term that is compared with its type. -/
theorem compare_wellScoped {t : Term} (ht : t.Declared Γ.signature) {type : Value}
    (htype : type.WellScoped Γ.signature L) :
    Post (do
      let inferred ← Context.infer n Γ t
      if ← Γ.convert n inferred type then .ok ()
      else do
        let expected ← Γ.quote n type
        let found ← Γ.quote n inferred
        (TypeError.mismatch expected found).throw : Check Unit)
      (fun _ => t.Scoped Γ.level) (Reports Γ.signature (Visits Γ t)) := by
  refine Post.bind (ih.infer h ht) fun w _ hw => ?_
  refine Post.bind (Reports.lift (Value.convert_post hS hw.2 htype n)) fun b _ _ => ?_
  cases b with
  | true => exact hw.1
  | false => exact h.mismatch_post hS htype hw.2 (.here Γ t)

/-- **Checking stays in scope.** -/
theorem check_step_wellScoped {t : Term} (ht : t.Declared Γ.signature) {type : Value}
    (htype : type.WellScoped Γ.signature L) :
    Post (Context.check (n + 1) Γ t type) (fun _ => t.Scoped Γ.level)
      (Reports Γ.signature (Visits Γ t)) := by
  have hcompare := compare_wellScoped hS ih h ht htype
  cases t with
  | lam label A b =>
    cases type with
    | pi base family =>
      refine annotation_wellScoped hS ih h ht.1 (fun _ => .lamDomain) fun {_ d} hAs hd hdw => ?_
      refine Post.bind (Reports.lift (Value.convert_post hS hdw htype.1 n)) fun e _ _ => ?_
      cases e with
      | true =>
        refine Post.bind (Reports.lift (Closure.enter_post hS htype.2 n Γ.level))
          fun codomain _ hcodomain => ?_
        have hbody := ih.check (h.bind label hdw) ht.2 hcodomain
        exact (Reports.imp hbody fun _ => .lamBody hd).mono (fun _ hb => ⟨hAs, hb⟩) fun _ h => h
      | false => exact h.mismatch_post hS htype.1 hdw (.here Γ _)
    | neutral | type | lam | former | con => exact hcompare
  | letIn label A a b =>
    refine annotation_wellScoped hS ih h ht.1 (fun _ => .letType) fun hAs hd hdw => ?_
    refine definition_wellScoped hS ih h ht.2.1 hdw (fun _ => .letValue) fun has hv hvw => ?_
    have hbody := ih.check (h.define label hdw hvw) ht.2.2 htype
    exact (Reports.imp hbody fun _ => .letBody hd hv).mono (fun _ hb => ⟨hAs, has, hb⟩) fun _ h => h
  | var | const | type | pi | app | former | con | elim => exact hcompare

theorem checkType_step_wellScoped {t : Term} (ht : t.Declared Γ.signature) :
    Post (Context.checkType (n + 1) Γ t) (fun _ => t.Scoped Γ.level)
      (Reports Γ.signature (Visits Γ t)) := by
  rw [Context.checkType]
  refine Post.bind (ih.infer h ht) fun w _ hw => ?_
  cases w with
  | type l => exact hw.1
  | neutral | pi | lam | former | con => exact h.throw_post hS hw.2 (.here Γ t) fun _ => rfl

theorem inferArgument_step_wellScoped {a : Term} (ha : a.Declared Γ.signature) {type : Value}
    (htype : type.WellScoped Γ.signature L) :
    Post (Context.inferArgument (n + 1) Γ type a)
      (fun v => a.Scoped Γ.level ∧ v.WellScoped Γ.signature L)
      (Reports Γ.signature fun Δ => Δ = Γ ∨ Visits Γ a Δ) := by
  cases type with
  | pi base family =>
    rw [Context.inferArgument]
    refine definition_wellScoped hS ih h ha htype.1 (fun _ => .inr) fun has _ hvw => ?_
    refine Reports.lift ((Closure.instantiate_post hS htype.2 hvw n).mono (fun w hw => ?_)
      fun _ h => h)
    exact ⟨has, hw⟩
  | neutral | type | lam | former | con =>
    exact h.throw_post hS htype (.inl rfl) fun _ => rfl

omit hS in
theorem inferSpine_step_wellScoped {as : List Term} (has : Term.Declareds Γ.signature as)
    (arity : Nat) {type : Value} (htype : type.WellScoped Γ.signature L) :
    Post (Context.inferSpine (n + 1) Γ arity type as)
      (fun v => Term.Scopeds Γ.level as ∧ v.WellScoped Γ.signature L)
      (Reports Γ.signature fun Δ => Δ = Γ ∨ ∃ a ∈ as, Visits Γ a Δ) := by
  rw [Context.inferSpine]
  split
  · exact Reports.of_terms (by rintro ⟨⟩) rfl (.inl rfl)
  clear * - ih h has htype
  induction as generalizing type with
  | nil => exact ⟨trivial, htype⟩
  | cons a as ihas =>
    rw [List.foldlM_cons]
    refine Post.bind (Reports.imp (ih.inferArgument h has.1 htype) fun Δ hΔ => ?_)
      fun v _ hv => (Reports.imp (ihas has.2 hv.2) fun Δ hΔ => ?_).mono
        (fun w hw => ⟨⟨hv.1, hw.1⟩, hw.2⟩) fun _ h => h
    · exact hΔ.imp id fun hΔ => ⟨a, List.mem_cons_self, hΔ⟩
    · refine hΔ.imp id ?_
      rintro ⟨b, hb, hΔ⟩
      exact ⟨b, List.mem_cons_of_mem a hb, hΔ⟩

end

/-- **The procedures of the kernel stay in scope,** on any term. -/
theorem stays (hS : S.WellScoped) (n : Nat) : Stays S n := by
  induction n with
  | zero =>
    have hex := Halt.InScope.exhausted
    exact ⟨fun _ _ _ => hex, fun _ _ _ _ _ => hex, fun _ _ _ => hex, fun _ _ _ _ _ => hex,
      fun _ _ _ _ _ _ => hex⟩
  | succ n ih =>
    refine ⟨?_, ?_, ?_, ?_, ?_⟩
    · intro Γ L h t ht
      obtain rfl := h.signature
      exact infer_step_wellScoped hS ih h ht
    · intro Γ L h t ht type htype
      obtain rfl := h.signature
      exact check_step_wellScoped hS ih h ht htype
    · intro Γ L h t ht
      obtain rfl := h.signature
      exact checkType_step_wellScoped hS ih h ht
    · intro Γ L h a ha type htype
      obtain rfl := h.signature
      exact inferArgument_step_wellScoped hS ih h ha htype
    · intro Γ L h as has arity type htype
      obtain rfl := h.signature
      exact inferSpine_step_wellScoped ih h has arity htype

end Context

end Constructions
