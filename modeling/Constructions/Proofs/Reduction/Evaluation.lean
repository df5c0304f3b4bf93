/-
# Computing takes steps

The evaluator keeps environments and closures, and its values number variables from the
outside.  A value denotes a term in a scope of `k` variables (`Value.Denotes`): the environment
of a closure is substituted in its body, and the variable at a level becomes an index.  The
labels of binders belong to what is denoted, those of variables do not: a closure is entered
with a variable that is labelled as its binder, whatever the label in the body.

| statement | theorem |
| --- | --- |
| a term takes steps to what its value denotes | `Term.eval_steps` |
| what a value denotes takes steps to what is read back from it | `Value.readBack_steps` |

Both are said for terms that need not be typed or closed.
-/

import Constructions.Proofs.Reduction

namespace Constructions

open Term (liftSub Steps)

/-! ### What values denote -/

mutual

/-- The value denotes the term in a scope of `k` variables. -/
def Value.Denotes (k : Nat) : Value → Term → Prop
  | .neutral m, t => m.Denotes k t
  | .type l, t => t = .type l
  | .pi d c, t => ∃ A B, t = .pi c.label A B ∧ d.Denotes k A ∧ c.Denotes k B
  | .lam d c, t => ∃ A b, t = .lam c.label A b ∧ d.Denotes k A ∧ c.Denotes k b
  | .former F vs, t => ∃ ts, t = .former F ts ∧ Value.DenoteAll k vs ts
  | .con c vs, t => ∃ ts, t = .con c ts ∧ Value.DenoteAll k vs ts

/-- The neutral value denotes the term. -/
def Neutral.Denotes (k : Nat) : Neutral → Term → Prop
  | .var _ l, t => ∃ label i, t = .var label i ∧ i + (l + 1) = k
  | .const c, t => t = .const c
  | .app m v, t => ∃ f a, t = .app f a ∧ m.Denotes k f ∧ v.Denotes k a
  | .elim m M ms, t => ∃ u N ns, t = .elim u N ns ∧ m.Denotes k u ∧ M.Denotes k N ∧
      Value.DenoteAll k ms ns

/-- The closure denotes the term under its binder. -/
def Closure.Denotes (k : Nat) : Closure → Term → Prop
  | .mk env _ body, t => ∃ σ, Value.DenoteSub k env σ ∧ t = body.subst (liftSub σ)

/-- The values denote the terms, one by one. -/
def Value.DenoteAll (k : Nat) : List Value → List Term → Prop
  | [], ts => ts = []
  | v :: vs, ts => ∃ u us, ts = u :: us ∧ v.Denotes k u ∧ Value.DenoteAll k vs us

/-- The values denote what is substituted for the variables, the innermost first. -/
def Value.DenoteSub (k : Nat) : List Value → (Label → Nat → Term) → Prop
  | [], _ => True
  | v :: vs, σ => (∀ label, v.Denotes k (σ label 0)) ∧
      Value.DenoteSub k vs fun label i => σ label (i + 1)

end

namespace Value

variable {k : Nat}

theorem denoteAll_iff {vs : List Value} {ts : List Term} :
    DenoteAll k vs ts ↔ List.Forall₂ (Denotes k) vs ts := by
  induction vs generalizing ts with
  | nil => rw [DenoteAll, List.forall₂_nil_left_iff]
  | cons v vs ih =>
    rw [DenoteAll, List.forall₂_cons_left_iff]
    constructor
    · rintro ⟨u, us, rfl, hu, hus⟩
      exact ⟨u, us, hu, ih.1 hus, rfl⟩
    · rintro ⟨u, us, hu, hus, rfl⟩
      exact ⟨u, us, rfl, hu, ih.2 hus⟩

theorem DenoteAll.concat {vs : List Value} {ts : List Term} (h : DenoteAll k vs ts) {v : Value}
    {t : Term} (hv : v.Denotes k t) : DenoteAll k (vs ++ [v]) (ts ++ [t]) :=
  denoteAll_iff.2 (List.rel_append (denoteAll_iff.1 h) (.cons hv .nil))

theorem DenoteSub.get {env : Env} {σ : Label → Nat → Term} (h : DenoteSub k env σ) {i : Nat}
    {v : Value} (hv : env[i]? = some v) (label : Label) : v.Denotes k (σ label i) := by
  induction env generalizing i σ with
  | nil => cases hv
  | cons w env ih =>
    cases i with
    | zero =>
      cases hv
      exact h.1 label
    | succ i => exact ih h.2 hv

end Value

/-! ### More variables -/

section

variable {k : Nat}

mutual

/-- **A value denotes the same in a larger scope**, with the indices moved. -/
theorem Value.Denotes.shift : ∀ {v : Value} {t : Term}, v.Denotes k t →
    v.Denotes (k + 1) (t.rename Nat.succ)
  | .neutral _, _, h => Neutral.Denotes.shift h
  | .type _, _, rfl => rfl
  | .pi _ _, _, ⟨_, _, rfl, hd, hc⟩ => ⟨_, _, rfl, hd.shift, Closure.Denotes.shift hc⟩
  | .lam _ _, _, ⟨_, _, rfl, hd, hc⟩ => ⟨_, _, rfl, hd.shift, Closure.Denotes.shift hc⟩
  | .former _ _, _, ⟨_, rfl, h⟩ => ⟨_, rfl, Value.DenoteAll.shift h⟩
  | .con _ _, _, ⟨_, rfl, h⟩ => ⟨_, rfl, Value.DenoteAll.shift h⟩

theorem Neutral.Denotes.shift : ∀ {m : Neutral} {t : Term}, m.Denotes k t →
    m.Denotes (k + 1) (t.rename Nat.succ)
  | .var _ _, _, ⟨label, i, rfl, h⟩ => ⟨label, i + 1, rfl, by omega⟩
  | .const _, _, rfl => rfl
  | .app _ _, _, ⟨_, _, rfl, hm, hv⟩ => ⟨_, _, rfl, hm.shift, hv.shift⟩
  | .elim _ _ _, _, ⟨_, _, _, rfl, hm, hM, hms⟩ =>
    ⟨_, _, _, rfl, hm.shift, hM.shift, Value.DenoteAll.shift hms⟩

theorem Closure.Denotes.shift : ∀ {c : Closure} {t : Term}, c.Denotes k t →
    c.Denotes (k + 1) (t.rename (liftRen Nat.succ))
  | .mk _ _ _, _, ⟨_, hσ, rfl⟩ =>
    ⟨_, Value.DenoteSub.shift hσ, by rw [Term.rename_subst, Term.liftSub_rename]⟩

theorem Value.DenoteAll.shift : ∀ {vs : List Value} {ts : List Term}, Value.DenoteAll k vs ts →
    Value.DenoteAll (k + 1) vs (Term.renames Nat.succ ts)
  | [], _, rfl => rfl
  | _ :: _, _, ⟨_, _, rfl, hv, hvs⟩ => ⟨_, _, rfl, hv.shift, Value.DenoteAll.shift hvs⟩

theorem Value.DenoteSub.shift : ∀ {env : List Value} {σ : Label → Nat → Term},
    Value.DenoteSub k env σ →
    Value.DenoteSub (k + 1) env fun label i => (σ label i).rename Nat.succ
  | [], _, _ => trivial
  | _ :: _, _, h => ⟨fun label => (h.1 label).shift, Value.DenoteSub.shift h.2⟩

end

/-- A closure is entered under its binder. -/
theorem Value.DenoteSub.lift {env : Env} {σ : Label → Nat → Term}
    (h : Value.DenoteSub k env σ) (label : Label) :
    Value.DenoteSub (k + 1) (.var label k :: env) (liftSub σ) :=
  ⟨fun label => ⟨label, 0, rfl, Nat.zero_add _⟩, h.shift⟩

theorem Value.DenoteSub.cons {env : Env} {σ : Label → Nat → Term} (h : Value.DenoteSub k env σ)
    {v : Value} {a : Term} (hv : v.Denotes k a) :
    Value.DenoteSub k (v :: env) (Term.consSub a σ) :=
  ⟨fun _ => hv, h⟩

end

/-! ### Computing -/

/-- The term takes steps to one that the value denotes. -/
def Term.Reaches (S : Signature) (δ : Name → Option Term) (k : Nat) (t : Term) (v : Value) :
    Prop :=
  ∃ u, Steps S δ t u ∧ v.Denotes k u

/-- The value that a constant is defined as. -/
def Signature.definition? (S : Signature) (c : Name) : Option Value :=
  (S.global? c).bind (·.definition)

/-- What constants were declared with takes steps to what they are defined as.  A definition is
closed, so this is said in every scope. -/
def Signature.Unfolds (S : Signature) (δ : Name → Option Term) : Prop :=
  ∀ {c v}, S.definition? c = some v → ∃ a, δ c = some a ∧ ∀ k, a.Reaches S δ k v

variable {S : Signature} {δ : Name → Option Term} {k : Nat}

namespace Term

theorem Reaches.of_steps {t u : Term} {v : Value} (hs : Steps S δ t u) (h : u.Reaches S δ k v) :
    t.Reaches S δ k v := by
  obtain ⟨w, hw, hv⟩ := h
  exact ⟨w, hs.trans hw, hv⟩

/-- **What is reached is kept by declarations.** -/
theorem Reaches.mono {S' : Signature} {δ' : Name → Option Term} (hle : S.Le S')
    (hδ : ∀ {c a}, δ c = some a → δ' c = some a) {t : Term} {v : Value}
    (h : t.Reaches S δ k v) : t.Reaches S' δ' k v := by
  obtain ⟨u, hu, hv⟩ := h
  exact ⟨u, Steps.mono hle hδ hu, hv⟩

theorem reaches_const (hδ : S.Unfolds δ) (c : Name) :
    (Term.const c).Reaches S δ k (S.unfold c) := by
  cases hc : S.definition? c with
  | none =>
    rw [Signature.unfold, ← Signature.definition?, hc]
    exact ⟨_, .refl, rfl⟩
  | some v =>
    obtain ⟨a, ha, h⟩ := hδ hc
    rw [Signature.unfold, ← Signature.definition?, hc]
    exact .of_steps (.contract (.delta ha)) (h k)

/-- The terms take steps to terms that the values denote. -/
theorem exists_denoteAll {ts : List Term} {vs : List Value}
    (h : List.Forall₂ (Reaches S δ k) ts vs) :
    ∃ us, List.Forall₂ (Steps S δ) ts us ∧ Value.DenoteAll k vs us := by
  induction h with
  | nil => exact ⟨[], .nil, rfl⟩
  | cons h _ ih =>
    obtain ⟨u, hu, hv⟩ := h
    obtain ⟨us, hus, hvs⟩ := ih
    exact ⟨u :: us, .cons hu hus, u, us, rfl, hv, hvs⟩

/-- **Arguments are taken one after the other.** -/
theorem applyAll_steps {n : Nat}
    (ih : ∀ {f a v : Value} {F A : Term}, f.Denotes k F → a.Denotes k A →
      f.apply S n a = .ok v → (Term.app F A).Reaches S δ k v)
    {ts : List Term} {as : List Value} (has : List.Forall₂ (Reaches S δ k) ts as)
    {f v : Value} {F : Term} (hf : f.Denotes k F) (h : f.applyAll S n as = .ok v) :
    (F.apps ts).Reaches S δ k v := by
  induction has generalizing f F with
  | nil =>
    cases h
    exact ⟨F, .refl, hf⟩
  | cons ha _ ihas =>
    obtain ⟨g, hg, h⟩ := bind_eq_ok.1 h
    obtain ⟨A, hA, ha⟩ := ha
    obtain ⟨G, hG, hg⟩ := ih hf ha hg
    have hstep : Steps S δ (.app F _) G := (Steps.app .refl hA).trans hG
    exact .of_steps (Steps.apps hstep _) (ihas hg h)

/-- **The eliminations that a construction leaves**, for its recursive fields. -/
theorem exists_eliminations {M : Term} {ms : List Term} {vs : List Value} {as : List Term}
    (has : List.Forall₂ (Value.Denotes k) vs as) {g : Value → Value → Prop}
    (hg : ∀ {v r a}, v.Denotes k a → g v r → (Term.elim a M ms).Reaches S δ k r)
    {is : List Nat} {rs : List Value}
    (h : List.Forall₂ (fun i r => ∃ v, vs[i]? = some v ∧ g v r) is rs) :
    ∃ us, List.Forall₂ (fun i u => ∃ a, as[i]? = some a ∧ u = .elim a M ms) is us ∧
      List.Forall₂ (Reaches S δ k) us rs := by
  induction h with
  | nil => exact ⟨[], .nil, .nil⟩
  | cons h _ ih =>
    obtain ⟨v, hv, hr⟩ := h
    obtain ⟨us, hus, hrs⟩ := ih
    obtain ⟨a, ha, hva⟩ := forall₂_getElem? has hv
    exact ⟨_, .cons ⟨a, ha, rfl⟩ hus, .cons (hg hva hr) hrs⟩

end Term

/-- **Evaluation, application and elimination take steps.** -/
theorem eval_apply_eliminate_steps (hδ : S.Unfolds δ) (n : Nat) :
    (∀ {env : Env} {σ : Label → Nat → Term} {t : Term} {v : Value}, Value.DenoteSub k env σ →
      t.eval S n env = .ok v → (t.subst σ).Reaches S δ k v) ∧
    (∀ {f a v : Value} {F A : Term}, f.Denotes k F → a.Denotes k A →
      f.apply S n a = .ok v → (Term.app F A).Reaches S δ k v) ∧
    (∀ {M t v : Value} {ms : List Value} {N T : Term} {ns : List Term}, t.Denotes k T →
      M.Denotes k N → Value.DenoteAll k ms ns → Value.eliminate S n M ms t = .ok v →
      (Term.elim T N ns).Reaches S δ k v) := by
  induction n with
  | zero =>
    exact ⟨fun _ h => (nomatch h), fun _ _ h => (nomatch h), fun _ _ _ h => (nomatch h)⟩
  | succ n ih =>
    obtain ⟨ihe, iha, ihm⟩ := ih
    have ihes {env : Env} {σ : Label → Nat → Term} {ts : List Term} {vs : List Value}
        (hσ : Value.DenoteSub k env σ) (h : ts.mapM (fun t => t.eval S n env) = .ok vs) :
        ∃ us, List.Forall₂ (Steps S δ) (Term.substs σ ts) us ∧ Value.DenoteAll k vs us := by
      refine Term.exists_denoteAll ?_
      rw [Term.substs_eq_map, List.forall₂_map_left_iff]
      exact (mapM_eq_ok.1 h).imp fun t v h => ihe hσ h
    refine ⟨?_, ?_, ?_⟩
    · intro env σ t v hσ h
      cases t with
      | var label i => exact ⟨_, .refl, hσ.get (orDangling_eq_ok.1 h) label⟩
      | const c =>
        cases h
        exact Term.reaches_const hδ c
      | letIn label A a b =>
        obtain ⟨w, hw, h⟩ := bind_eq_ok.1 h
        obtain ⟨u, hu, hwu⟩ := ihe hσ hw
        refine .of_steps (Steps.letIn label .refl hu .refl) ?_
        refine .of_steps (.contract (.zeta _ _ _ _)) ?_
        rw [Term.inst_subst]
        exact ihe (hσ.cons hwu) h
      | type l =>
        cases h
        exact ⟨_, .refl, rfl⟩
      | pi label A B =>
        obtain ⟨d, hd, h⟩ := bind_eq_ok.1 h
        cases h
        obtain ⟨u, hu, hdu⟩ := ihe hσ hd
        exact ⟨_, .pi label hu .refl, _, _, rfl, hdu, σ, hσ, rfl⟩
      | lam label A b =>
        obtain ⟨d, hd, h⟩ := bind_eq_ok.1 h
        cases h
        obtain ⟨u, hu, hdu⟩ := ihe hσ hd
        exact ⟨_, .lam label hu .refl, _, _, rfl, hdu, σ, hσ, rfl⟩
      | app f a =>
        obtain ⟨g, hg, h⟩ := bind_eq_ok.1 h
        obtain ⟨w, hw, h⟩ := bind_eq_ok.1 h
        obtain ⟨F, hF, hgF⟩ := ihe hσ hg
        obtain ⟨A, hA, hwA⟩ := ihe hσ hw
        exact .of_steps (.app hF hA) (iha hgF hwA h)
      | former F as =>
        obtain ⟨vs, hvs, h⟩ := bind_eq_ok.1 h
        cases h
        obtain ⟨us, hus, hd⟩ := ihes hσ hvs
        exact ⟨_, .former F hus, _, rfl, hd⟩
      | con c as =>
        obtain ⟨vs, hvs, h⟩ := bind_eq_ok.1 h
        cases h
        obtain ⟨us, hus, hd⟩ := ihes hσ hvs
        exact ⟨_, .con c hus, _, rfl, hd⟩
      | elim t M ms =>
        obtain ⟨w, hw, h⟩ := bind_eq_ok.1 h
        obtain ⟨m, hm, h⟩ := bind_eq_ok.1 h
        obtain ⟨ns, hns, h⟩ := bind_eq_ok.1 h
        rw [mapError_eq_ok] at h
        obtain ⟨T, hT, hwT⟩ := ihe hσ hw
        obtain ⟨N, hN, hmN⟩ := ihe hσ hm
        obtain ⟨us, hus, hd⟩ := ihes hσ hns
        exact .of_steps (.elim hT hN hus) (ihm hwT hmN hd h)
    · intro f a v F A hf ha h
      cases f with
      | neutral m =>
        cases h
        exact ⟨_, .refl, _, _, rfl, hf, ha⟩
      | type l => cases h
      | pi d c => cases h
      | lam d c =>
        obtain ⟨env, label, body⟩ := c
        obtain ⟨D, _, rfl, _, σ, hσ, rfl⟩ := hf
        refine .of_steps (.contract (.beta _ _ _ _)) ?_
        rw [Term.inst_subst]
        exact ihe (hσ.cons ha) h
      | former F as =>
        cases h
        obtain ⟨ts, rfl, hts⟩ := hf
        exact ⟨_, .contract (.former _ _ _), _, rfl, hts.concat ha⟩
      | con c as =>
        cases h
        obtain ⟨ts, rfl, hts⟩ := hf
        exact ⟨_, .contract (.con _ _ _), _, rfl, hts.concat ha⟩
    · intro M t v ms N T ns ht hM hms h
      cases t with
      | neutral m =>
        cases h
        exact ⟨_, .refl, _, _, _, rfl, ht, hM, hms⟩
      | con c vs =>
        obtain ⟨as, rfl, has⟩ := ht
        rw [Value.denoteAll_iff] at has
        obtain ⟨K, F, table, m, rs, hK, hl, hF, htable, hm, hrs, h⟩ := eliminate_con_eq_ok h
        obtain ⟨i, hi, hm⟩ := Dispatch.select?_eq_some hm
        obtain ⟨m', hm', hmm⟩ := forall₂_getElem? (Value.denoteAll_iff.1 hms) hm
        have hselect : table.select? c ns = some m' := by
          rw [Dispatch.select?_eq, hi, Option.bind_some, hm']
        have hlength : as.length = K.arity := has.length_eq.symm.trans hl
        obtain ⟨us, hus, hreach⟩ :=
          Term.exists_eliminations has (fun hva hr => ihm hva hM hms hr) hrs
        refine .of_steps (.contract (.iota hK hlength hF htable hselect hus)) ?_
        refine Term.applyAll_steps iha (List.rel_append ?_ hreach) hmm h
        exact (List.forall₂_drop _ has).flip.imp fun a v hva => ⟨a, .refl, hva⟩
      | type l => cases h
      | pi d c => cases h
      | lam d c => cases h
      | former F as => cases h

/-- **A term takes steps to what its value denotes.** -/
theorem Term.eval_steps (hδ : S.Unfolds δ) {n : Nat} {env : Env} {σ : Label → Nat → Term}
    {t : Term} {v : Value} (hσ : Value.DenoteSub k env σ) (h : t.eval S n env = .ok v) :
    (t.subst σ).Reaches S δ k v :=
  (eval_apply_eliminate_steps hδ n).1 hσ h

/-- Without variables nothing is substituted. -/
theorem Term.eval_nil_steps (hδ : S.Unfolds δ) {n : Nat} {t : Term} {v : Value}
    (h : t.eval S n [] = .ok v) : t.Reaches S δ k v := by
  have hσ : Value.DenoteSub k [] .var := trivial
  have hreach := Term.eval_steps hδ hσ h
  rwa [Term.subst_var] at hreach

/-! ### Reading back -/

namespace Term

mutual

/-- The term without the labels of its variables.  Its binders keep theirs. -/
def unlabelVars : Term → Term
  | .var _ i => .var none i
  | .const c => .const c
  | .letIn label A a b => .letIn label A.unlabelVars a.unlabelVars b.unlabelVars
  | .type l => .type l
  | .pi label A B => .pi label A.unlabelVars B.unlabelVars
  | .lam label A b => .lam label A.unlabelVars b.unlabelVars
  | .app f a => .app f.unlabelVars a.unlabelVars
  | .former F as => .former F (unlabelVarsAll as)
  | .con c as => .con c (unlabelVarsAll as)
  | .elim t M ms => .elim t.unlabelVars M.unlabelVars (unlabelVarsAll ms)

/-- The terms without the labels of their variables. -/
def unlabelVarsAll : List Term → List Term
  | [] => []
  | t :: ts => t.unlabelVars :: unlabelVarsAll ts

end

/-- The term takes steps to the other one, up to the labels of variables. -/
def Ends (S : Signature) (δ : Name → Option Term) (t q : Term) : Prop :=
  ∃ q', Steps S δ t q' ∧ q'.unlabelVars = q.unlabelVars

theorem Ends.of_steps {t u q : Term} (hs : Steps S δ t u) (h : u.Ends S δ q) : t.Ends S δ q := by
  obtain ⟨q', hq, e⟩ := h
  exact ⟨q', hs.trans hq, e⟩

theorem exists_ends {ts qs : List Term} (h : List.Forall₂ (Ends S δ) ts qs) :
    ∃ us, List.Forall₂ (Steps S δ) ts us ∧ unlabelVarsAll us = unlabelVarsAll qs := by
  induction h with
  | nil => exact ⟨[], .nil, rfl⟩
  | cons h _ ih =>
    obtain ⟨u, hu, e⟩ := h
    obtain ⟨us, hus, es⟩ := ih
    exact ⟨u :: us, .cons hu hus, by rw [unlabelVarsAll, unlabelVarsAll, e, es]⟩

end Term

theorem readBack_steps (hδ : S.Unfolds δ) (n : Nat) :
    (∀ {k : Nat} {v : Value} {t q : Term}, v.Denotes k t → v.readBack S n k = .ok q →
      t.Ends S δ q) ∧
    (∀ {k : Nat} {m : Neutral} {t q : Term}, m.Denotes k t → m.readBack S n k = .ok q →
      t.Ends S δ q) := by
  induction n with
  | zero => exact ⟨fun _ h => (nomatch h), fun _ h => (nomatch h)⟩
  | succ n ih =>
    obtain ⟨ihv, ihm⟩ := ih
    have ihvs {k : Nat} {vs : List Value} {ts qs : List Term} (hvs : Value.DenoteAll k vs ts)
        (h : vs.mapM (fun v => v.readBack S n k) = .ok qs) :
        ∃ us, List.Forall₂ (Steps S δ) ts us ∧
          Term.unlabelVarsAll us = Term.unlabelVarsAll qs := by
      refine Term.exists_ends ?_
      refine forall₂_comp (fun {t v q} (hv : v.Denotes k t) (hq : v.readBack S n k = .ok q) => ?_)
        (Value.denoteAll_iff.1 hvs).flip (mapM_eq_ok.1 h)
      exact ihv hv hq
    -- The body of a closure is computed for its variable before it is read back.
    have ihc {k inner : Nat} {c : Closure} {w : Value} {t q : Term} (hc : c.Denotes k t)
        (hw : c.enter S n k = .ok w) (hk : nextNumber k = .ok inner)
        (hq : w.readBack S n inner = .ok q) : t.Ends S δ q := by
      obtain ⟨env, label, body⟩ := c
      obtain ⟨σ, hσ, rfl⟩ := hc
      obtain rfl := eq_of_nextNumber hk
      obtain ⟨u, hu, hwu⟩ := Term.eval_steps hδ (hσ.lift label) hw
      exact .of_steps hu (ihv hwu hq)
    refine ⟨?_, ?_⟩
    · intro k v t q hv h
      cases v with
      | neutral m => exact ihm hv h
      | type l =>
        cases h
        cases hv
        exact ⟨_, .refl, rfl⟩
      | pi d c =>
        obtain ⟨A, B, rfl, hd, hc⟩ := hv
        obtain ⟨A', hA, h⟩ := bind_eq_ok.1 h
        obtain ⟨w, hw, h⟩ := bind_eq_ok.1 h
        obtain ⟨inner, hk, h⟩ := bind_eq_ok.1 h
        obtain ⟨B', hB, h⟩ := bind_eq_ok.1 h
        cases h
        obtain ⟨A₁, sA, eA⟩ := ihv hd hA
        obtain ⟨B₁, sB, eB⟩ := ihc hc hw hk hB
        exact ⟨_, .pi c.label sA sB, by rw [Term.unlabelVars, Term.unlabelVars, eA, eB]⟩
      | lam d c =>
        obtain ⟨A, b, rfl, hd, hc⟩ := hv
        obtain ⟨A', hA, h⟩ := bind_eq_ok.1 h
        obtain ⟨w, hw, h⟩ := bind_eq_ok.1 h
        obtain ⟨inner, hk, h⟩ := bind_eq_ok.1 h
        obtain ⟨b', hb, h⟩ := bind_eq_ok.1 h
        cases h
        obtain ⟨A₁, sA, eA⟩ := ihv hd hA
        obtain ⟨b₁, sb, eb⟩ := ihc hc hw hk hb
        exact ⟨_, .lam c.label sA sb, by rw [Term.unlabelVars, Term.unlabelVars, eA, eb]⟩
      | former F vs =>
        obtain ⟨ts, rfl, hvs⟩ := hv
        obtain ⟨qs, hqs, h⟩ := bind_eq_ok.1 h
        cases h
        obtain ⟨us, hus, es⟩ := ihvs hvs hqs
        exact ⟨_, .former F hus, by rw [Term.unlabelVars, Term.unlabelVars, es]⟩
      | con c vs =>
        obtain ⟨ts, rfl, hvs⟩ := hv
        obtain ⟨qs, hqs, h⟩ := bind_eq_ok.1 h
        cases h
        obtain ⟨us, hus, es⟩ := ihvs hvs hqs
        exact ⟨_, .con c hus, by rw [Term.unlabelVars, Term.unlabelVars, es]⟩
    · intro k m t q hm h
      cases m with
      | var label l =>
        obtain ⟨label', i, rfl, hi⟩ := hm
        rw [Neutral.readBack, if_pos (by omega)] at h
        cases h
        obtain rfl : k - (l + 1) = i := by omega
        exact ⟨_, .refl, rfl⟩
      | const c =>
        cases h
        cases hm
        exact ⟨_, .refl, rfl⟩
      | app f a =>
        obtain ⟨F, A, rfl, hf, ha⟩ := hm
        obtain ⟨F', hF, h⟩ := bind_eq_ok.1 h
        obtain ⟨A', hA, h⟩ := bind_eq_ok.1 h
        cases h
        obtain ⟨F₁, sF, eF⟩ := ihm hf hF
        obtain ⟨A₁, sA, eA⟩ := ihv ha hA
        exact ⟨_, .app sF sA, by rw [Term.unlabelVars, Term.unlabelVars, eF, eA]⟩
      | elim u M ms =>
        obtain ⟨U, N, ns, rfl, hu, hM, hms⟩ := hm
        obtain ⟨U', hU, h⟩ := bind_eq_ok.1 h
        obtain ⟨N', hN, h⟩ := bind_eq_ok.1 h
        obtain ⟨ns', hns, h⟩ := bind_eq_ok.1 h
        cases h
        obtain ⟨U₁, sU, eU⟩ := ihm hu hU
        obtain ⟨N₁, sN, eN⟩ := ihv hM hN
        obtain ⟨us, hus, es⟩ := ihvs hms hns
        exact ⟨_, .elim sU sN hus, by rw [Term.unlabelVars, Term.unlabelVars, eU, eN, es]⟩

/-- **What a value denotes takes steps to what is read back from it**, up to the labels of
variables. -/
theorem Value.readBack_steps (hδ : S.Unfolds δ) {n : Nat} {v : Value} {t q : Term}
    (hv : v.Denotes k t) (h : v.readBack S n k = .ok q) : t.Ends S δ q :=
  (Constructions.readBack_steps hδ n).1 hv h

end Constructions
