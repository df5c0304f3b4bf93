/-
# Well-typed terms do not go wrong

Evaluating a term that is well typed with the values of its environment in it meets none
of the states that checking rules out, and follows nothing that does not exist: it can
only run out of fuel (`Term.eval_safe`).  The argument is the usual one.  What has a
function type is a function, a value that waits, or a former or constructor that lacks
arguments; what is in a family is a construction with all its arguments or a value that
waits; and the reductions on the way keep types.
-/

import Constructions.Proofs.Evaluation

namespace Constructions

open Plain

variable {Θ : Theory} {S : Signature}

/-! ### Terms that are no eliminations without a target -/

theorem Plain.Partial.cases {t : Plain} (h : t.Partial) :
    (∃ k, t = .atom (.elim k)) ∨ ∃ f a, t = .app f a ∧ f.Partial := by
  obtain ⟨k, as, rfl, hk⟩ := h
  cases as using List.reverseRecOn with
  | nil => exact .inl ⟨k, rfl⟩
  | append_singleton as x =>
    refine .inr ⟨_, x, spine_concat _ _ _, k, as, rfl, ?_⟩
    rw [List.length_append, List.length_singleton] at hk
    omega

theorem Plain.not_partial_spine {a : Atom} (ha : ∀ k, a ≠ .elim k) (as : List Plain) :
    ¬ (spine (.atom a) as).Partial := by
  intro h
  obtain ⟨k, e⟩ := h.of_spine.eq_atom
  exact ha k e

/-- A level map: every level stands for a variable or for nothing. -/
def LevelMap (ℓ : Nat → Plain) : Prop := ∀ l, ℓ l = .atom .hole ∨ ∃ i, ℓ l = .var i

theorem LevelMap.not_partial {ℓ : Nat → Plain} (h : LevelMap ℓ) (l : Nat) : ¬ (ℓ l).Partial := by
  intro hp
  obtain e | ⟨i, e⟩ := h l <;> rw [e] at hp
  · obtain ⟨k, e⟩ := hp.eq_atom
    cases e
  · obtain ⟨_, e⟩ | ⟨_, _, e, _⟩ := hp.cases <;> cases e

theorem Neutral.not_partial {ℓ : Nat → Plain} (hℓ : LevelMap ℓ) (m : Neutral) :
    ¬ (m.plain ℓ).Partial := by
  cases m with
  | var label l => exact hℓ.not_partial l
  | const c => exact not_partial_spine (a := .const c) (by simp) []
  | app f a => exact fun h => Neutral.not_partial hℓ f h.of_app
  | elim t M ms => exact not_partial_elim _ _ _

theorem Value.not_partial {ℓ : Nat → Plain} (hℓ : LevelMap ℓ) (v : Value) :
    ¬ (v.plain ℓ).Partial := by
  cases v with
  | neutral m => exact m.not_partial hℓ
  | type l => exact not_partial_spine (a := .type l.toNat) (by simp) []
  | pi d c =>
    intro h
    obtain ⟨_, e⟩ | ⟨_, _, e, _⟩ := h.cases <;> cases e
  | lam d c =>
    intro h
    obtain ⟨_, e⟩ | ⟨_, _, e, _⟩ := h.cases <;> cases e
  | former F as => exact not_partial_spine (by simp) _
  | con c as => exact not_partial_spine (by simp) _

theorem Term.not_partial {σ : Nat → Plain} (hσ : ∀ i, ¬ (σ i).Partial) :
    ∀ t : Term, ¬ (t.plain.subst σ).Partial
  | .var _ i => hσ i
  | .const c => not_partial_spine (a := .const c) (by simp) []
  | .letIn _ _ _ _ => fun h => by obtain ⟨_, e⟩ | ⟨_, _, e, _⟩ := h.cases <;> cases e
  | .type l => not_partial_spine (a := .type l.toNat) (by simp) []
  | .pi _ _ _ => fun h => by obtain ⟨_, e⟩ | ⟨_, _, e, _⟩ := h.cases <;> cases e
  | .lam _ _ _ => fun h => by obtain ⟨_, e⟩ | ⟨_, _, e, _⟩ := h.cases <;> cases e
  | .app f _ => fun h => Term.not_partial hσ f h.of_app
  | .former F as => by
    rw [Term.plain, subst_spine]
    exact not_partial_spine (a := .former F) (by simp) _
  | .con c as => by
    rw [Term.plain, subst_spine]
    exact not_partial_spine (a := .con c) (by simp) _
  | .elim t M ms => by
    rw [Term.plain, Plain.elim, subst, subst_elimHead]
    exact not_partial_elim _ _ _

theorem Term.plainIn_not_partial {ℓ : Nat → Plain} (hℓ : LevelMap ℓ) (env : Env) (t : Term) :
    ¬ (t.plainIn ℓ env).Partial := by
  refine t.not_partial fun i => ?_
  rw [ofList, Value.plains_eq_map, List.getD_eq_getElem?_getD, List.getElem?_map]
  cases env[i]? with
  | none => exact not_partial_spine (a := .hole) (by simp) []
  | some v => exact v.not_partial hℓ

/-! ### Safety -/

/-- A computation used up what it was given. -/
def Halt.Resource (h : Halt) : Prop := h = .exhausted ∨ h = .overflow

/-- A computation either succeeds or uses up what it was given. -/
abbrev Safe {α : Type} (r : Except Halt α) : Prop := Post r (fun _ => True) Halt.Resource

theorem Safe.exhausted {α : Type} : Safe (.error .exhausted : Except Halt α) := .inl rfl

theorem Safe.nextNumber (n : Nat) : Safe (nextNumber n) := by
  unfold Constructions.nextNumber
  split
  · trivial
  · exact .inr rfl

theorem Safe.mapM {α β : Type} {f : α → Except Halt β} {as : List α} (h : ∀ a ∈ as, Safe (f a)) :
    Safe (as.mapM f) := (Post.mapM (R := fun _ _ => True) h).mono (fun _ _ => trivial) fun _ h => h

theorem Post.liftM {ε α : Type} {x : Except Halt α} {P : α → Prop} {Q : Stop ε → Prop}
    (h : Post x P fun h => Q (.halt h)) : Post (liftM x : Except (Stop ε) α) P Q := by
  cases x with
  | ok a => exact h
  | error e => exact h

theorem Post.orDangling {α : Type} {o : Option α} {a : α} {P : α → Prop} {Q : Halt → Prop}
    (h : o = some a) (ha : P a) : Post (orDangling o) P Q := by
  subst h
  exact ha

/-- An elimination either succeeds or uses up what it was given. -/
abbrev SafeStop {α : Type} (r : Except (Stop Violation) α) : Prop :=
  Post r (fun _ => True) fun s => ∃ h, s = .halt h ∧ h.Resource

section

variable (hΘ : Θ.Sound) (hS : Θ.Describes S) {Γ : List Plain} {ℓ : Nat → Plain} (hℓ : LevelMap ℓ)

include hΘ hS hℓ

theorem Value.applyAll_safe_of {n : Nat}
    (ih : ∀ {f a : Value} {T}, HasType Θ Γ (.app (f.plain ℓ) (a.plain ℓ)) T →
      Safe (f.apply S n a)) {as : List Value} {f : Value} {T : Plain}
    (h : HasType Θ Γ (spine (f.plain ℓ) (Value.plains ℓ as)) T) : Safe (f.applyAll S n as) := by
  induction as generalizing f with
  | nil => trivial
  | cons a as ihas =>
    rw [Value.plains, spine_cons] at h
    obtain ⟨G, hfa⟩ := h.of_spine fun hp => f.not_partial hℓ hp.of_app
    refine Post.bind (ih hfa) fun g hg _ => ihas ?_
    exact h.reds hΘ (Reds.spine (Value.apply_reds hS hg ℓ) (Reds.refls _))

omit hΘ hS in
/-- An application of values is safe if evaluation is. -/
theorem Value.apply_safe_of {n : Nat}
    (ihe : ∀ {env : Env} {t : Term} {T}, HasType Θ Γ (t.plainIn ℓ env) T → Safe (t.eval S n env))
    {f a : Value} {T : Plain} (h : HasType Θ Γ (.app (f.plain ℓ) (a.plain ℓ)) T) :
    Safe (f.apply S (n + 1) a) := by
  obtain ⟨A, B, hf, ha, _⟩ := h.app_inv_of_not_partial (f.not_partial hℓ)
  cases f with
  | neutral m => trivial
  | type l => exact (hf.type_inv.type_ne_pi).elim
  | pi d c =>
    obtain ⟨_, _, _, _, e⟩ := hf.pi_inv
    exact e.type_ne_pi.elim
  | lam d c =>
    obtain ⟨env, label, body⟩ := c
    obtain ⟨_, B', _, hb, e⟩ := hf.lam_inv
    have hb := hb.inst (.conv ha e.pi_inj.1.symm)
    rw [Closure.plain, ← plainIn_cons] at hb
    exact ihe hb
  | former F as => trivial
  | con c as => trivial

/-- An elimination of values is safe if application and smaller eliminations are. -/
theorem Value.eliminate_safe_of {n : Nat}
    (iha : ∀ {f a : Value} {T}, HasType Θ Γ (.app (f.plain ℓ) (a.plain ℓ)) T →
      Safe (f.apply S n a))
    (ihm : ∀ {M t : Value} {ms : List Value} {T},
      HasType Θ Γ (Plain.elim (M.plain ℓ) (Value.plains ℓ ms) (t.plain ℓ)) T →
      SafeStop (Value.eliminate S n M ms t))
    {M t : Value} {ms : List Value} {T : Plain}
    (h : HasType Θ Γ (Plain.elim (M.plain ℓ) (Value.plains ℓ ms) (t.plain ℓ)) T) :
    SafeStop (Value.eliminate S (n + 1) M ms t) := by
  obtain ⟨F, D, cs, ps, is, u, he, _⟩ := h.elim_inv
  cases t with
  | neutral m => trivial
  | type l => exact he.target.type_inv.type_ne_former.elim
  | pi d c =>
    obtain ⟨_, _, _, _, e⟩ := he.target.pi_inv
    exact e.type_ne_former.elim
  | lam d c =>
    obtain ⟨_, _, _, _, e⟩ := he.target.lam_inv
    exact e.pi_ne_former.elim
  | former F' as =>
    obtain ⟨D', _, hle, hlt, hfull⟩ := he.target.spine_former_inv
    obtain h | h := Nat.lt_or_eq_of_le hle
    · obtain ⟨A, B, e⟩ := hlt h
      exact e.pi_ne_former.elim
    · exact (hfull h).2.type_ne_former.elim
  | con c as =>
    obtain ⟨K, qs, fs, hK, rfl, hargs, hc⟩ := he.target.construction hΘ he.family he.parameters
    obtain ⟨K', hK', dK⟩ := hS.constructor?_of_eq_some hK
    obtain ⟨F', hF', dF⟩ := hS.family?_of_eq_some he.family
    have hlen : as.length = K'.arity := by
      have := he.target.length_eq_arity hK
      rwa [Value.length_plains, ConstructorShape.arity, dK.parameters, dK.fields] at this
    obtain ⟨table, htable, rfl⟩ := dF.exists_table he.constructors
    have hmem : c ∈ table.constructors := (hΘ.constructors he.family he.constructors c).2 ⟨K, hK, rfl⟩
    obtain ⟨i, hi⟩ := Option.isSome_iff_exists.1 (List.isSome_idxOf?.2 hmem)
    have hil : i < ms.length := by
      have := (List.getElem?_eq_some_iff.1 (getElem?_of_idxOf? hi)).1
      have := he.methods
      rw [Value.length_plains] at this
      omega
    have hm : table.select? c ms = some ms[i] := by
      rw [Dispatch.select?_eq, hi, Option.bind_some, List.getElem?_eq_getElem hil]
    rw [Value.eliminate]
    refine Post.bind (P := (K' = ·)) (.liftM (.orDangling hK' rfl)) fun _ _ hK'' => ?_
    subst hK''
    rw [if_neg (not_not.2 hlen)]
    refine Post.bind (P := (F' = ·)) (.liftM (.orDangling (dK.family ▸ hF') rfl)) fun _ _ h => ?_
    subst h
    simp only [htable, hm]
    refine Post.bind (P := fun rs => List.Forall₂ (fun i r => ∃ a, as[i]? = some a ∧
      Value.eliminate S n M ms a = .ok r) K'.recursiveFields rs) (.mapM fun k hk => ?_)
      fun rs _ hrs => ?_
    · -- A recursive field is in the family at the same parameters.
      rw [← dK.recursive, List.mem_map] at hk
      obtain ⟨field, hfield, rfl⟩ := hk
      obtain ⟨j, b, hj, hb, he'⟩ := he.recursiveField rfl hc hfield
      have hb' : (Value.plains ℓ as)[field.1]? = some b := by
        rw [hargs, hj, ← hc.length_eq, List.getElem?_append_right (Nat.le_add_right _ _),
          Nat.add_sub_cancel_left, hb]
      rw [Value.plains_eq_map, List.getElem?_map] at hb'
      obtain ⟨a, ha, rfl⟩ := Option.map_eq_some_iff.1 hb'
      refine Post.bind (P := (a = ·)) (.liftM (.orDangling ha rfl)) fun _ _ h => ?_
      subst h
      exact .intro (fun r hr => ⟨_, ha, hr⟩) fun e herr => (ihm he'.hasType).of_error herr
    · have hbr := hS.branch hK' (dK.family ▸ hF') htable hi
      have hcon := he.contract hΘ hbr (Value.getElem?_plains (List.getElem?_eq_getElem hil))
      have hspine := hcon.reds hΘ (Branch.plainContract_reds _ (hrs.imp (by
        rintro i r ⟨a, ha, hr⟩
        exact ⟨a, ha, Value.eliminate_reds hS hr ℓ⟩)))
      rw [foldlM_liftM]
      exact .liftM ((Value.applyAll_safe_of hΘ hS hℓ iha hspine).mono (fun _ _ => trivial)
        fun h hr => ⟨h, rfl, hr⟩)

/-- **Evaluation, application and elimination of typed terms are safe.** -/
theorem eval_apply_eliminate_safe (n : Nat) :
    (∀ {env : Env} {t : Term} {T}, HasType Θ Γ (t.plainIn ℓ env) T → Safe (t.eval S n env)) ∧
    (∀ {f a : Value} {T}, HasType Θ Γ (.app (f.plain ℓ) (a.plain ℓ)) T → Safe (f.apply S n a)) ∧
    (∀ {M t : Value} {ms : List Value} {T},
      HasType Θ Γ (Plain.elim (M.plain ℓ) (Value.plains ℓ ms) (t.plain ℓ)) T →
      SafeStop (Value.eliminate S n M ms t)) := by
  induction n with
  | zero => exact ⟨fun _ => .exhausted, fun _ => .exhausted, fun _ => ⟨_, rfl, .inl rfl⟩⟩
  | succ n ih =>
    obtain ⟨ihe, iha, ihm⟩ := ih
    refine ⟨?_, Value.apply_safe_of hℓ ihe, Value.eliminate_safe_of hΘ hS hℓ iha ihm⟩
    have ihes {env : Env} {ts : List Term} {f T : Plain} (hf : ¬ f.Partial)
        (h : HasType Θ Γ (spine f ((Term.plains ts).map (subst (ofList (Value.plains ℓ env))))) T) :
        Safe (ts.mapM fun t => t.eval S n env) := by
      refine .mapM fun t ht => ?_
      rw [Term.plains_subst] at h
      obtain ⟨A, hA⟩ := h.of_mem_spine hf (List.mem_map_of_mem ht)
      exact ihe hA
    intro env t T h
    cases t with
    | var label i =>
      rw [Term.eval]
      cases hi : env[i]? with
      | some v => trivial
      | none =>
        have : ofList (Value.plains ℓ env) i = .atom .hole := by
          rw [ofList, Value.plains_eq_map, List.getD_eq_getElem?_getD, List.getElem?_map, hi]
          rfl
        rw [Term.plainIn, Term.plain, subst, this] at h
        obtain ⟨A, hA, _⟩ := h.declared_inv (by simp)
        cases hA
    | const c => trivial
    | letIn label A a b =>
      obtain ⟨_, _, ha, hb⟩ := h.letIn_inv
      refine Post.bind (ihe ha) fun v hv _ => ihe (T := T) ?_
      rw [plainIn_cons]
      exact hb.reds hΘ (Reds.inst_right _ (Term.eval_reds hS hv ℓ))
    | type l => trivial
    | pi label A B =>
      obtain ⟨_, _, hA, _, _⟩ := h.pi_inv
      exact Post.bind (ihe hA) fun _ _ _ => trivial
    | lam label A b =>
      obtain ⟨_, _, hA, _, _⟩ := h.lam_inv
      exact Post.bind (ihe hA) fun _ _ _ => trivial
    | app f a =>
      obtain ⟨A, B, hf, ha, _⟩ := h.app_inv_of_not_partial (f.plainIn_not_partial hℓ env)
      refine Post.bind (ihe hf) fun g hg _ => Post.bind (ihe ha) fun b hb _ => iha (T := T) ?_
      exact h.reds hΘ (Reds.app (Term.eval_reds hS hg ℓ) (Term.eval_reds hS hb ℓ))
    | former F as =>
      rw [Term.plainIn, Term.plain, subst_spine] at h
      exact Post.bind (ihes (not_partial_spine (a := .former F) (by simp) []) h)
        fun _ _ _ => trivial
    | con c as =>
      rw [Term.plainIn, Term.plain, subst_spine] at h
      exact Post.bind (ihes (not_partial_spine (a := .con c) (by simp) []) h) fun _ _ _ => trivial
    | elim t M ms =>
      rw [Term.plainIn, Term.plain, Plain.elim, subst, subst_elimHead, Term.plains_subst] at h
      obtain ⟨F, D, cs, ps, is, u, he, _⟩ := h.elim_inv
      refine Post.bind (ihe he.target) fun w hw _ => Post.bind (ihe he.motive) fun N hN _ => ?_
      refine Post.bind (Safe.mapM fun m hm => ?_) fun ns hns _ => ?_
      · obtain ⟨A, hA⟩ := he.of_mem_methods hΘ (List.mem_map_of_mem hm)
        exact ihe hA
      · have hns' : List.Forall₂ (Reds Θ) (ms.map fun m => m.plainIn ℓ env)
            (Value.plains ℓ ns) := by
          rw [Value.plains_eq_map, List.forall₂_map_left_iff, List.forall₂_map_right_iff]
          exact (mapM_eq_ok.1 hns).imp fun m v hv => Term.eval_reds hS hv ℓ
        have hr := Reds.elim (Term.eval_reds hS hN ℓ) hns' (Term.eval_reds hS hw ℓ)
        refine Post.mapError ((ihm (h.reds hΘ hr)).mono (fun _ _ => trivial) ?_)
        rintro _ ⟨h, rfl, hres⟩
        exact hres

variable {n : Nat} {T : Plain}

/-- **Evaluating a well-typed term does not go wrong.** -/
theorem Term.eval_safe {env : Env} {t : Term} (h : HasType Θ Γ (t.plainIn ℓ env) T) :
    Safe (t.eval S n env) := (eval_apply_eliminate_safe hΘ hS hℓ n).1 h

theorem Value.apply_safe {f a : Value} (h : HasType Θ Γ (.app (f.plain ℓ) (a.plain ℓ)) T) :
    Safe (f.apply S n a) := (eval_apply_eliminate_safe hΘ hS hℓ n).2.1 h

theorem Value.applyAll_safe {f : Value} {as : List Value}
    (h : HasType Θ Γ (spine (f.plain ℓ) (Value.plains ℓ as)) T) : Safe (f.applyAll S n as) :=
  Value.applyAll_safe_of hΘ hS hℓ (Value.apply_safe hΘ hS hℓ) h

theorem Closure.instantiate_safe {c : Closure} {a : Value}
    (h : HasType Θ Γ ((c.plain ℓ).inst (a.plain ℓ)) T) : Safe (c.instantiate S n a) := by
  obtain ⟨env, label, body⟩ := c
  rw [Closure.plain, ← plainIn_cons] at h
  exact Term.eval_safe hΘ hS hℓ h

end

end Constructions
