/-
# Arguments of telescopes

`Instance Θ Γ e Φ as` says that the terms `as` have the types of the telescope `Φ`,
whose outer variables stand for `e`.  Applying a function over `Φ` to an instance gives
a term of the type behind `Φ` (`Instance.spine`), and every well-typed application
arises so (`Instance.of_spine`).
-/

import Constructions.Proofs.Theory.Typing

namespace Constructions

open Plain

variable {Θ : Theory} {Γ : List Plain}

/-- The terms have the types of the telescope, each with the terms before it in its type. -/
inductive Instance (Θ : Theory) (Γ : List Plain) :
    List Plain → List Plain → List Plain → Prop where
  | nil (e : List Plain) : Instance Θ Γ e [] []
  | cons {e Φ as : List Plain} {a A : Plain} : HasType Θ Γ a (A.subst (ofList e)) →
      Instance Θ Γ (a :: e) Φ as → Instance Θ Γ e (A :: Φ) (a :: as)

namespace Instance

theorem length_eq {e Φ as : List Plain} (h : Instance Θ Γ e Φ as) : as.length = Φ.length := by
  induction h with
  | nil => rfl
  | cons _ _ ih => rw [List.length_cons, List.length_cons, ih]

/-- **A function over a telescope takes an instance of it.** -/
theorem spine {e Φ as : List Plain} {f B : Plain} (h : Instance Θ Γ e Φ as)
    (hf : HasType Θ Γ f ((pis Φ B).subst (ofList e))) :
    HasType Θ Γ (spine f as) (B.subst (ofList (as.reverse ++ e))) := by
  induction h generalizing f with
  | nil => exact hf
  | @cons e Φ as a A ha _ ih =>
    have hfa := HasType.app hf ha
    rw [inst_ofList] at hfa
    rw [List.reverse_cons, List.append_assoc]
    exact ih hfa

/-- **The arguments of a typed application are an instance.** -/
theorem of_spine {e Φ as : List Plain} {f B T : Plain} (hl : as.length = Φ.length)
    (hf : HasType Θ Γ f ((pis Φ B).subst (ofList e))) (h : HasType Θ Γ (Plain.spine f as) T) :
    Instance Θ Γ e Φ as ∧ Θ.Equal (B.subst (ofList (as.reverse ++ e))) T := by
  induction as generalizing e Φ f with
  | nil =>
    obtain rfl := List.length_eq_zero_iff.1 hl.symm
    exact ⟨.nil e, hf.unique h⟩
  | cons a as ih =>
    cases Φ with
    | nil => cases hl
    | cons A Φ =>
      -- The callee `f` is typed, so the first application is one of a function.
      obtain ⟨G, hfa⟩ := HasType.of_spine (f := .app f a) h fun hp => hf.not_partial hp.of_app
      obtain ⟨A', B', hf', ha, -⟩ := hfa.app_inv_of_not_partial hf.not_partial
      have ha : HasType Θ Γ a (A.subst (ofList e)) := .conv ha (hf'.unique hf).pi_inj.1
      have hfa := HasType.app hf ha
      rw [inst_ofList] at hfa
      obtain ⟨has, hT⟩ := ih (Nat.succ.inj hl) hfa h
      rw [List.reverse_cons, List.append_assoc]
      exact ⟨.cons ha has, hT⟩

theorem append {e Φ Ψ as bs : List Plain} (h : Instance Θ Γ e Φ as)
    (h' : Instance Θ Γ (as.reverse ++ e) Ψ bs) : Instance Θ Γ e (Φ ++ Ψ) (as ++ bs) := by
  induction h with
  | nil => exact h'
  | cons ha _ ih =>
    rw [List.reverse_cons, List.append_assoc] at h'
    exact .cons ha (ih h')

theorem of_append {e Φ Ψ as bs : List Plain} (hl : as.length = Φ.length)
    (h : Instance Θ Γ e (Φ ++ Ψ) (as ++ bs)) :
    Instance Θ Γ e Φ as ∧ Instance Θ Γ (as.reverse ++ e) Ψ bs := by
  induction as generalizing e Φ with
  | nil =>
    obtain rfl := List.length_eq_zero_iff.1 hl.symm
    exact ⟨.nil e, h⟩
  | cons a as ih =>
    cases Φ with
    | nil => cases hl
    | cons A Φ =>
      cases h with
      | cons ha h =>
        obtain ⟨has, hbs⟩ := ih (Nat.succ.inj hl) h
        rw [List.reverse_cons, List.append_assoc]
        exact ⟨.cons ha has, hbs⟩

/-- **An element of an instance has the type of its place.** -/
theorem getElem? {e Φ as : List Plain} (h : Instance Θ Γ e Φ as) {i : Nat} {a A : Plain}
    (ha : as[i]? = some a) (hA : Φ[i]? = some A) :
    HasType Θ Γ a (A.subst (ofList ((as.take i).reverse ++ e))) := by
  induction h generalizing i with
  | nil => cases ha
  | @cons e Φ as b B hb _ ih =>
    cases i with
    | zero =>
      cases ha
      cases hA
      exact hb
    | succ i =>
      have := ih ha hA
      rwa [List.take_succ_cons, List.reverse_cons, List.append_assoc]

/-- What the outer variables stand for may be replaced by equal terms. -/
theorem conv {e e' Φ as : List Plain} (h : Instance Θ Γ e Φ as) (he : List.Forall₂ Θ.Equal e e') :
    Instance Θ Γ e' Φ as := by
  induction h generalizing e' with
  | nil => exact .nil e'
  | cons ha _ ih => exact .cons (.conv ha (.subst_ofList _ he)) (ih (.cons (.refl _) he))

/-- A telescope with renamed outer variables has the instances of the telescope. -/
theorem renameTele {e e' Φ as : List Plain} {ρ : Nat → Nat} (h : Instance Θ Γ e Φ as)
    (he : ∀ i, ofList e' (ρ i) = ofList e i) : Instance Θ Γ e' (renameTele ρ Φ) as := by
  induction h generalizing e' ρ with
  | nil => exact .nil e'
  | cons ha _ ih =>
    refine .cons ?_ (ih fun i => ?_)
    · rw [subst_rename, funext he]
      exact ha
    · cases i with
      | zero => rfl
      | succ i => exact he i

end Instance

/-- **A function over domains that do not depend on each other takes terms of them.** -/
theorem HasType.arrows {f B : Plain} {as As : List Plain} (h : List.Forall₂ (HasType Θ Γ) as As)
    (hf : HasType Θ Γ f (arrows As B)) : HasType Θ Γ (spine f as) B := by
  induction h generalizing f with
  | nil => exact hf
  | cons ha _ ih =>
    have hfa := HasType.app hf ha
    rw [shift_inst] at hfa
    exact ih hfa

theorem Theory.Equal.arrows {As Bs : List Plain} {A B : Plain} (h : List.Forall₂ Θ.Equal As Bs)
    (hAB : Θ.Equal A B) : Θ.Equal (arrows As A) (Plain.arrows Bs B) := by
  induction h with
  | nil => exact hAB
  | cons h _ ih => exact .pi h (ih.rename Nat.succ)

theorem HasType.isType_arrows {As : List Plain} {B : Plain} {n : Nat}
    (h : ∀ A ∈ As, HasType Θ Γ A (.atom (.type n))) (hB : HasType Θ Γ B (.atom (.type n))) :
    ∃ m, HasType Θ Γ (Plain.arrows As B) (.atom (.type m)) := by
  induction As with
  | nil => exact ⟨n, hB⟩
  | cons A As ih =>
    rw [List.forall_mem_cons] at h
    obtain ⟨m, hm⟩ := ih h.2
    exact ⟨_, .pi h.1 (hm.shift A)⟩

/-- The variable of a binder of a telescope. -/
theorem Lookup.telescope {Φ : List Plain} {A : Plain} {i : Nat} (h : Φ[i]? = some A) :
    Lookup (Φ.reverse ++ Γ) (Φ.length - 1 - i) (A.rename (· + (Φ.length - i))) := by
  induction Φ using List.reverseRecOn with
  | nil => cases h
  | append_singleton Φ B ih =>
    rw [List.reverse_append, List.length_append, List.length_singleton]
    obtain hi | rfl | hi := Nat.lt_trichotomy i Φ.length
    · rw [List.getElem?_append_left hi] at h
      have := Lookup.succ B (ih h)
      rw [shift, rename_rename, show Φ.length - 1 - i + 1 = Φ.length + 1 - 1 - i by omega,
        show (fun j => (j + (Φ.length - i)).succ) = (· + (Φ.length + 1 - i)) from
          funext fun j => by omega] at this
      exact this
    · rw [List.getElem?_concat_length] at h
      cases h
      rw [Nat.add_sub_cancel, Nat.sub_self, Nat.add_sub_cancel_left]
      exact .zero _ _
    · rw [List.getElem?_eq_none (by simp; omega)] at h
      cases h

section Lengths

variable {e Φ as : List Plain} {f B T : Plain} (hf : HasType Θ Γ f ((pis Φ B).subst (ofList e)))
  (h : HasType Θ Γ (spine f as) T)

include hf h

/-- **A function over a telescope takes no more arguments than the telescope has binders**,
if what stands behind it is no function type. -/
theorem length_le_of_spine (hB : ∀ σ A C, ¬ Θ.Equal (B.subst σ) (.pi A C)) :
    as.length ≤ Φ.length := by
  rw [← Nat.not_lt]
  intro hlt
  have hs : (as.take Φ.length).length = Φ.length := List.length_take_of_le (Nat.le_of_lt hlt)
  rw [← List.take_append_drop Φ.length as, spine_append, List.drop_eq_getElem_cons hlt,
    spine_cons] at h
  have hp : ¬ (spine f (as.take Φ.length)).Partial := fun hp => hf.not_partial hp.of_spine
  obtain ⟨G, hG⟩ := h.of_spine fun hp' => hp hp'.of_app
  obtain ⟨A, C, hA, _⟩ := hG.app_inv_of_not_partial hp
  exact hB _ _ _ (Instance.of_spine hs hf hA).2

/-- **With too few arguments it is still a function.** -/
theorem eq_pi_of_spine_of_lt (hlt : as.length < Φ.length) : ∃ A C, Θ.Equal (.pi A C) T := by
  have hs : as.length = (Φ.take as.length).length :=
    (List.length_take_of_le (Nat.le_of_lt hlt)).symm
  rw [← List.take_append_drop as.length Φ, pis_append] at hf
  have hT := (Instance.of_spine hs hf h).2
  rw [List.drop_eq_getElem_cons hlt, pis_cons] at hT
  exact ⟨_, _, hT⟩

end Lengths

/-! ### The scope of a telescope -/

theorem Theory.Equal.pis {Φ Ψ : List Plain} {B C : Plain} (h : List.Forall₂ Θ.Equal Φ Ψ)
    (hB : Θ.Equal B C) : Θ.Equal (pis Φ B) (Plain.pis Ψ C) := by
  induction h with
  | nil => exact hB
  | cons hA _ ih => exact .pi hA ih

theorem Theory.Equal.pis_inj {Φ Ψ : List Plain} {B C : Plain} (hl : Φ.length = Ψ.length)
    (h : Θ.Equal (Plain.pis Φ B) (Plain.pis Ψ C)) : List.Forall₂ Θ.Equal Φ Ψ ∧ Θ.Equal B C := by
  induction Φ generalizing Ψ with
  | nil =>
    obtain rfl := List.length_eq_zero_iff.1 hl.symm
    exact ⟨.nil, h⟩
  | cons A Φ ih =>
    cases Ψ with
    | nil => cases hl
    | cons A' Ψ =>
      obtain ⟨hA, h⟩ := h.pi_inj
      obtain ⟨hΦ, hB⟩ := ih (Nat.succ.inj hl) h
      exact ⟨.cons hA hΦ, hB⟩

theorem Renaming.add (Γ Ψ : List Plain) : Renaming Γ (Ψ ++ Γ) (· + Ψ.length) := by
  induction Ψ with
  | nil =>
    intro i A h
    rwa [rename_eq_subst, show (fun i => Plain.var (i + [].length)) = .var from rfl, subst_var]
  | cons B Ψ ih =>
    intro i A h
    have h := Lookup.succ B (ih h)
    rwa [shift, rename_rename] at h

namespace HasType

theorem shifts {t T : Plain} (h : HasType Θ Γ t T) (Ψ : List Plain) :
    HasType Θ (Ψ ++ Γ) (t.rename (· + Ψ.length)) (T.rename (· + Ψ.length)) :=
  h.rename (Renaming.add Γ Ψ)

/-- **What stands behind a telescope is a type in its scope.** -/
theorem pis_inv {Φ : List Plain} {B : Plain} {n : Nat}
    (h : HasType Θ Γ (pis Φ B) (.atom (.type n))) :
    ∃ m, HasType Θ (Φ.reverse ++ Γ) B (.atom (.type m)) := by
  induction Φ generalizing Γ n with
  | nil => exact ⟨n, h⟩
  | cons A Φ ih =>
    obtain ⟨_, _, _, hB, _⟩ := h.pi_inv
    rw [List.reverse_cons, List.append_assoc]
    exact ih hB

/-- **A domain of a telescope is a type in the scope of those before it.** -/
theorem pis_domain {Φ : List Plain} {A B : Plain} {n i : Nat}
    (h : HasType Θ Γ (pis Φ B) (.atom (.type n))) (hA : Φ[i]? = some A) :
    ∃ m, HasType Θ ((Φ.take i).reverse ++ Γ) A (.atom (.type m)) := by
  have hi : i < Φ.length := (List.getElem?_eq_some_iff.1 hA).1
  rw [← List.take_append_drop i Φ, pis_append, List.drop_eq_getElem_cons hi] at h
  obtain ⟨_, h⟩ := h.pis_inv
  obtain ⟨m, _, h, _⟩ := h.pi_inv
  rw [List.getElem?_eq_getElem hi] at hA
  exact ⟨m, Option.some.inj hA ▸ h⟩

/-- The type behind a telescope may be replaced. -/
theorem pis_replace {Φ : List Plain} {B C : Plain} {n m : Nat}
    (h : HasType Θ Γ (pis Φ B) (.atom (.type n)))
    (hC : HasType Θ (Φ.reverse ++ Γ) C (.atom (.type m))) :
    ∃ k, HasType Θ Γ (pis Φ C) (.atom (.type k)) := by
  induction Φ generalizing Γ n with
  | nil => exact ⟨m, hC⟩
  | cons A Φ ih =>
    obtain ⟨_, _, hA, hB, _⟩ := h.pi_inv
    rw [List.reverse_cons, List.append_assoc] at hC
    obtain ⟨k, hk⟩ := ih hB hC
    exact ⟨_, .pi hA hk⟩

/-- **The domains of a context may be replaced by equal ones.** -/
theorem changes {Φ Ψ : List Plain} (h : List.Forall₂ Θ.Equal Φ Ψ) {t T : Plain}
    (ht : HasType Θ (Φ.reverse ++ Γ) t T) : HasType Θ (Ψ.reverse ++ Γ) t T := by
  have hσ : Substitution Θ (Φ.reverse ++ Γ) (Ψ.reverse ++ Γ) .var := by
    have hr := List.rel_reverse h
    generalize Φ.reverse = Φ' at hr ⊢
    generalize Ψ.reverse = Ψ' at hr ⊢
    clear h ht
    intro i A hA
    rw [subst_var]
    induction hr generalizing i A with
    | nil => exact .var hA
    | cons he _ ih =>
      cases hA with
      | zero => exact .conv (.var (.zero _ _)) (he.symm.rename _)
      | succ _ hA => exact (ih hA).shift _
  have h := ht.subst hσ
  rwa [subst_var, subst_var] at h

/-- **A function over a telescope takes the variables of the telescope.** -/
theorem spine_vars {Φ : List Plain} {f B : Plain} (h : HasType Θ Γ f (pis Φ B)) :
    HasType Θ (Φ.reverse ++ Γ) (spine (f.rename (· + Φ.length)) (vars Φ.length)) B := by
  induction Φ generalizing Γ f with
  | nil =>
    rwa [rename_eq_subst, show (fun i => Plain.var (i + [].length)) = .var from rfl, subst_var]
  | cons A Φ ih =>
    have happ := HasType.app (h.shift A) (.var (.zero Γ A))
    rw [inst_lift_shift] at happ
    have hf : f.rename (· + (Φ.length + 1)) = f.shift.rename (· + Φ.length) := by
      rw [Plain.shift, rename_rename]
      exact congrArg (fun ρ => f.rename ρ) (funext fun i => by omega)
    have hs := ih happ
    rw [Plain.rename, Plain.rename, Nat.zero_add] at hs
    rwa [List.reverse_cons, List.append_assoc, List.length_cons, vars_succ, spine_cons, hf]

end HasType

end Constructions
