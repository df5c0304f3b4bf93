/-
# Structural properties of typing

* Typing is kept by every substitution that is itself well typed (`HasType.subst`);
  renamings and a change of context to equal types are special cases.
* What a typed term is built from is typed (`HasType.var_inv`, …, `HasType.app_inv`).
  An application is typed by the rule for functions or by the one for eliminations,
  and the two cannot be mixed up: an elimination without its target has no type
  (`HasType.not_partial`).
* A term has one type, up to equality (`HasType.unique`).
-/

import Constructions.Proofs.Theory.Equality

namespace Constructions

open Plain

variable {Θ : Theory}

theorem FamilyShape.subst_motiveType (D : FamilyShape) (F : FamilyId) (ps : List Plain) (n : Nat)
    (σ : Nat → Plain) :
    (D.motiveType F ps n).subst σ = D.motiveType F (ps.map (Plain.subst σ)) n := by
  rw [motiveType, subst_ofList, List.map_reverse]
  rfl

theorem FamilyShape.rename_motiveType (D : FamilyShape) (F : FamilyId) (ps : List Plain) (n : Nat)
    (ρ : Nat → Nat) :
    (D.motiveType F ps n).rename ρ = D.motiveType F (ps.map (Plain.rename ρ)) n := by
  rw [motiveType, rename_ofList, List.map_reverse]
  rfl

theorem ConstructorShape.subst_methodType (K : ConstructorShape) (c : ConstructorId)
    (ps : List Plain) (M : Plain) (σ : Nat → Plain) :
    (K.methodType c ps M).subst σ = K.methodType c (ps.map (Plain.subst σ)) (M.subst σ) := by
  rw [methodType, subst_ofList, List.map_cons, List.map_reverse]
  rfl

/-- Every variable of a context goes to a term of its type. -/
def Substitution (Θ : Theory) (Γ Δ : List Plain) (σ : Nat → Plain) : Prop :=
  ∀ ⦃i A⦄, Lookup Γ i A → HasType Θ Δ (σ i) (A.subst σ)

/-- Every variable of a context goes to a variable of its type. -/
def Renaming (Γ Δ : List Plain) (ρ : Nat → Nat) : Prop :=
  ∀ ⦃i A⦄, Lookup Γ i A → Lookup Δ (ρ i) (A.rename ρ)

theorem Renaming.lift {Γ Δ : List Plain} {ρ : Nat → Nat} (h : Renaming Γ Δ ρ) (A : Plain) :
    Renaming (A :: Γ) (A.rename ρ :: Δ) (liftRen ρ) := by
  intro i B hB
  cases hB with
  | zero =>
    rw [shift_rename]
    exact .zero _ _
  | succ _ hB =>
    rw [shift_rename]
    exact .succ _ (h hB)

theorem Renaming.succ (Γ : List Plain) (A : Plain) : Renaming Γ (A :: Γ) Nat.succ :=
  fun _ _ h => .succ A h

namespace HasType

/-- **Typing is kept by every class of substitutions that is closed under going below a
binder.**  Renamings are such a class, and with their help all typed substitutions are. -/
theorem subst_of {P : List Plain → List Plain → (Nat → Plain) → Prop}
    (hvar : ∀ {Γ Δ σ}, P Γ Δ σ → Substitution Θ Γ Δ σ)
    (hlift : ∀ {Γ Δ σ} (A : Plain), P Γ Δ σ → P (A :: Γ) (A.subst σ :: Δ) (liftSub σ))
    {Γ Δ : List Plain} {t T : Plain} {σ : Nat → Plain} (h : HasType Θ Γ t T) (hσ : P Γ Δ σ) :
    HasType Θ Δ (t.subst σ) (T.subst σ) := by
  induction h generalizing Δ σ with
  | var hA => exact hvar hσ hA
  | atom hT =>
    rw [Θ.typeOf_closed hT σ]
    exact .atom hT
  | type n => exact .type n
  | letIn _ _ _ ihA iha ihb =>
    refine .letIn (ihA hσ) (iha hσ) ?_
    rw [← subst_inst]
    exact ihb hσ
  | pi _ _ ihA ihB => exact .pi (ihA hσ) (ihB (hlift _ hσ))
  | lam _ _ ihA ihb => exact .lam (ihA hσ) (ihb (hlift _ hσ))
  | app _ _ ihf iha =>
    rw [subst_inst]
    exact .app (ihf hσ) (iha hσ)
  | elim hF hcs hps his hms _ _ _ iht ihM ihms =>
    have ht := iht hσ
    have hM := ihM hσ
    rw [subst_spine, List.map_append] at ht
    rw [FamilyShape.subst_motiveType] at hM
    rw [subst_spine, List.map_append, Plain.subst, subst_elimHead]
    refine .elim hF hcs (by simpa using hps) (by simpa using his) (by simpa using hms) ht hM ?_
    intro j m c K hm hc hK
    rw [List.getElem?_map] at hm
    obtain ⟨m, hm', rfl⟩ := Option.map_eq_some_iff.1 hm
    rw [← ConstructorShape.subst_methodType]
    exact ihms hm' hc hK hσ
  | conv _ hA ih => exact .conv (ih hσ) (hA.subst σ)

theorem rename {Γ Δ : List Plain} {t T : Plain} {ρ : Nat → Nat} (h : HasType Θ Γ t T)
    (hρ : Renaming Γ Δ ρ) : HasType Θ Δ (t.rename ρ) (T.rename ρ) := by
  rw [rename_eq_subst, rename_eq_subst]
  refine h.subst_of (P := fun Γ Δ σ => ∃ ρ, σ = (fun i => .var (ρ i)) ∧ Renaming Γ Δ ρ)
    ?_ ?_ ⟨ρ, rfl, hρ⟩
  · rintro Γ Δ _ ⟨ρ, rfl, hρ⟩ i A hA
    rw [← rename_eq_subst]
    exact .var (hρ hA)
  · rintro Γ Δ _ A ⟨ρ, rfl, hρ⟩
    refine ⟨liftRen ρ, rename_eq_subst.lift.symm, ?_⟩
    rw [← rename_eq_subst]
    exact hρ.lift A

theorem shift {Γ : List Plain} {t T : Plain} (h : HasType Θ Γ t T) (A : Plain) :
    HasType Θ (A :: Γ) t.shift T.shift := h.rename (Renaming.succ Γ A)

end HasType

theorem Substitution.lift {Γ Δ : List Plain} {σ : Nat → Plain} (h : Substitution Θ Γ Δ σ)
    (A : Plain) : Substitution Θ (A :: Γ) (A.subst σ :: Δ) (liftSub σ) := by
  intro i B hB
  cases hB with
  | zero =>
    rw [shift_subst]
    exact .var (.zero _ _)
  | succ _ hB =>
    rw [shift_subst]
    exact (h hB).shift _

theorem Substitution.cons {Γ Δ : List Plain} {σ : Nat → Plain} {a A : Plain}
    (h : Substitution Θ Γ Δ σ) (ha : HasType Θ Δ a (A.subst σ)) :
    Substitution Θ (A :: Γ) Δ (consSub a σ) := by
  have hs : ∀ B : Plain, B.shift.subst (consSub a σ) = B.subst σ := fun B => subst_rename _ _ B
  intro i B hB
  cases hB with
  | zero => exact (hs A).symm ▸ ha
  | succ _ hB => exact (hs _).symm ▸ h hB

theorem Substitution.id (Γ : List Plain) : Substitution Θ Γ Γ .var := by
  intro i A hA
  rw [subst_var]
  exact .var hA

namespace HasType

/-- **Typing is kept by typed substitutions.** -/
theorem subst {Γ Δ : List Plain} {t T : Plain} {σ : Nat → Plain} (h : HasType Θ Γ t T)
    (hσ : Substitution Θ Γ Δ σ) : HasType Θ Δ (t.subst σ) (T.subst σ) :=
  h.subst_of (P := Substitution Θ) (fun h => h) (fun A h => h.lift A) hσ

theorem inst {Γ : List Plain} {b B a A : Plain} (h : HasType Θ (A :: Γ) b B)
    (ha : HasType Θ Γ a A) : HasType Θ Γ (b.inst a) (B.inst a) :=
  h.subst ((Substitution.id Γ).cons (by rwa [subst_var]))

/-- **The domain of the innermost variable may be replaced by an equal one.** -/
theorem change {Γ : List Plain} {A A' b B : Plain} (h : HasType Θ (A :: Γ) b B)
    (hA : Θ.Equal A A') : HasType Θ (A' :: Γ) b B := by
  have hσ : Substitution Θ (A :: Γ) (A' :: Γ) .var := by
    intro i C hC
    rw [subst_var]
    cases hC with
    | zero => exact .conv (.var (.zero _ _)) (hA.symm.rename _)
    | succ _ hC => exact .var (.succ _ hC)
  have h := h.subst hσ
  rwa [subst_var, subst_var] at h

/-- What is typed in the empty context keeps its type in every context. -/
theorem weaken {t T : Plain} (h : HasType Θ [] t T) (Γ : List Plain) : HasType Θ Γ t T := by
  have h := h.subst (Δ := Γ) (σ := .var) (fun _ _ hA => nomatch hA)
  rwa [subst_var, subst_var] at h

/-! ### Inversion -/

theorem var_inv {Γ : List Plain} {i : Nat} {T : Plain} (h : HasType Θ Γ (.var i) T) :
    ∃ A, Lookup Γ i A ∧ Θ.Equal A T := by
  generalize ht : Plain.var i = t at h
  induction h with
  | var hA =>
    cases ht
    exact ⟨_, hA, .refl _⟩
  | conv _ hB ih =>
    obtain ⟨A, hA, e⟩ := ih ht
    exact ⟨A, hA, e.trans hB⟩
  | _ => cases ht

theorem atom_inv {Γ : List Plain} {a : Atom} {T : Plain} (h : HasType Θ Γ (.atom a) T) :
    (∃ A, Θ.typeOf a = some A ∧ Θ.Equal A T) ∨
      ∃ n, a = .type n ∧ Θ.Equal (.atom (.type (n + 1))) T := by
  generalize ht : Plain.atom a = t at h
  induction h with
  | atom hA =>
    cases ht
    exact .inl ⟨_, hA, .refl _⟩
  | type n =>
    cases ht
    exact .inr ⟨n, rfl, .refl _⟩
  | conv _ hB ih =>
    obtain ⟨A, hA, e⟩ | ⟨n, hn, e⟩ := ih ht
    · exact .inl ⟨A, hA, e.trans hB⟩
    · exact .inr ⟨n, hn, e.trans hB⟩
  | _ => cases ht

theorem declared_inv {Γ : List Plain} {a : Atom} {T : Plain} (h : HasType Θ Γ (.atom a) T)
    (ha : ∀ n, a ≠ .type n) : ∃ A, Θ.typeOf a = some A ∧ Θ.Equal A T := by
  obtain h | ⟨n, hn, _⟩ := h.atom_inv
  · exact h
  · exact (ha n hn).elim

theorem type_inv {Γ : List Plain} {n : Nat} {T : Plain} (h : HasType Θ Γ (.atom (.type n)) T) :
    Θ.Equal (.atom (.type (n + 1))) T := by
  obtain ⟨A, hA, _⟩ | ⟨m, hm, e⟩ := h.atom_inv
  · cases hA
  · cases hm
    exact e

theorem letIn_inv {Γ : List Plain} {A a b T : Plain} (h : HasType Θ Γ (.letIn A a b) T) :
    ∃ n, HasType Θ Γ A (.atom (.type n)) ∧ HasType Θ Γ a A ∧ HasType Θ Γ (b.inst a) T := by
  generalize ht : Plain.letIn A a b = t at h
  induction h with
  | letIn hA ha hb =>
    cases ht
    exact ⟨_, hA, ha, hb⟩
  | conv _ hB ih =>
    obtain ⟨n, hA, ha, hb⟩ := ih ht
    exact ⟨n, hA, ha, .conv hb hB⟩
  | _ => cases ht

theorem pi_inv {Γ : List Plain} {A B T : Plain} (h : HasType Θ Γ (.pi A B) T) :
    ∃ n m, HasType Θ Γ A (.atom (.type n)) ∧ HasType Θ (A :: Γ) B (.atom (.type m)) ∧
      Θ.Equal (.atom (.type (max n m))) T := by
  generalize ht : Plain.pi A B = t at h
  induction h with
  | pi hA hB =>
    cases ht
    exact ⟨_, _, hA, hB, .refl _⟩
  | conv _ hT ih =>
    obtain ⟨n, m, hA, hB, e⟩ := ih ht
    exact ⟨n, m, hA, hB, e.trans hT⟩
  | _ => cases ht

theorem lam_inv {Γ : List Plain} {A b T : Plain} (h : HasType Θ Γ (.lam A b) T) :
    ∃ n B, HasType Θ Γ A (.atom (.type n)) ∧ HasType Θ (A :: Γ) b B ∧
      Θ.Equal (.pi A B) T := by
  generalize ht : Plain.lam A b = t at h
  induction h with
  | lam hA hb =>
    cases ht
    exact ⟨_, _, hA, hb, .refl _⟩
  | conv _ hT ih =>
    obtain ⟨n, B, hA, hb, e⟩ := ih ht
    exact ⟨n, B, hA, hb, e.trans hT⟩
  | _ => cases ht

/-- The premises of an elimination that has the given parts. -/
structure Elimination (Θ : Theory) (Γ : List Plain) (M : Plain) (ms : List Plain) (t : Plain)
    (F : FamilyId) (D : FamilyShape) (cs : List ConstructorId) (ps is : List Plain) (n : Nat) :
    Prop where
  family : Θ.family F = some D
  constructors : D.constructors = some cs
  parameters : ps.length = D.parameters.length
  indices : is.length = D.indices.length
  methods : ms.length = cs.length
  target : HasType Θ Γ t (spine (.atom (.former F)) (ps ++ is))
  motive : HasType Θ Γ M (D.motiveType F ps n)
  method : ∀ {j : Nat} {m c K}, ms[j]? = some m → cs[j]? = some c → Θ.constructor c = some K →
    HasType Θ Γ m (K.methodType c ps M)

theorem Elimination.hasType {Γ : List Plain} {M t : Plain} {ms ps is : List Plain} {F : FamilyId}
    {D : FamilyShape} {cs : List ConstructorId} {n : Nat}
    (h : Elimination Θ Γ M ms t F D cs ps is n) :
    HasType Θ Γ (Plain.elim M ms t) (spine M (is ++ [t])) :=
  .elim h.family h.constructors h.parameters h.indices h.methods h.target h.motive h.method

theorem app_inv {Γ : List Plain} {f a T : Plain} (h : HasType Θ Γ (.app f a) T) :
    (∃ A B, HasType Θ Γ f (.pi A B) ∧ HasType Θ Γ a A ∧ Θ.Equal (B.inst a) T) ∨
      ∃ M ms F D cs ps is n, f = elimHead M ms ∧ Elimination Θ Γ M ms a F D cs ps is n ∧
        Θ.Equal (spine M (is ++ [a])) T := by
  generalize ht : Plain.app f a = t at h
  induction h with
  | app hf ha =>
    cases ht
    exact .inl ⟨_, _, hf, ha, .refl _⟩
  | elim hF hcs hps his hms ht' hM hm =>
    cases ht
    exact .inr ⟨_, _, _, _, _, _, _, _, rfl, ⟨hF, hcs, hps, his, hms, ht', hM, hm⟩, .refl _⟩
  | conv _ hT ih =>
    obtain ⟨A, B, hf, ha, e⟩ | ⟨M, ms, F, D, cs, ps, is, n, hf, he, e⟩ := ih ht
    · exact .inl ⟨A, B, hf, ha, e.trans hT⟩
    · exact .inr ⟨M, ms, F, D, cs, ps, is, n, hf, he, e.trans hT⟩
  | _ => cases ht

end HasType

/-! ### Eliminations without a target -/

/-- An elimination that lacks its target, and perhaps methods and the motive. -/
def Plain.Partial (t : Plain) : Prop :=
  ∃ k as, t = spine (.atom (.elim k)) as ∧ as.length ≤ k + 1

theorem Plain.partial_elimHead (M : Plain) (ms : List Plain) : (elimHead M ms).Partial :=
  ⟨ms.length, M :: ms, rfl, by simp⟩

theorem Plain.Partial.of_app {f a : Plain} (h : (Plain.app f a).Partial) : f.Partial := by
  obtain ⟨k, as, h, hk⟩ := h
  cases as using List.reverseRecOn with
  | nil => cases h
  | append_singleton as x =>
    rw [spine_concat] at h
    obtain ⟨rfl, rfl⟩ := app.inj h
    exact ⟨k, as, rfl, by rw [List.length_append, List.length_singleton] at hk; omega⟩

theorem Plain.Partial.of_spine {f : Plain} {as : List Plain} (h : (spine f as).Partial) :
    f.Partial := by
  induction as generalizing f with
  | nil => exact h
  | cons a as ih => exact (ih h).of_app

theorem Plain.not_partial_elim (M t : Plain) (ms : List Plain) : ¬ (Plain.elim M ms t).Partial := by
  rintro ⟨k, as, h, hk⟩
  rw [Plain.elim, elimHead, ← spine_concat] at h
  obtain ⟨hk', rfl⟩ := spine_atom_inj h
  obtain rfl := Atom.elim.inj hk'
  simp only [List.length_append, List.length_cons, List.length_nil] at hk
  omega

theorem Plain.Partial.eq_atom {a : Atom} (h : (Plain.atom a).Partial) : ∃ k, a = .elim k := by
  obtain ⟨k, as, h, _⟩ := h
  rw [← spine_nil (.atom a)] at h
  exact ⟨k, (spine_atom_inj h).1⟩

namespace HasType

/-- **An elimination without its target has no type.** -/
theorem not_partial {Γ : List Plain} {t T : Plain} (h : HasType Θ Γ t T) : ¬ t.Partial := by
  rintro ⟨k, as, rfl, hk⟩
  induction as using List.reverseRecOn generalizing T with
  | nil =>
    obtain ⟨A, hA, _⟩ := h.declared_inv (by simp)
    cases hA
  | append_singleton as x ih =>
    rw [List.length_append, List.length_singleton] at hk
    rw [spine_concat] at h
    obtain ⟨A, B, hf, _⟩ | ⟨M, ms, F, D, cs, ps, is, n, hf, _⟩ := h.app_inv
    · exact ih (by omega) hf
    · obtain ⟨hk', rfl⟩ := spine_atom_inj hf
      obtain rfl := Atom.elim.inj hk'
      simp only [List.length_cons] at hk
      omega

/-- An application of a term that is no elimination is typed by the rule for functions. -/
theorem app_inv_of_not_partial {Γ : List Plain} {f a T : Plain} (h : HasType Θ Γ (.app f a) T)
    (hf : ¬ f.Partial) :
    ∃ A B, HasType Θ Γ f (.pi A B) ∧ HasType Θ Γ a A ∧ Θ.Equal (B.inst a) T := by
  obtain h | ⟨M, ms, F, D, cs, ps, is, n, rfl, _⟩ := h.app_inv
  · exact h
  · exact (hf (partial_elimHead M ms)).elim

/-- **The parts of an elimination are typed.** -/
theorem elim_inv {Γ : List Plain} {M t T : Plain} {ms : List Plain}
    (h : HasType Θ Γ (Plain.elim M ms t) T) :
    ∃ F D cs ps is n, Elimination Θ Γ M ms t F D cs ps is n ∧
      Θ.Equal (spine M (is ++ [t])) T := by
  obtain ⟨A, B, hf, _⟩ | ⟨M', ms', F, D, cs, ps, is, n, hf, he, e⟩ := h.app_inv
  · exact (hf.not_partial (partial_elimHead M ms)).elim
  · obtain ⟨rfl, rfl⟩ := elimHead_inj hf
    exact ⟨F, D, cs, ps, is, n, he, e⟩

/-- **The head of a typed spine is typed.** -/
theorem of_spine {Γ : List Plain} {f T : Plain} {as : List Plain} (h : HasType Θ Γ (spine f as) T)
    (hf : ¬ f.Partial) : ∃ G, HasType Θ Γ f G := by
  induction as using List.reverseRecOn generalizing T with
  | nil => exact ⟨T, h⟩
  | append_singleton as x ih =>
    rw [spine_concat] at h
    obtain ⟨A, B, hs, _⟩ := h.app_inv_of_not_partial fun hp => hf hp.of_spine
    exact ih hs

/-- **The arguments of a typed spine are typed.** -/
theorem of_mem_spine {Γ : List Plain} {f T : Plain} {as : List Plain}
    (h : HasType Θ Γ (spine f as) T) (hf : ¬ f.Partial) {a : Plain} (ha : a ∈ as) :
    ∃ A, HasType Θ Γ a A := by
  induction as using List.reverseRecOn generalizing T with
  | nil => cases ha
  | append_singleton as x ih =>
    rw [spine_concat] at h
    obtain ⟨A, B, hs, hx, _⟩ := h.app_inv_of_not_partial fun hp => hf hp.of_spine
    obtain ha | ha := List.mem_append.1 ha
    · exact ih hs ha
    · exact ⟨A, List.mem_singleton.1 ha ▸ hx⟩

/-! ### Uniqueness -/

end HasType

theorem Lookup.unique {Γ : List Plain} {i : Nat} {A B : Plain} (h : Lookup Γ i A)
    (h' : Lookup Γ i B) : A = B := by
  induction h generalizing B with
  | zero =>
    cases h'
    rfl
  | succ _ _ ih =>
    cases h' with
    | succ _ h' => rw [ih h']

namespace HasType

/-- **A term has one type.** -/
theorem unique {Γ : List Plain} {t A B : Plain} (h : HasType Θ Γ t A) (h' : HasType Θ Γ t B) :
    Θ.Equal A B := by
  induction h generalizing B with
  | var hA =>
    obtain ⟨A', hA', e⟩ := h'.var_inv
    exact hA.unique hA' ▸ e
  | atom hA =>
    obtain ⟨A', hA', e⟩ | ⟨n, rfl, _⟩ := h'.atom_inv
    · obtain rfl := Option.some.inj (hA.symm.trans hA')
      exact e
    · cases hA
  | type n => exact h'.type_inv
  | letIn _ _ _ _ _ ihb =>
    obtain ⟨_, _, _, hb⟩ := h'.letIn_inv
    exact ihb hb
  | pi _ _ ihA ihB =>
    obtain ⟨n', m', hA, hB, e⟩ := h'.pi_inv
    rwa [(ihA hA).type_inj, (ihB hB).type_inj]
  | lam _ _ _ ihb =>
    obtain ⟨_, B', _, hb, e⟩ := h'.lam_inv
    exact (Theory.Equal.pi (.refl _) (ihb hb)).trans e
  | app hf _ ihf _ =>
    obtain ⟨A', B', hf', _, e⟩ := h'.app_inv_of_not_partial hf.not_partial
    exact ((ihf hf').pi_inj.2.inst (.refl _)).trans e
  | elim hF _ hps _ _ _ _ _ iht _ _ =>
    obtain ⟨F', D', cs', ps', is', n', he, e⟩ := h'.elim_inv
    obtain ⟨rfl, hargs⟩ := (iht he.target).former_inj
    obtain rfl := Option.some.inj (hF.symm.trans he.family)
    obtain ⟨_, his⟩ := forall₂_of_append hargs (hps.trans he.parameters.symm)
    refine Theory.Equal.trans (.spine (.refl _) ?_) e
    exact List.rel_append his (Theory.Equal.refls _)
  | conv _ hT ih => exact hT.symm.trans (ih h')

end HasType

end Constructions
