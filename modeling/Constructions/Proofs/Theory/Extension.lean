/-
# Larger theories

A theory is extended by declaring more: constants, families and constructors stay as they
are, and a family may become finalized.  Everything that is derived in a theory is derived in
an extension: reductions (`Theory.Le.par`), equalities (`Theory.Equal.mono`) and types
(`HasType.mono`).

A term that is typed in the empty context has no variables (`HasType.closed`), so it can be
declared.
-/

import Constructions.Proofs.Theory.Preservation

namespace Constructions

open Plain

/-! ### Terms without variables -/

namespace Plain

/-- All variables are below `n`. -/
def Bound : Nat → Plain → Prop
  | n, var i => i < n
  | _, atom _ => True
  | n, letIn A a b => A.Bound n ∧ a.Bound n ∧ b.Bound (n + 1)
  | n, pi A B => A.Bound n ∧ B.Bound (n + 1)
  | n, lam A b => A.Bound n ∧ b.Bound (n + 1)
  | n, app f a => f.Bound n ∧ a.Bound n

theorem bound_of_rename {ρ : Nat → Nat} {n m : Nat} {t : Plain} (h : (t.rename ρ).Bound m)
    (hρ : ∀ i, ρ i < m → i < n) : t.Bound n := by
  induction t generalizing ρ n m with
  | var i => exact hρ i h
  | atom a => trivial
  | letIn A a b ihA iha ihb => exact ⟨ihA h.1 hρ, iha h.2.1 hρ, ihb h.2.2 (lift hρ)⟩
  | pi A B ihA ihB => exact ⟨ihA h.1 hρ, ihB h.2 (lift hρ)⟩
  | lam A b ihA ihb => exact ⟨ihA h.1 hρ, ihb h.2 (lift hρ)⟩
  | app f a ihf iha => exact ⟨ihf h.1 hρ, iha h.2 hρ⟩
where
  lift {ρ : Nat → Nat} {n m : Nat} (hρ : ∀ i, ρ i < m → i < n) (i : Nat)
      (hi : liftRen ρ i < m + 1) : i < n + 1 := by
    cases i with
    | zero => exact Nat.succ_pos n
    | succ i => exact Nat.succ_lt_succ (hρ i (Nat.lt_of_succ_lt_succ hi))

/-- **A term has no variable that an instance of it has not**, if other variables are replaced by
something that is out of bounds. -/
theorem bound_of_subst {σ : Nat → Plain} {n m : Nat} {t : Plain} (h : (t.subst σ).Bound m)
    (hσ : ∀ i, (σ i).Bound m → i < n) : t.Bound n := by
  induction t generalizing σ n m with
  | var i => exact hσ i h
  | atom a => trivial
  | letIn A a b ihA iha ihb => exact ⟨ihA h.1 hσ, iha h.2.1 hσ, ihb h.2.2 (lift hσ)⟩
  | pi A B ihA ihB => exact ⟨ihA h.1 hσ, ihB h.2 (lift hσ)⟩
  | lam A b ihA ihb => exact ⟨ihA h.1 hσ, ihb h.2 (lift hσ)⟩
  | app f a ihf iha => exact ⟨ihf h.1 hσ, iha h.2 hσ⟩
where
  lift {σ : Nat → Plain} {n m : Nat} (hσ : ∀ i, (σ i).Bound m → i < n) (i : Nat)
      (hi : (liftSub σ i).Bound (m + 1)) : i < n + 1 := by
    cases i with
    | zero => exact Nat.succ_pos n
    | succ i =>
      exact Nat.succ_lt_succ (hσ i (bound_of_rename hi fun _ h => Nat.lt_of_succ_lt_succ h))

theorem Bound.of_inst {n : Nat} {b a : Plain} (h : (b.inst a).Bound n) : b.Bound (n + 1) := by
  refine bound_of_subst h fun i hi => ?_
  cases i with
  | zero => exact Nat.succ_pos n
  | succ i => exact Nat.succ_lt_succ hi

theorem Bound.subst_eq {n : Nat} {t : Plain} (h : t.Bound n) {σ τ : Nat → Plain}
    (hσ : ∀ i, i < n → σ i = τ i) : t.subst σ = t.subst τ := by
  induction t generalizing n σ τ with
  | var i => exact hσ i h
  | atom a => rfl
  | letIn A a b ihA iha ihb =>
    rw [subst, ihA h.1 hσ, iha h.2.1 hσ, ihb h.2.2 (lift hσ)]
    rfl
  | pi A B ihA ihB =>
    rw [subst, ihA h.1 hσ, ihB h.2 (lift hσ)]
    rfl
  | lam A b ihA ihb =>
    rw [subst, ihA h.1 hσ, ihb h.2 (lift hσ)]
    rfl
  | app f a ihf iha =>
    rw [subst, ihf h.1 hσ, iha h.2 hσ]
    rfl
where
  lift {n : Nat} {σ τ : Nat → Plain} (hσ : ∀ i, i < n → σ i = τ i) (i : Nat) (hi : i < n + 1) :
      liftSub σ i = liftSub τ i := by
    cases i with
    | zero => rfl
    | succ i => exact congrArg shift (hσ i (Nat.lt_of_succ_lt_succ hi))

theorem Bound.closed {t : Plain} (h : t.Bound 0) : t.Closed := fun _ =>
  (h.subst_eq fun i hi => (Nat.not_lt_zero i hi).elim).trans (subst_var t)

theorem bound_spine {n : Nat} {f : Plain} {as : List Plain} (hf : f.Bound n)
    (has : ∀ a ∈ as, a.Bound n) : (spine f as).Bound n := by
  induction as generalizing f with
  | nil => exact hf
  | cons a as ih =>
    rw [List.forall_mem_cons] at has
    exact ih ⟨hf, has.1⟩ has.2

end Plain

theorem Lookup.lt {Γ : List Plain} {i : Nat} {A : Plain} (h : Lookup Γ i A) : i < Γ.length := by
  induction h with
  | zero => exact Nat.succ_pos _
  | succ _ _ ih => exact Nat.succ_lt_succ ih

variable {Θ : Theory} {Γ : List Plain}

namespace HasType

theorem bound (hΘ : Θ.Sound) {t T : Plain} (h : HasType Θ Γ t T) : t.Bound Γ.length := by
  induction h with
  | var h => exact h.lt
  | atom _ => trivial
  | type _ => trivial
  | letIn _ _ _ ihA iha ihb => exact ⟨ihA, iha, ihb.of_inst⟩
  | pi _ _ ihA ihB => exact ⟨ihA, ihB⟩
  | lam _ _ ihA ihb => exact ⟨ihA, ihb⟩
  | app _ _ ihf iha => exact ⟨ihf, iha⟩
  | elim hF hcs _ _ hl _ _ _ iht ihM ihm =>
    refine ⟨bound_spine trivial (List.forall_mem_cons.2 ⟨ihM, fun m hm => ?_⟩), iht⟩
    obtain ⟨j, hj⟩ := List.getElem?_of_mem hm
    have hj' := hl ▸ (List.getElem?_eq_some_iff.1 hj).1
    obtain ⟨K, hK, _⟩ := (hΘ.constructors hF hcs _).1 (List.getElem_mem hj')
    exact ihm hj (List.getElem?_eq_getElem hj') hK
  | conv _ _ ih => exact ih

/-- **What is typed in the empty context has no variables.** -/
theorem closed (hΘ : Θ.Sound) {t T : Plain} (h : HasType Θ [] t T) : t.Closed := (h.bound hΘ).closed

end HasType

/-! ### Extensions -/

/-- A theory declares at least what another one does, in the same way. -/
structure Theory.Le (Θ Θ' : Theory) : Prop where
  constant : ∀ {c T}, Θ.constant c = some T → Θ'.constant c = some T
  definition : ∀ {c t}, Θ.definition c = some t → Θ'.definition c = some t
  family : ∀ {F D}, Θ.family F = some D → ∃ cs, Θ'.family F = some { D with constructors := cs } ∧
    ∀ ds, D.constructors = some ds → cs = some ds
  constructor : ∀ {c K}, Θ.constructor c = some K → Θ'.constructor c = some K

variable {Θ' : Theory}

namespace Theory.Le

variable (h : Θ.Le Θ')

include h

theorem branch {c : ConstructorId} {B : Branch} (hB : Θ.branch c = some B) :
    Θ'.branch c = some B := by
  simp only [Theory.branch, Option.bind_eq_bind, Option.bind_eq_some_iff] at hB
  obtain ⟨K, hK, D, hD, cs, hcs, i, hi, e⟩ := hB
  obtain ⟨cs', hD', hcs'⟩ := h.family hD
  obtain rfl := hcs' cs hcs
  rw [Theory.branch, h.constructor hK, Option.bind_eq_bind, Option.bind_some, hD',
    Option.bind_eq_bind, Option.bind_some, Option.bind_eq_bind, Option.bind_some, hi,
    Option.bind_eq_bind, Option.bind_some]
  exact e

theorem par {t u : Bare} (hr : Par Θ.rules t u) : Par Θ'.rules t u := by
  induction hr with
  | var i => exact .var i
  | atom a => exact .atom a
  | lam _ ih => exact .lam ih
  | app _ _ ihf iha => exact .app ihf iha
  | beta _ _ ihf iha => exact .beta ihf iha
  | eta _ ih => exact .eta ih
  | delta hc =>
    obtain ⟨t, ht, rfl⟩ := Option.map_eq_some_iff.1 hc
    exact .delta (congrArg (Option.map bare) (h.definition ht))
  | iota hB _ _ hl hm ihf iha => exact .iota (h.branch hB) ihf iha hl hm

theorem equal {A B : Plain} (e : Θ.Equal A B) : Θ'.Equal A B := by
  obtain ⟨s, hA, hB⟩ := e
  have hpars : Pars Θ.rules ≤ Pars Θ'.rules := Relation.ReflTransGen.mono fun _ _ => h.par
  exact ⟨s, hpars _ _ hA, hpars _ _ hB⟩

theorem typeOf {a : Atom} {T : Plain} (hT : Θ.typeOf a = some T) : Θ'.typeOf a = some T := by
  cases a <;> simp only [Theory.typeOf, Option.map_eq_some_iff, reduceCtorEq] at hT ⊢
  · exact h.constant hT
  · obtain ⟨D, hD, rfl⟩ := hT
    obtain ⟨cs, hD', _⟩ := h.family hD
    exact ⟨_, hD', rfl⟩
  · obtain ⟨K, hK, rfl⟩ := hT
    exact ⟨K, h.constructor hK, rfl⟩

end Theory.Le

/-- **What is typed in a theory is typed in an extension.** -/
theorem HasType.mono (h : Θ.Le Θ') (hΘ : Θ.Sound) {t T : Plain} (ht : HasType Θ Γ t T) :
    HasType Θ' Γ t T := by
  induction ht with
  | var hA => exact .var hA
  | atom hT => exact .atom (h.typeOf hT)
  | type n => exact .type n
  | letIn _ _ _ ihA iha ihb => exact .letIn ihA iha ihb
  | pi _ _ ihA ihB => exact .pi ihA ihB
  | lam _ _ ihA ihb => exact .lam ihA ihb
  | app _ _ ihf iha => exact .app ihf iha
  | @elim _ F D cs _ _ ms _ _ _ hF hcs hps his hms _ _ _ iht ihM ihm =>
    obtain ⟨cs', hF', hcs'⟩ := h.family hF
    refine .elim hF' (hcs' cs hcs) hps his hms iht ihM fun hm hc hK => ?_
    obtain ⟨K', hK', _⟩ := (hΘ.constructors hF hcs _).1 (List.mem_of_getElem? hc)
    obtain rfl := Option.some.inj ((h.constructor hK').symm.trans hK)
    exact ihm hm hc hK'
  | conv _ e ih => exact .conv ih (h.equal e)

theorem ConstructorShape.Valid.mono (h : Θ.Le Θ') (hΘ : Θ.Sound) {K : ConstructorShape}
    {D : FamilyShape} (hK : K.Valid Θ D) (cs : Option (List ConstructorId)) :
    K.Valid Θ' { D with constructors := cs } where
  parameters := hK.parameters
  target := hK.target
  type := by
    obtain ⟨n, hn⟩ := hK.type
    exact ⟨n, hn.mono h hΘ⟩
  recursive := by
    intro field hf
    obtain ⟨hl, i, A, hi, hA, e⟩ := hK.recursive hf
    exact ⟨hl, i, A, hi, hA, h.equal e⟩

/-! ### One more declaration -/

namespace Theory

/-- Declares a constant, and its definition if it has one. -/
def addConstant (Θ : Theory) (c : Name) (T : Plain) (d : Option Plain) (hT : T.Closed)
    (hd : ∀ {t}, d = some t → t.Closed) : Theory :=
  { Θ with
    constant := fun c' => if c' = c then some T else Θ.constant c'
    definition := fun c' => if c' = c then d else Θ.definition c'
    constant_closed := by
      intro c' U h
      split at h
      · exact Option.some.inj h ▸ hT
      · exact Θ.constant_closed h
    definition_closed := by
      intro c' t h
      split at h
      · exact hd h
      · exact Θ.definition_closed h }

/-- Declares a family, or replaces it. -/
def setFamily (Θ : Theory) (F : FamilyId) (D : FamilyShape) (hD : D.type.Closed) : Theory :=
  { Θ with
    family := fun F' => if F' = F then some D else Θ.family F'
    family_closed := by
      intro F' D' h
      split at h
      · exact Option.some.inj h ▸ hD
      · exact Θ.family_closed h }

/-- Declares a constructor. -/
def addConstructor (Θ : Theory) (c : ConstructorId) (K : ConstructorShape) (hK : K.type.Closed) :
    Theory :=
  { Θ with
    constructor := fun c' => if c' = c then some K else Θ.constructor c'
    constructor_closed := by
      intro c' K' h
      split at h
      · exact Option.some.inj h ▸ hK
      · exact Θ.constructor_closed h }

theorem le_addConstant {c : Name} {T : Plain} {d : Option Plain} (hT : T.Closed)
    (hd : ∀ {t}, d = some t → t.Closed) (hc : Θ.constant c = none) (hc' : Θ.definition c = none) :
    Θ.Le (Θ.addConstant c T d hT hd) where
  constant := by
    intro c' U h
    have hne : c' ≠ c := by
      rintro rfl
      cases hc.symm.trans h
    exact (if_neg hne).trans h
  definition := by
    intro c' t h
    have hne : c' ≠ c := by
      rintro rfl
      cases hc'.symm.trans h
    exact (if_neg hne).trans h
  family h := ⟨_, h, fun _ e => e⟩
  constructor h := h

theorem le_setFamily {F : FamilyId} {D : FamilyShape} (hD : D.type.Closed)
    (h : ∀ D', Θ.family F = some D' → ∃ cs, D = { D' with constructors := cs } ∧
      ∀ ds, D'.constructors = some ds → cs = some ds) : Θ.Le (Θ.setFamily F D hD) where
  constant h := h
  definition h := h
  constructor h := h
  family := by
    intro F' D' hD'
    by_cases hF : F' = F
    · subst hF
      obtain ⟨cs, rfl, hcs⟩ := h D' hD'
      exact ⟨cs, if_pos rfl, hcs⟩
    · exact ⟨_, (if_neg hF).trans hD', fun _ e => e⟩

theorem le_addConstructor {c : ConstructorId} {K : ConstructorShape} (hK : K.type.Closed)
    (hc : Θ.constructor c = none) : Θ.Le (Θ.addConstructor c K hK) where
  constant h := h
  definition h := h
  family h := ⟨_, h, fun _ e => e⟩
  constructor := by
    intro c' K' h
    have hne : c' ≠ c := by
      rintro rfl
      cases hc.symm.trans h
    exact (if_neg hne).trans h

end Theory

end Constructions
