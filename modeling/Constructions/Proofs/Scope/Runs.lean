/-
# Scope safety of the kernel

What declarations store is computed from accepted terms without variables, so it is in scope of
no level at all, and stays so when more is declared (`Signature.Reachable.wellScoped`).  With
that, the procedures of the kernel are safe for any term in any context of values in scope
(`Signature.Reachable.infer_wellScoped`).
-/

import Constructions.Proofs.Scope.Typing

namespace Constructions

variable {Θ Θ' : Theory} {S S' : Signature}

/-! ### What a larger signature keeps -/

/-- **An opened type is opened alike** when more is declared. -/
theorem Value.Opens.mono (hM : Θ.Models S) (hle : S.Le S') {level : Nat} {ty : Value}
    {T : Telescope} (h : ty.Opens S level T) (hty : ty.All S.declared) :
    ty.Opens S' level T ∧ T.body.All S.declared := by
  induction h with
  | stop level ty => exact ⟨.stop level ty, hty⟩
  | @pi level d body c T hb _ ih =>
    obtain ⟨N, hN⟩ := hb
    have hkept {m : Nat} (hm : N ≤ m) :=
      Closure.enter_kept hM hle hm hty.2 level body (hN N (Nat.le_refl N))
    obtain ⟨hT, hbody⟩ := ih (hkept (Nat.le_refl N)).2
    exact ⟨.pi ⟨N, fun m hm => (hkept hm).1⟩ hT, hbody⟩

theorem Constructor.Shaped.mono (hM : Θ.Models S) (hle : S.Le S') {K : Constructor}
    (h : K.Shaped S) (hK : K.type.All S.declared) : K.Shaped S' := by
  obtain ⟨P, T, hP, hT, hrest⟩ := h
  obtain ⟨hP', hbody⟩ := hP.mono hM hle hK
  exact ⟨P, T, hP', (hT.mono hM hle hbody).1, hrest⟩

namespace Signature

/-! ### What a declaration adds -/

/-- **A constant is old, or it was checked.** -/
theorem Step.global_cases (e : Step S S') {c : Name} {g : Global} (hg : S'.global? c = some g) :
    S.global? c = some g ∨ ∃ n type, S.admitType n type = .ok g.type ∧
      ∀ v, g.definition = some v → ∃ value, Context.check n (.empty S) value g.type = .ok () ∧
        value.eval S n [] = .ok v := by
  cases e with
  | postulate n name type e =>
    obtain ⟨A, _, hA, rfl⟩ := postulate_eq_ok e
    rw [global?_addGlobal] at hg
    split at hg
    · cases hg
      exact .inr ⟨n, type, hA, by rintro v ⟨⟩⟩
    · exact .inl hg
  | define n name type value e =>
    obtain ⟨A, a, _, hA, hc, ha, rfl⟩ := define_eq_ok e
    rw [global?_addGlobal] at hg
    split at hg
    · cases hg
      refine .inr ⟨n, type, hA, ?_⟩
      rintro v ⟨⟩
      exact ⟨value, hc, ha⟩
    · exact .inl hg
  | openFamily n name p type e =>
    obtain ⟨A, T, l, _, _, _, _, _, rfl⟩ := openFamily_eq_ok e
    exact .inl hg
  | declareConstructor n family name type e =>
    obtain ⟨fid, F, A, P, E, T, r, _, _, rfl⟩ := declareConstructor_eq_ok e
    exact .inl hg
  | closeFamily family e =>
    obtain ⟨fid, F, _, _, _, rfl⟩ := closeFamily_eq_ok e
    exact .inl hg

/-- **A family is old, up to its state, or it was opened:** its type is a
function type into a universe, with as many domains as the family has arguments. -/
theorem Step.family_cases (hreg : S.Registered) (e : Step S S') {id : FamilyId} {F' : Family}
    (hF' : S'.family? id = some F') :
    (∃ F, S.family? id = some F ∧ F'.type = F.type) ∨
      ∃ n type T l, S.admitType n type = .ok F'.type ∧ F'.type.telescope S n 0 none = .ok T ∧
        T.length = F'.arity ∧ T.body = .type l := by
  cases e with
  | postulate n name type e =>
    obtain ⟨A, _, _, rfl⟩ := postulate_eq_ok e
    exact .inl ⟨F', hF', rfl⟩
  | define n name type value e =>
    obtain ⟨A, a, _, _, _, _, rfl⟩ := define_eq_ok e
    exact .inl ⟨F', hF', rfl⟩
  | openFamily n name p type e =>
    obtain ⟨A, T, l, _, hA, hT, hp, hl, rfl⟩ := openFamily_eq_ok e
    rw [family?_addFamily] at hF'
    split at hF'
    · cases hF'
      exact .inr ⟨n, type, T, l, hA, hT, (Nat.add_sub_cancel' hp).symm, hl⟩
    · exact .inl ⟨F', hF', rfl⟩
  | declareConstructor n family name type e =>
    obtain ⟨fid, F, A, P, E, T, r, hF, _, rfl⟩ := declareConstructor_eq_ok e
    obtain rfl := hreg.family_id hF
    rw [family?_addConstructor name hF] at hF'
    split at hF'
    · next hid =>
      cases hF'
      exact .inl ⟨F, hid ▸ hF, rfl⟩
    · exact .inl ⟨F', hF', rfl⟩
  | closeFamily family e =>
    obtain ⟨fid, F, hF, _, _, rfl⟩ := closeFamily_eq_ok e
    obtain rfl := hreg.family_id hF
    rw [family?_finalize hF] at hF'
    split at hF'
    · next hid =>
      cases hF'
      exact .inl ⟨F, hid ▸ hF, rfl⟩
    · exact .inl ⟨F', hF', rfl⟩

/-- **A constructor is old, or it passed the checks** for a family that is declared. -/
theorem Step.constructor_cases (hreg : S.Registered) (e : Step S S') {id : ConstructorId}
    {K : Constructor} (hK : S'.constructor? id = some K) :
    S.constructor? id = some K ∨ ∃ n F name type A P E T r, S.family? F.id = some F ∧
      S.ConstructorChecks n F name type A P E T r ∧
      K = ⟨id, name, F.id, F.parameterCount, T.length, r, A⟩ := by
  cases e with
  | postulate n name type e =>
    obtain ⟨A, _, _, rfl⟩ := postulate_eq_ok e
    exact .inl hK
  | define n name type value e =>
    obtain ⟨A, a, _, _, _, _, rfl⟩ := define_eq_ok e
    exact .inl hK
  | openFamily n name p type e =>
    obtain ⟨A, T, l, _, _, _, _, _, rfl⟩ := openFamily_eq_ok e
    exact .inl hK
  | declareConstructor n family name type e =>
    obtain ⟨fid, F, A, P, E, T, r, hF, hc, rfl⟩ := declareConstructor_eq_ok e
    obtain rfl := hreg.family_id hF
    rw [constructor?_addConstructor] at hK
    split at hK
    · next hid =>
      cases hK
      exact .inr ⟨n, F, name, type, A, P, E, T, r, hF, hc, by rw [hid]⟩
    · exact .inl hK
  | closeFamily family e =>
    obtain ⟨fid, F, _, _, _, rfl⟩ := closeFamily_eq_ok e
    exact .inl hK

namespace ConstructorChecks

variable {n : Nat} {F : Family} {name : Name} {type : Term} {A : Value} {P E T : Telescope}
  {r : List Nat}

/-- The domain of a recursive field is the family itself. -/
theorem recursive_domain (hc : S.ConstructorChecks n F name type A P E T r) {q : Nat}
    (hq : q ∈ r) :
    F.parameterCount ≤ q ∧ ∃ d, T.domains[q - F.parameterCount]? = some d ∧
      S.isUniform n F P.parameters q d = .ok true := by
  obtain ⟨hbounds, hfields⟩ := recursivePositions_eq_ok hc.recursive
  obtain ⟨hle, hlt⟩ := hbounds q hq
  obtain ⟨i, rfl⟩ := Nat.exists_eq_add_of_le hle
  have hd := List.getElem?_eq_getElem (show i < T.domains.length by omega)
  obtain ⟨_, hu⟩ := (hfields hd).resolve_right fun hr => hr.1 hq
  refine ⟨hle, _, ?_, hu⟩
  rw [Nat.add_sub_cancel_left]
  exact hd

/-- **The checks of a constructor give it its shape.** -/
theorem shaped (hc : S.ConstructorChecks n F name type A P E T r) (id : ConstructorId) :
    Constructor.Shaped S ⟨id, name, F.id, F.parameterCount, T.length, r, A⟩ := by
  have hcovers {level : Nat} {v : Value}
      (hu : S.isUniform n F P.parameters level v = .ok true) : v.Covers F.id F.parameterCount := by
    obtain ⟨as, rfl, hlength, _⟩ := isUniform_eq_true hu
    exact ⟨as, rfl, hlength ▸ Nat.le_add_right _ _⟩
  refine ⟨P, T, (Value.telescope_opens hc.parameters).1, (Value.telescope_opens hc.fields).1,
    hc.length, rfl, hcovers hc.target, fun q hq => ?_⟩
  obtain ⟨_, d, hd, hu⟩ := hc.recursive_domain hq
  exact ⟨d, hd, hcovers hu⟩

end ConstructorChecks

namespace WellScoped

variable {n : Nat} {type value : Term} {A v : Value}

/-- An accepted term without variables is computed to a value without variables. -/
theorem eval_closed (hS : S.WellScoped) (hM : Θ.Models S) {t : Term} {T : Plain}
    (ht : HasType Θ [] (t.under []) T) (hs : t.Scoped 0) (hv : t.eval S n [] = .ok v) :
    v.WellScoped S .none := by
  have henv : Value.AllWellScoped S .none [] := trivial
  exact (Term.eval_post hS henv (ht.declared hM) hs n).of_ok hv

theorem admitType (hS : S.WellScoped) (hM : Θ.Models S) (h : S.admitType n type = .ok A) :
    A.WellScoped S .none := by
  obtain ⟨l, hl, hA⟩ := bind_eq_ok.1 h
  obtain ⟨_, ht⟩ := (Context.checkType_post (.empty hM) n type).of_ok hl
  have hs := ((Context.stays hS n).checkType Context.WellScoped.empty.within
    (ht.declared hM)).of_ok hl
  exact hS.eval_closed hM ht hs (liftM_eq_ok.1 hA)

/-- **More may be stored** if it has no variables and if new constructors have their shape. -/
theorem grow (hS : S.WellScoped) (hM : Θ.Models S) (hM' : Θ'.Models S') (hle : S.Le S')
    (hreg : S'.Registered)
    (hglobal : ∀ {c g}, S'.global? c = some g → S.global? c = some g ∨
      g.type.WellScoped S .none ∧ ∀ v, g.definition = some v → v.WellScoped S .none)
    (hfamily : ∀ {id F'}, S'.family? id = some F' →
      (∃ F, S.family? id = some F ∧ F'.type = F.type) ∨ F'.type.WellScoped S .none)
    (hconstructor : ∀ {id K}, S'.constructor? id = some K → S.constructor? id = some K ∨
      K.type.WellScoped S .none ∧ K.Shaped S ∧ K.type.All S.declared) : S'.WellScoped where
  registered := hreg
  waiting := waiting_closed hM'
  type hg := by
    obtain hg | hg := hglobal hg
    · exact (hS.type hg).mono hle fun _ hl => hl
    · exact hg.1.mono hle fun _ hl => hl
  definition {c v} hv := by
    obtain ⟨g, hg, hgv⟩ := Option.bind_eq_some_iff.1 hv
    obtain hg | hg := hglobal hg
    · have hv : S.definition? c = some v := Option.bind_eq_some_iff.2 ⟨g, hg, hgv⟩
      exact (hS.definition hv).mono hle fun _ hl => hl
    · exact (hg.2 v hgv).mono hle fun _ hl => hl
  family hF := by
    obtain ⟨F, hF, htype⟩ | hF := hfamily hF
    · exact htype ▸ (hS.family hF).mono hle fun _ hl => hl
    · exact hF.mono hle fun _ hl => hl
  constructor hK := by
    obtain hK | ⟨htype, _⟩ := hconstructor hK
    · exact (hS.constructor hK).mono hle fun _ hl => hl
    · exact htype.mono hle fun _ hl => hl
  closed hK := (hM'.grounded.constructor hK).mono S'.leaves_le_waiting
  shaped hK := by
    obtain hK | ⟨_, hshaped, hall⟩ := hconstructor hK
    · exact (hS.shaped hK).mono hM hle ((hM.grounded.constructor hK).mono S.leaves_le_declared)
    · exact hshaped.mono hM hle hall

/-- What was checked to define a constant is in scope. -/
theorem define (hS : S.WellScoped) (hM : Θ.Models S) (hA : S.admitType n type = .ok A)
    (hc : Context.check n (.empty S) value A = .ok ()) (hv : value.eval S n [] = .ok v) :
    v.WellScoped S .none := by
  obtain ⟨hall, u, hu⟩ := admitType_eq_ok hM hA
  have hty : A.IsType Θ [] S.valueLeaves noLevels := ⟨hall.mono S.leaves_le, u, hu⟩
  obtain ⟨_, ht⟩ := (Context.check_post (.empty hM) n value hty).of_ok hc
  have hs := ((Context.stays hS n).check Context.WellScoped.empty.within (ht.declared hM)
    ((hS.admitType hM hA).le fun _ hl => hl.elim)).of_ok hc
  exact hS.eval_closed hM ht hs hv

/-- **A declaration stores what is in scope.** -/
theorem step (hS : S.WellScoped) (hΘ : S.Coherent Θ) (hreg : S'.Registered) (e : Step S S') :
    S'.WellScoped := by
  have hM := hΘ.models
  obtain ⟨Θ', _, hΘ'⟩ := e.coherent hΘ
  refine hS.grow hM hΘ'.models (e.le hΘ) hreg (fun hg => ?_) (fun hF => ?_) fun {id K} hK => ?_
  · refine (e.global_cases hg).imp_right ?_
    rintro ⟨n, type, hA, hdef⟩
    refine ⟨hS.admitType hM hA, fun v hv => ?_⟩
    obtain ⟨value, hc, ha⟩ := hdef v hv
    exact hS.define hM hA hc ha
  · refine (e.family_cases hS.registered hF).imp_right ?_
    rintro ⟨n, type, T, l, hA, _⟩
    exact hS.admitType hM hA
  · refine (e.constructor_cases hS.registered hK).imp_right ?_
    rintro ⟨n, F, name, type, A, P, E, T, r, _, hc, rfl⟩
    exact ⟨hS.admitType hM hc.type, hc.shaped id,
      (admitType_eq_ok hM hc.type).1.mono S.leaves_le_declared⟩

end WellScoped

/-- **What is stored is in scope,** after any declarations. -/
theorem Reachable.wellScoped (h : S.Reachable) : S.WellScoped := by
  induction h with
  | refl =>
    have hreg := Reachable.registered (S := .empty) .refl
    exact ⟨hreg, waiting_closed coherent_empty.models, by rintro c g ⟨⟩, by rintro c v ⟨⟩,
      by rintro id F ⟨⟩, by rintro id K ⟨⟩, by rintro id K ⟨⟩, by rintro id K ⟨⟩⟩
  | tail hS e ih =>
    obtain ⟨Θ, hΘ⟩ := Reachable.coherent hS
    exact ih.step hΘ (Reachable.registered (.tail hS e)) e

/-- **Scope safety of the kernel.**  Inference and checking, of any term whose families and
constructors exist, in any context of values in scope, never look up what is not there and meet
no escaped variable.  If a term is accepted, all its variables are bound, and the type that was
found for it has variables of the context only.  If it is refused, the terms that the error shows
were read back in the context of a subterm, and are well scoped in that context. -/
theorem Reachable.infer_wellScoped (hS : S.Reachable) {Γ : Context} (hΓ : Γ.WellScoped S)
    {t : Term} (ht : t.Declared S) (n : Nat) :
    Post (Context.infer n Γ t) (fun v => t.Scoped Γ.level ∧ v.WellScoped S (.below Γ.level))
      (Context.Reports S (Γ.Visits t)) ∧
    Post (Context.checkType n Γ t) (fun _ => t.Scoped Γ.level)
      (Context.Reports S (Γ.Visits t)) ∧
    ∀ type : Value, type.WellScoped S (.below Γ.level) →
      Post (Context.check n Γ t type) (fun _ => t.Scoped Γ.level)
        (Context.Reports S (Γ.Visits t)) := by
  have hstays := Context.stays hS.wellScoped n
  have h := hΓ.within
  exact ⟨hstays.infer h ht, hstays.checkType h ht, fun _ htype => hstays.check h ht htype⟩

/-- A number, and a local definition that stands for it. -/
def twoNumbers : Context :=
  ((Context.empty naturals).bind (some "n") (.former ⟨0⟩ [])).define (some "m") (.former ⟨0⟩ [])
    (.var (some "n") 0)

/-- A function below a local definition, whose body is a variable. -/
def functionBelow (i : Nat) : Term :=
  .letIn (some "k") (.former ⟨0⟩ []) (.con ⟨1⟩ [.var (some "m") 0])
    (.lam (some "l") (.former ⟨0⟩ []) (.var none i))

theorem functionBelow_wellScoped :
    naturals.Reachable ∧ twoNumbers.WellScoped naturals ∧
    (∃ v, Context.infer 20 twoNumbers (functionBelow 3) = .ok v ∧
      (functionBelow 3).Scoped 2 ∧ v.WellScoped naturals (.below 2)) ∧
    Context.infer 20 twoNumbers (functionBelow 4) =
      .error (.error (.type (.unboundVariable 4))) ∧
    ∃ q, Context.check 20 twoNumbers (functionBelow 3) (.type 0) =
        .error (.error (.type (.mismatch (.type 0) q))) ∧
      ∃ Δ, twoNumbers.Visits (functionBelow 3) Δ ∧ q.Scoped Δ.level := by
  have hnat : (Value.former ⟨0⟩ []).WellScoped naturals (.below 0) := ⟨⟨_, rfl⟩, trivial⟩
  have hΓ : twoNumbers.WellScoped naturals := by
    refine .define _ (.bind _ .empty hnat) (hnat.le fun _ hl => Nat.lt_succ_of_lt hl) ?_
    exact Nat.lt_succ_self 0
  have ht : (functionBelow 3).Declared naturals :=
    ⟨⟨⟨_, rfl⟩, trivial⟩, ⟨⟨_, rfl⟩, trivial, trivial⟩, ⟨⟨_, rfl⟩, trivial⟩, trivial⟩
  obtain ⟨hinfer, _, hcheck⟩ := reachable_naturals.infer_wellScoped hΓ ht 20
  refine ⟨reachable_naturals, hΓ, ⟨_, rfl, hinfer⟩, rfl, _, rfl, ?_⟩
  obtain ⟨_, Δ, hΔ, hterms⟩ := hcheck (.type 0) trivial
  obtain ⟨_, _, _, _, hq⟩ := hterms _ (List.mem_cons_of_mem _ List.mem_cons_self)
  exact ⟨Δ, hΔ, hq⟩

end Signature

end Constructions
