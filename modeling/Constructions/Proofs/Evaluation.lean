/-
# Evaluation computes

A theory describes a signature if it has the same constants with the same definitions,
and families and constructors of the same shapes.  Then whatever evaluation does is a
sequence of reductions of the plain terms: a term with the values of its environment in
it reduces to what its value stands for (`Term.eval_reds`), and so do applications and
eliminations of values.
-/

import Constructions.Proofs.Outcome
import Constructions.Proofs.Reading
import Constructions.Proofs.Theory.Preservation

namespace Constructions

open Plain

/-- The shape of a declared family. -/
structure FamilyShape.Describes (Θ : Theory) (id : FamilyId) (D : FamilyShape) (F : Family) :
    Prop where
  id : F.id = id
  parameters : D.parameters.length = F.parameterCount
  indices : D.indices.length = F.indexCount
  constructors : D.constructors = F.dispatch?.map (·.constructors)
  type : ∀ ℓ, Θ.Equal (F.type.plain ℓ) D.type
  valid : ∀ ℓ, ∃ n, HasType Θ [] (F.type.plain ℓ) (.atom (.type n))

/-- The constructors of a shape are those of the dispatch table. -/
theorem FamilyShape.Describes.exists_table {Θ : Theory} {id : FamilyId} {D : FamilyShape}
    {F : Family} {cs : List ConstructorId} (h : D.Describes Θ id F)
    (hcs : D.constructors = some cs) :
    ∃ table : Dispatch, F.dispatch? = some table ∧ table.constructors = cs :=
  Option.map_eq_some_iff.1 (h.constructors.symm.trans hcs)

/-- The shape of a declared constructor. -/
structure ConstructorShape.Describes (Θ : Theory) (id : ConstructorId) (D : ConstructorShape)
    (K : Constructor) : Prop where
  id : K.id = id
  family : D.family = K.family
  parameters : D.parameters.length = K.parameterCount
  fields : D.fields.length = K.fieldCount
  recursive : D.recursive.map (·.1) = K.recursiveFields
  type : ∀ ℓ, Θ.Equal (K.type.plain ℓ) D.type
  valid : ∀ ℓ, ∃ n, HasType Θ [] (K.type.plain ℓ) (.atom (.type n))

/-- A theory has what a signature declares.  What is declared depends on no variable, so it
is read alike for all level maps. -/
structure Theory.Describes (Θ : Theory) (S : Signature) : Prop where
  constant : ∀ c ℓ, Θ.constant c = (S.global? c).map (·.type.plain ℓ)
  definition : ∀ c ℓ, Θ.definition c = ((S.global? c).bind (·.definition)).map (·.plain ℓ)
  family : ∀ F, Option.Rel (FamilyShape.Describes Θ F) (Θ.family F) (S.family? F)
  constructor : ∀ c, Option.Rel (ConstructorShape.Describes Θ c) (Θ.constructor c)
    (S.constructor? c)

namespace Theory.Describes

variable {Θ : Theory} {S : Signature} (hS : Θ.Describes S)

include hS

theorem family_of_eq_some {id : FamilyId} {F : Family} (h : S.family? id = some F) :
    ∃ D, Θ.family id = some D ∧ D.Describes Θ id F := by
  have hr := hS.family id
  rw [h] at hr
  generalize hD : Θ.family id = o at hr
  cases hr with
  | some hr => exact ⟨_, rfl, hr⟩

theorem constructor_of_eq_some {id : ConstructorId} {K : Constructor}
    (h : S.constructor? id = some K) :
    ∃ D, Θ.constructor id = some D ∧ D.Describes Θ id K := by
  have hr := hS.constructor id
  rw [h] at hr
  generalize hD : Θ.constructor id = o at hr
  cases hr with
  | some hr => exact ⟨_, rfl, hr⟩

theorem family?_of_eq_some {id : FamilyId} {D : FamilyShape} (h : Θ.family id = some D) :
    ∃ F, S.family? id = some F ∧ D.Describes Θ id F := by
  have hr := hS.family id
  rw [h] at hr
  generalize hF : S.family? id = o at hr
  cases hr with
  | some hr => exact ⟨_, rfl, hr⟩

theorem constructor?_of_eq_some {id : ConstructorId} {D : ConstructorShape}
    (h : Θ.constructor id = some D) :
    ∃ K, S.constructor? id = some K ∧ D.Describes Θ id K := by
  have hr := hS.constructor id
  rw [h] at hr
  generalize hK : S.constructor? id = o at hr
  cases hr with
  | some hr => exact ⟨_, rfl, hr⟩

/-- **A constant reduces to what it computes to.** -/
theorem unfold_reds (c : Name) (ℓ : Nat → Plain) :
    Reds Θ (.atom (.const c)) ((S.unfold c).plain ℓ) := by
  have hd := hS.definition c ℓ
  rw [Signature.unfold]
  split
  · next v hv =>
    rw [hv] at hd
    exact .single (.delta hd)
  · exact .refl

/-- **The theory eliminates constructions as the signature does.** -/
theorem branch {id : ConstructorId} {K : Constructor} {F : Family} {table : Dispatch} {i : Nat}
    (hK : S.constructor? id = some K) (hF : S.family? K.family = some F)
    (htable : F.dispatch? = some table) (hi : table.constructors.idxOf? id = some i) :
    Θ.branch id = some ⟨K.arity, K.parameterCount, K.recursiveFields, i⟩ := by
  obtain ⟨D, hD, dK⟩ := hS.constructor_of_eq_some hK
  obtain ⟨E, hE, dF⟩ := hS.family_of_eq_some hF
  rw [← dK.family] at hE
  have hcs : E.constructors = some table.constructors := by
    rw [dF.constructors, htable, Option.map_some]
  rw [Theory.branch, hD, Option.bind_eq_bind, Option.bind_some, hE, Option.bind_eq_bind,
    Option.bind_some, hcs, Option.bind_eq_bind, Option.bind_some, hi, Option.bind_eq_bind,
    Option.bind_some, dK.recursive, ConstructorShape.arity, dK.parameters, dK.fields]
  rfl

end Theory.Describes

variable {Θ : Theory} {S : Signature}

theorem Reds.inst_right (b : Plain) {a a' : Plain} (h : Reds Θ a a') :
    Reds Θ (b.inst a) (b.inst a') := by
  refine Reds.subst_right b fun i => ?_
  cases i with
  | zero => exact h
  | succ i => exact .refl

/-- Entering a local definition: the body with the argument in it. -/
theorem plainIn_cons (ℓ : Nat → Plain) (env : Env) (a : Value) (b : Term) :
    b.plainIn ℓ (a :: env) =
      (b.plain.subst (liftSub (ofList (Value.plains ℓ env)))).inst (a.plain ℓ) :=
  (inst_ofList _ _ _).symm

theorem Term.plains_subst (σ : Nat → Plain) (ts : List Term) :
    (Term.plains ts).map (Plain.subst σ) = ts.map fun t => t.plain.subst σ := by
  rw [plains_eq_map, List.map_map]
  rfl

theorem Value.applyAll_reds {n : Nat}
    (ih : ∀ {f a v : Value}, f.apply S n a = .ok v →
      ∀ ℓ, Reds Θ (.app (f.plain ℓ) (a.plain ℓ)) (v.plain ℓ))
    {as : List Value} {f v : Value} (h : f.applyAll S n as = .ok v) (ℓ : Nat → Plain) :
    Reds Θ (spine (f.plain ℓ) (Value.plains ℓ as)) (v.plain ℓ) := by
  induction as generalizing f with
  | nil => exact Except.ok.inj h ▸ .refl
  | cons a as ihas =>
    obtain ⟨g, hg, h⟩ := bind_eq_ok.1 h
    exact (Reds.spine (ih hg ℓ) (Reds.refls _)).trans (ihas h)

/-- What an elimination computes to reduces to its method applied to the fields and to the
results for the recursive fields. -/
theorem Branch.plainContract_reds (B : Branch) {m M : Value} {ms as rs : List Value}
    {ℓ : Nat → Plain} (h : List.Forall₂ (fun i r => ∃ a, as[i]? = some a ∧
      Reds Θ (Plain.elim (M.plain ℓ) (Value.plains ℓ ms) (a.plain ℓ)) (r.plain ℓ))
      B.recursiveFields rs) :
    Reds Θ (B.plainContract (m.plain ℓ) (M.plain ℓ) (Value.plains ℓ ms) (Value.plains ℓ as))
      (spine (m.plain ℓ) (Value.plains ℓ (as.drop B.parameterCount ++ rs))) := by
  rw [plainContract, Value.plains_append, Value.plains_drop]
  refine Reds.spine .refl (List.rel_append (Reds.refls _) ?_)
  rw [List.forall₂_map_left_iff, Value.plains_eq_map ℓ rs, List.forall₂_map_right_iff]
  refine h.imp ?_
  rintro i r ⟨a, ha, hr⟩
  have ha' : (Value.plains ℓ as).getD i (.atom .hole) = a.plain ℓ :=
    ofList_eq (Value.getElem?_plains ha)
  rwa [ha']

/-- **Evaluation, application and elimination reduce.** -/
theorem eval_apply_eliminate_reds (hS : Θ.Describes S) (n : Nat) :
    (∀ {env : Env} {t : Term} {v : Value}, t.eval S n env = .ok v →
      ∀ ℓ, Reds Θ (t.plainIn ℓ env) (v.plain ℓ)) ∧
    (∀ {f a v : Value}, f.apply S n a = .ok v →
      ∀ ℓ, Reds Θ (.app (f.plain ℓ) (a.plain ℓ)) (v.plain ℓ)) ∧
    (∀ {M t v : Value} {ms : List Value}, Value.eliminate S n M ms t = .ok v →
      ∀ ℓ, Reds Θ (Plain.elim (M.plain ℓ) (Value.plains ℓ ms) (t.plain ℓ)) (v.plain ℓ)) := by
  induction n with
  | zero => exact ⟨fun h => (nomatch h), fun h => (nomatch h), fun h => (nomatch h)⟩
  | succ n ih =>
    obtain ⟨ihe, iha, ihm⟩ := ih
    have ihes {env : Env} {ts : List Term} {vs : List Value}
        (h : ts.mapM (fun t => t.eval S n env) = .ok vs) (ℓ : Nat → Plain) :
        List.Forall₂ (Reds Θ) ((Term.plains ts).map (subst (ofList (Value.plains ℓ env))))
          (Value.plains ℓ vs) := by
      rw [Term.plains_subst, Value.plains_eq_map ℓ vs, List.forall₂_map_left_iff,
        List.forall₂_map_right_iff]
      exact (mapM_eq_ok.1 h).imp fun t v h => ihe h ℓ
    refine ⟨?_, ?_, ?_⟩
    · intro env t v h ℓ
      cases t with
      | var label i =>
        have hv := orDangling_eq_ok.1 h
        rw [Term.plainIn, Term.plain, subst, ofList_eq (Value.getElem?_plains hv)]
      | const c =>
        cases h
        exact hS.unfold_reds c ℓ
      | letIn label A a b =>
        obtain ⟨w, hw, h⟩ := bind_eq_ok.1 h
        refine .head (.zeta (.refl _) (.refl _)) (.trans (Reds.inst_right _ (ihe hw ℓ)) ?_)
        rw [← plainIn_cons]
        exact ihe h ℓ
      | type l =>
        cases h
        exact .refl
      | pi label A B =>
        obtain ⟨d, hd, h⟩ := bind_eq_ok.1 h
        cases h
        exact .pi (ihe hd ℓ) .refl
      | lam label A b =>
        obtain ⟨d, hd, h⟩ := bind_eq_ok.1 h
        cases h
        exact .lam (ihe hd ℓ) .refl
      | app f a =>
        obtain ⟨g, hg, h⟩ := bind_eq_ok.1 h
        obtain ⟨w, hw, h⟩ := bind_eq_ok.1 h
        exact .trans (Reds.app (ihe hg ℓ) (ihe hw ℓ)) (iha h ℓ)
      | former F as =>
        obtain ⟨vs, hvs, h⟩ := bind_eq_ok.1 h
        cases h
        rw [Term.plainIn, Term.plain, subst_spine]
        exact .spine .refl (ihes hvs ℓ)
      | con c as =>
        obtain ⟨vs, hvs, h⟩ := bind_eq_ok.1 h
        cases h
        rw [Term.plainIn, Term.plain, subst_spine]
        exact .spine .refl (ihes hvs ℓ)
      | elim t M ms =>
        obtain ⟨w, hw, h⟩ := bind_eq_ok.1 h
        obtain ⟨m, hm, h⟩ := bind_eq_ok.1 h
        obtain ⟨ns, hns, h⟩ := bind_eq_ok.1 h
        rw [mapError_eq_ok] at h
        rw [Term.plainIn, Term.plain, Plain.elim, subst, subst_elimHead]
        exact .trans (Reds.elim (ihe hm ℓ) (ihes hns ℓ) (ihe hw ℓ)) (ihm h ℓ)
    · intro f a v h ℓ
      cases f with
      | neutral m =>
        cases h
        exact .refl
      | type l => cases h
      | pi d c => cases h
      | lam d c =>
        obtain ⟨env, label, body⟩ := c
        refine .head (.beta (.refl _) (.refl _)) ?_
        rw [Closure.plain, ← plainIn_cons]
        exact ihe h ℓ
      | former F as =>
        cases h
        rw [Value.plain, Value.plain, Value.plains_append, ← spine_concat]
        exact .refl
      | con c as =>
        cases h
        rw [Value.plain, Value.plain, Value.plains_append, ← spine_concat]
        exact .refl
    · intro M t v ms h ℓ
      cases t with
      | neutral m =>
        cases h
        exact .refl
      | con c as =>
        obtain ⟨K, F, cs, m, rs, hK, hl, hF, hcs, hm, hrs, h⟩ := eliminate_con_eq_ok h
        obtain ⟨i, hi, hm⟩ := Dispatch.select?_eq_some hm
        refine .head (.iota (hS.branch hK hF hcs hi) (.refl _) (.refl _) (by simpa using hl)
          (Value.getElem?_plains hm)) (.trans ?_ (Value.applyAll_reds iha h ℓ))
        refine Branch.plainContract_reds _ (hrs.imp ?_)
        rintro i r ⟨a, ha, hr⟩
        exact ⟨a, ha, ihm hr ℓ⟩
      | type l => cases h
      | pi d c => cases h
      | lam d c => cases h
      | former F as => cases h

section

variable (hS : Θ.Describes S) {n : Nat}

include hS

theorem Term.eval_reds {env : Env} {t : Term} {v : Value} (h : t.eval S n env = .ok v)
    (ℓ : Nat → Plain) : Reds Θ (t.plainIn ℓ env) (v.plain ℓ) :=
  (eval_apply_eliminate_reds hS n).1 h ℓ

theorem Value.apply_reds {f a v : Value} (h : f.apply S n a = .ok v) (ℓ : Nat → Plain) :
    Reds Θ (.app (f.plain ℓ) (a.plain ℓ)) (v.plain ℓ) :=
  (eval_apply_eliminate_reds hS n).2.1 h ℓ

theorem Value.eliminate_reds {M t v : Value} {ms : List Value}
    (h : Value.eliminate S n M ms t = .ok v) (ℓ : Nat → Plain) :
    Reds Θ (Plain.elim (M.plain ℓ) (Value.plains ℓ ms) (t.plain ℓ)) (v.plain ℓ) :=
  (eval_apply_eliminate_reds hS n).2.2 h ℓ

/-- **Instantiating a closure reduces its body with the argument in it.** -/
theorem Closure.instantiate_reds {c : Closure} {a v : Value} (h : c.instantiate S n a = .ok v)
    (ℓ : Nat → Plain) : Reds Θ ((c.plain ℓ).inst (a.plain ℓ)) (v.plain ℓ) := by
  obtain ⟨env, label, body⟩ := c
  rw [Closure.plain, ← plainIn_cons]
  exact Term.eval_reds hS h ℓ

end

end Constructions
