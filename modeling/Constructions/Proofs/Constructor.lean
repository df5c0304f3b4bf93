/-
# The shape of a checked constructor

The checks that a constructor has to pass give it a shape that fits its family: its first
binders are the parameters of the family, a field whose position is recorded has the family
at these parameters as its type, and so has the target.

| check | part of the shape |
| --- | --- |
| `convertDomains` on the parameters | `ConstructorShape.Valid.parameters` |
| `isUniform` on a field | `ConstructorShape.Valid.recursive` |
| `isUniform` on the target | `ConstructorShape.Valid.type` |
-/

import Constructions.Proofs.Registry
import Constructions.Proofs.Typing

namespace Constructions

open Plain

variable {Θ : Theory} {S : Signature} {L : Leaves} {ℓ : Nat → Plain} {level : Nat}
  {Γ : List Plain}

theorem Plain.vars_add (p k : Nat) : vars (p + k) = (vars p).map (rename (· + k)) ++ vars k := by
  induction p with
  | zero => rw [Nat.zero_add]; rfl
  | succ p ih => rw [Nat.add_right_comm, vars_succ, vars_succ, ih]; rfl

/-- **What is stored is read alike for all level maps.** -/
theorem Value.plain_eq_noLevels {v : Value} (h : v.All S.leaves) (ℓ : Nat → Plain) :
    v.plain ℓ = v.plain noLevels := v.plain_congr (L := S.leaves) (fun _ hl => hl.elim) h

namespace Signature

/-- **What is admitted as a type is one.** -/
theorem admitType_eq_ok (h : Θ.Models S) {n : Nat} {type : Term} {A : Value}
    (e : S.admitType n type = .ok A) :
    A.All S.leaves ∧ ∃ u, HasType Θ [] (A.plain noLevels) (.atom (.type u)) := by
  obtain ⟨l, hl, e⟩ := bind_eq_ok.1 e
  have e := liftM_eq_ok.1 e
  obtain ⟨hall, ht⟩ := (Context.checkType_post (.empty h) n type).of_ok hl
  obtain ⟨hv, hA⟩ := h.eval_closed hall ht e
  exact ⟨hv, l.toNat, hA⟩

/-- **A type that is uniform is the family at the parameters.** -/
theorem isUniform_equal (hΘ : Θ.Sound) (hS : Θ.Describes S) (hs : Scope Θ S L level ℓ) {n : Nat}
    {F : Family} {v : Value} {ps : List Value} (hv : v.IsType Θ Γ L ℓ) (hps : Value.Alls L ps)
    {U : Plain} (hpt : HasType Θ Γ (spine (.atom (.former F.id)) (Value.plains ℓ ps)) U)
    (e : S.isUniform n F ps level v = .ok true) :
    ∃ as, v = .former F.id as ∧ as.length = F.arity ∧
      List.Forall₂ Θ.Equal ((Value.plains ℓ as).take F.parameterCount) (Value.plains ℓ ps) := by
  obtain ⟨as, rfl, hl, hc, _⟩ := isUniform_eq_true e
  refine ⟨as, rfl, hl, ?_⟩
  obtain ⟨hall, m, hm⟩ := hv
  have htake : Value.Alls L (as.take F.parameterCount) := by
    rw [Value.alls_iff]
    exact fun a ha => Value.alls_iff.1 hall a (List.mem_of_mem_take ha)
  rw [Value.plain, ← List.take_append_drop F.parameterCount (Value.plains ℓ as), spine_append] at hm
  obtain ⟨G, hG⟩ := hm.of_spine fun hp => nomatch hp.of_spine.eq_atom
  rw [← Value.plains_take] at hG ⊢
  have hd := Value.convertList_decides (Constructions.convert_decides hΘ hS n).1 hs
    (x := .former F.id) (fun _ => trivial) htake hps hG hpt
  exact ((hd.of_ok hc).1 rfl).former_inj.2

end Signature

/-- The domain of an opened binder is a type in the scope of those before it. -/
theorem Opened.isType_getElem? (hΘ : Θ.Sound) {limit : Option Nat} {ty d : Value} {T : Telescope}
    (h : Opened Θ L ℓ level limit ty T) (hty : ty.IsType Θ Γ L ℓ) {i : Nat}
    (hd : T.domains[i]? = some d) :
    d.IsType Θ (((telePlain ℓ level T.domains).take i).reverse ++ Γ) (L.binds level i)
      (extendBy ℓ level i) := by
  obtain ⟨_, hn⟩ := h.typed hty hΘ
  refine ⟨h.domains.getElem? hd, hn.pis_domain ?_⟩
  rw [getElem?_telePlain, hd]
  rfl

/-- Behind the leading binders of a closed type there is a scope, and a type in it. -/
theorem Opened.scope_body (h : Θ.Models S) {A : Value} {P : Telescope} {limit : Option Nat}
    (hA : A.IsType Θ [] S.valueLeaves noLevels)
    (hP : Opened Θ S.valueLeaves noLevels 0 limit A P) :
    Scope Θ S (S.valueLeaves.binds 0 P.length) P.length (extendBy noLevels 0 P.length) ∧
      P.body.IsType Θ (telePlain noLevels 0 P.domains).reverse
        (S.valueLeaves.binds 0 P.length) (extendBy noLevels 0 P.length) := by
  have hs := (Context.Typed.empty h).scope.binds P.length
  rw [Context.level, Context.empty, List.length_nil, Nat.zero_add] at hs
  have hb := hP.isType_body hA h.sound
  rw [List.append_nil] at hb
  exact ⟨hs, hb⟩

/-- The binders of the type `A` of a constructor: the parameters `P` of the family, and the
fields `T`. -/
structure ConstructorOpened (Θ : Theory) (S : Signature) (D : FamilyShape) (A : Value)
    (P T : Telescope) : Prop where
  parameters : Opened Θ S.valueLeaves noLevels 0 (some D.parameters.length) A P
  agree : List.Forall₂ Θ.Equal (telePlain noLevels 0 P.domains) D.parameters
  scope : Scope Θ S (S.valueLeaves.binds 0 P.length) P.length (extendBy noLevels 0 P.length)
  body : P.body.IsType Θ (telePlain noLevels 0 P.domains).reverse
    (S.valueLeaves.binds 0 P.length) (extendBy noLevels 0 P.length)
  fields : Opened Θ (S.valueLeaves.binds 0 P.length) (extendBy noLevels 0 P.length) P.length none
    P.body T

namespace ConstructorOpened

/-- **The binders of a constructor that passes the checks.** -/
theorem of_checks (h : Θ.Models S) {n : Nat} {F : Family} {D : FamilyShape} {id : FamilyId}
    (dF : D.Describes Θ id F) (hF : F.type.All S.leaves) {name : Name} {type : Term} {A : Value}
    {P E T : Telescope} {r : List Nat} (hc : S.ConstructorChecks n F name type A P E T r) :
    ConstructorOpened Θ S D A P T := by
  have hs := (Context.Typed.empty h).scope
  obtain ⟨hall, u, ht⟩ := Signature.admitType_eq_ok h hc.type
  have hA : A.IsType Θ [] S.valueLeaves noLevels := ⟨hall.mono S.leaves_le, u, ht⟩
  have hFt : F.type.IsType Θ [] S.valueLeaves noLevels := ⟨hF.mono S.leaves_le, dF.valid noLevels⟩
  have hP := (hA.telescope h.sound h.describes n hs).of_ok hc.parameters
  have hE := (hFt.telescope h.sound h.describes n hs).of_ok hc.expected
  -- The former has all its parameters opened, and they are those of the constructor.
  have hFe := dF.type noLevels
  rw [FamilyShape.type, pis_append] at hFe
  have hlen : E.length = D.parameters.length := by
    refine Nat.le_antisymm (dF.parameters ▸ hE.le rfl) ?_
    exact hE.le_length hFt h.sound hs hFe (.inr (congrArg some dF.parameters.symm))
  obtain ⟨u, hPt⟩ := hP.typed hA h.sound
  obtain ⟨v, hEt⟩ := hE.typed hFt h.sound
  have hPE : P.domains.length = E.domains.length := by
    rw [Opened.length_domains, Opened.length_domains, hc.length, hlen, dF.parameters]
  have hag := ((convertDomains_decides h.sound h.describes hs hPE hP.domains hE.domains hPt
    hEt).of_ok hc.agree).1 rfl
  obtain ⟨hsb, hb⟩ := hP.scope_body h hA
  refine ⟨dF.parameters ▸ hP, ?_, hsb, hb, ?_⟩
  · exact forall₂_comp (fun h h' => h.trans h') hag (hE.domains_equal hFe hlen).1
  · exact (hb.telescope h.sound h.describes n hsb).of_ok (hc.length ▸ hc.fields)

variable {D : FamilyShape} {A : Value} {P T : Telescope} (h : ConstructorOpened Θ S D A P T)

include h

theorem length_eq : P.length = D.parameters.length := by
  rw [← h.agree.length_eq, length_telePlain, Opened.length_domains]

/-- The variables of the parameters, seen from below further binders. -/
theorem plains_parameters (k : Nat) :
    Value.plains (extendBy (extendBy noLevels 0 P.length) P.length k) P.parameters =
      (vars P.length).map (rename (· + k)) := by
  rw [Value.plains_extendBy h.scope.below h.parameters.alls_parameters,
    h.parameters.plains_parameters]

variable {F : FamilyId} (hD : Θ.family F = some D) {Ψ : List Plain} {k : Nat} (hk : Ψ.length = k)

include hD hk

/-- **The variables of the parameters are parameters of the family.** -/
theorem instance_parameters :
    Instance Θ (Ψ ++ (telePlain noLevels 0 P.domains).reverse) [] D.parameters
      ((vars P.length).map (rename (· + k))) := by
  have hf {Δ : List Plain} : HasType Θ Δ (.atom (.former F))
      (pis D.parameters (pis D.indices (.atom (.type D.level)))) := by
    rw [← pis_append]
    exact .atom (congrArg (Option.map FamilyShape.type) hD)
  have hv := ((hf (Δ := [])).conv (.pis (Theory.Equal.symms h.agree) (.refl _))).spine_vars
  have hv := hv.shifts Ψ
  rw [List.append_nil, rename_spine, length_telePlain, Opened.length_domains, hk] at hv
  refine (Instance.of_spine (B := pis D.indices (.atom (.type D.level))) ?_ ?_ hv).1
  · rw [List.length_map, length_vars, h.length_eq]
  · have hcl := Θ.family_closed hD (ofList [])
    rw [FamilyShape.type, pis_append] at hcl
    rw [hcl]
    exact hf

/-- **A uniform type is the family at the variables of the parameters.** -/
theorem uniform (hΘ : Θ.Sound) (hS : Θ.Describes S) {n : Nat} {G : Family}
    (dG : D.Describes Θ F G) {v : Value}
    (hv : v.IsType Θ (Ψ ++ (telePlain noLevels 0 P.domains).reverse)
      ((S.valueLeaves.binds 0 P.length).binds P.length k)
      (extendBy (extendBy noLevels 0 P.length) P.length k))
    (e : S.isUniform n G P.parameters (P.length + k) v = .ok true) :
    ∃ is, is.length = D.indices.length ∧
      Θ.Equal (v.plain (extendBy (extendBy noLevels 0 P.length) P.length k))
        (spine (.atom (.former F)) ((vars P.length).map (rename (· + k)) ++ is)) ∧
      HasType Θ (Ψ ++ (telePlain noLevels 0 P.domains).reverse)
        (spine (.atom (.former F)) ((vars P.length).map (rename (· + k)) ++ is))
        (.atom (.type D.level)) := by
  have hi := h.instance_parameters hD hk
  have hf : HasType Θ (Ψ ++ (telePlain noLevels 0 P.domains).reverse) (.atom (.former F))
      (D.type.subst (ofList [])) :=
    (Θ.family_closed hD _).symm ▸ .atom (congrArg (Option.map FamilyShape.type) hD)
  have hfp := hf
  rw [FamilyShape.type, pis_append] at hfp
  have hpt := hi.spine hfp
  rw [← h.plains_parameters, ← dG.id] at hpt
  have hps : Value.Alls ((S.valueLeaves.binds 0 P.length).binds P.length k) P.parameters := by
    rw [Value.alls_iff]
    intro a ha
    exact (Value.alls_iff.1 h.parameters.alls_parameters a ha).mono (Leaves.le_binds _ _ _)
  obtain ⟨as, rfl, hl, heq⟩ :=
    Signature.isUniform_equal hΘ hS (h.scope.binds k) hv hps hpt e
  rw [dG.id] at hv ⊢
  rw [h.plains_parameters, ← dG.parameters] at heq
  have hlen : (as.drop D.parameters.length).length = D.indices.length := by
    rw [List.length_drop, hl, Family.arity, dG.parameters, dG.indices, Nat.add_sub_cancel_left]
  obtain ⟨_, m, hm⟩ := hv
  generalize extendBy (extendBy noLevels 0 P.length) P.length k = ℓ at *
  refine ⟨Value.plains ℓ (as.drop D.parameters.length), by rw [Value.length_plains, hlen], ?_⟩
  have hall : List.Forall₂ Θ.Equal (Value.plains ℓ as)
      ((vars P.length).map (rename (· + k)) ++ Value.plains ℓ (as.drop D.parameters.length)) := by
    rw [Value.plains_drop]
    conv => lhs; rw [← List.take_append_drop D.parameters.length (Value.plains ℓ as)]
    exact List.rel_append heq (Theory.Equal.refls _)
  refine ⟨.spine (.refl _) hall, ?_⟩
  have his := HasType.indices hD hi.length_eq (by rw [Value.length_plains, hlen]) hm hall
  rw [← Value.plains_drop] at his
  exact (hi.append (by rwa [List.append_nil])).spine hf

omit hk in
/-- **A uniform field, seen from below all fields, is the family at the parameters.** -/
theorem recursiveField (hΘ : Θ.Sound) (hS : Θ.Describes S) {n : Nat} {G : Family}
    (dG : D.Describes Θ F G) {i : Nat} {d : Value} (hd : T.domains[i]? = some d)
    (hu : S.isUniform n G P.parameters (P.length + i) d = .ok true) :
    ∃ is B, is.length = D.indices.length ∧
      (telePlain (extendBy noLevels 0 P.length) P.length T.domains)[i]? = some B ∧
      Θ.Equal (B.rename (· + (T.length - i))) (spine (.atom (.former F))
        ((vars P.length).map (rename (· + T.length)) ++ is)) := by
  have hi : i < T.length := Opened.length_domains T ▸ (List.getElem?_eq_some_iff.1 hd).1
  have htake : ((telePlain (extendBy noLevels 0 P.length) P.length T.domains).take
      i).reverse.length = i := by
    rw [List.length_reverse, List.length_take, length_telePlain, Opened.length_domains]
    omega
  obtain ⟨is, hil, hie, _⟩ := h.uniform hD htake hΘ hS dG
    (h.fields.isType_getElem? hΘ h.body hd) hu
  refine ⟨is.map (rename (· + (T.length - i))), _, by rw [List.length_map, hil],
    (getElem?_telePlain _ _ _ i).trans (congrArg _ hd), ?_⟩
  have hir := hie.rename (· + (T.length - i))
  rw [rename_spine, List.map_append, List.map_map] at hir
  refine hir.trans (.of_eq (congrArg (fun vs => spine _ (vs ++ _)) (List.map_congr_left ?_)))
  intro x _
  rw [Function.comp_apply, rename_rename]
  exact congrArg (fun ρ => x.rename ρ) (funext fun j => by omega)

end ConstructorOpened

/-- **A constructor that passes the checks has a shape that fits its family.** -/
theorem Signature.ConstructorChecks.exists_shape (h : Θ.Models S) {n : Nat} {F : Family}
    {D : FamilyShape} (hD : Θ.family F.id = some D) (dF : D.Describes Θ F.id F)
    (hF : F.type.All S.leaves) {name : Name} {type : Term} {A : Value} {P E T : Telescope}
    {r : List Nat} (hc : S.ConstructorChecks n F name type A P E T r) (id : ConstructorId) :
    ∃ C : ConstructorShape, C.Valid Θ D ∧
      C.Describes Θ id ⟨id, name, F.id, F.parameterCount, T.length, r, A⟩ := by
  have ho := ConstructorOpened.of_checks h dF hF hc
  obtain ⟨hall, u, ht⟩ := Signature.admitType_eq_ok h hc.type
  let Φf := telePlain (extendBy noLevels 0 P.length) P.length T.domains
  have hΦf : Φf.length = T.length := by rw [length_telePlain, Opened.length_domains]
  have htarget := hc.target
  obtain ⟨hle, hfields⟩ := Signature.recursivePositions_eq_ok hc.recursive
  rw [← hc.length] at htarget hle hfields
  obtain ⟨target, htl, hte, htt⟩ := ho.uniform hD (by rw [List.length_reverse, hΦf]) h.sound
    h.describes dF (ho.fields.isType_body ho.body h.sound) htarget
  have hrec : ∀ q, ∃ is : List Plain, q ∈ r → is.length = D.indices.length ∧
      ∃ i B, q = D.parameters.length + i ∧ Φf[i]? = some B ∧
        Θ.Equal (B.rename (· + (Φf.length - i))) (spine (.atom (.former F.id))
          ((vars P.length).map (rename (· + T.length)) ++ is)) := by
    intro q
    by_cases hq : q ∈ r
    · obtain ⟨i, rfl⟩ := Nat.exists_eq_add_of_le (hle q hq).1
      have hd := List.getElem?_eq_getElem (show i < T.domains.length by have := hle _ hq; omega)
      obtain ⟨_, hu⟩ := (hfields hd).resolve_right fun ⟨hn, _⟩ => hn hq
      obtain ⟨is, B, hl, hB, e⟩ := ho.recursiveField hD h.sound h.describes dF hd hu
      exact ⟨is, fun _ => ⟨hl, i, B, by rw [ho.length_eq], hB, hΦf ▸ e⟩⟩
    · exact ⟨[], fun h => (hq h).elim⟩
  choose idx hidx using hrec
  let C : ConstructorShape := ⟨F.id, D.parameters, Φf, r.map fun q => (q, idx q), target⟩
  have hfam (is : List Plain) : C.familyAt is = spine (.atom (.former F.id))
      ((vars P.length).map (rename (· + T.length)) ++ is) := by
    rw [ConstructorShape.familyAt, ConstructorShape.arity, vars_add,
      List.take_left' (by rw [List.length_map, length_vars]), hΦf, ho.length_eq]
  have htype : C.type = pis D.parameters (pis Φf (C.familyAt target)) := pis_append _ _ _
  -- The fields and the target are typed below the parameters as the constructor has them.
  have hbelow : ∃ m, HasType Θ (telePlain noLevels 0 P.domains).reverse
      (pis Φf (C.familyAt target)) (.atom (.type m)) := by
    obtain ⟨_, hTt⟩ := ho.fields.typed ho.body h.sound
    exact hTt.pis_replace (hfam target ▸ htt)
  refine ⟨C, ⟨rfl, htl, ?_, ?_⟩, rfl, rfl, dF.parameters, hΦf, ?_, fun ℓ => ?_, fun ℓ => ?_⟩
  · obtain ⟨_, hDt⟩ := h.sound.family hD
    obtain ⟨m, hm⟩ := hbelow
    rw [FamilyShape.type, pis_append] at hDt
    rw [htype]
    exact hDt.pis_replace (HasType.changes ho.agree (by rwa [List.append_nil]))
  · intro field hf
    obtain ⟨q, hq, rfl⟩ := List.mem_map.1 hf
    rw [hfam]
    exact hidx q hq
  · rw [List.map_map]
    exact List.map_id'' (fun _ => rfl) r
  · rw [Value.plain_eq_noLevels hall, htype]
    refine ho.parameters.reds.equal.trans (.pis ho.agree ?_)
    refine ho.fields.reds.equal.trans (.pis (Theory.Equal.refls _) ?_)
    exact hfam target ▸ hte
  · rw [Value.plain_eq_noLevels hall]
    exact ⟨u, ht⟩

end Constructions
