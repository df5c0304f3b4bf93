/-
# Declarations keep signatures coherent

Every signature that declarations reach is described by a sound theory.  A declaration
extends the theory: a postulate or a definition by a constant, a family by the shape of its
former, a constructor by the shape of its type, and closing a family by its constructors.

| declaration | new in the theory |
| --- | --- |
| `postulate`, `define` | `Theory.addConstant` |
| `openFamily` | `Theory.setFamily` with the opened binders of the former |
| `declareConstructor` | `Theory.addConstructor` with the opened fields |
| `closeFamily` | `Theory.setFamily` with the constructors |
-/

import Constructions.Proofs.Constructor
import Constructions.Proofs.Theory.Extension

namespace Constructions

open Plain

variable {Θ Θ' : Theory} {S S' : Signature}

/-! ### Descriptions and soundness in extensions -/

theorem FamilyShape.Describes.mono (hle : Θ.Le Θ') (hΘ : Θ.Sound) {id : FamilyId} {D : FamilyShape}
    {F : Family} (h : D.Describes Θ id F) : D.Describes Θ' id F where
  id := h.id
  parameters := h.parameters
  indices := h.indices
  constructors := h.constructors
  type ℓ := hle.equal (h.type ℓ)
  valid ℓ := by
    obtain ⟨n, hn⟩ := h.valid ℓ
    exact ⟨n, hn.mono hle hΘ⟩

theorem ConstructorShape.Describes.mono (hle : Θ.Le Θ') (hΘ : Θ.Sound) {id : ConstructorId}
    {D : ConstructorShape} {K : Constructor} (h : D.Describes Θ id K) : D.Describes Θ' id K where
  id := h.id
  family := h.family
  parameters := h.parameters
  fields := h.fields
  recursive := h.recursive
  type ℓ := hle.equal (h.type ℓ)
  valid ℓ := by
    obtain ⟨n, hn⟩ := h.valid ℓ
    exact ⟨n, hn.mono hle hΘ⟩

/-- What a theory describes of the families of a signature, it describes in an extension. -/
theorem Theory.Describes.family_mono (hle : Θ.Le Θ') (hΘ : Θ.Sound) (h : Θ.Describes S)
    (F : FamilyId) : Option.Rel (FamilyShape.Describes Θ' F) (Θ.family F) (S.family? F) := by
  generalize Θ.family F = D, S.family? F = G, h.family F = hr
  cases hr with
  | some h => exact .some (h.mono hle hΘ)
  | none => exact .none

theorem Theory.Describes.constructor_mono (hle : Θ.Le Θ') (hΘ : Θ.Sound) (h : Θ.Describes S)
    (c : ConstructorId) :
    Option.Rel (ConstructorShape.Describes Θ' c) (Θ.constructor c) (S.constructor? c) := by
  generalize Θ.constructor c = C, S.constructor? c = K, h.constructor c = hr
  cases hr with
  | some h => exact .some (h.mono hle hΘ)
  | none => exact .none

/-- **An extension is sound** if what it declares is typed already. -/
theorem Theory.Sound.extend (hle : Θ.Le Θ') (hΘ : Θ.Sound)
    (constant : ∀ {c T}, Θ'.constant c = some T → ∃ n, HasType Θ [] T (.atom (.type n)))
    (definition : ∀ {c t}, Θ'.definition c = some t →
      ∃ T, Θ'.constant c = some T ∧ HasType Θ [] t T)
    (family : ∀ {F D}, Θ'.family F = some D → ∃ n, HasType Θ [] D.type (.atom (.type n)))
    (constructor : ∀ {c K}, Θ'.constructor c = some K →
      ∃ D, Θ.family K.family = some D ∧ K.Valid Θ D)
    (constructors : ∀ {F D cs}, Θ'.family F = some D → D.constructors = some cs →
      ∀ c, c ∈ cs ↔ ∃ K, Θ'.constructor c = some K ∧ K.family = F) : Θ'.Sound where
  constant hc := by
    obtain ⟨n, hn⟩ := constant hc
    exact ⟨n, hn.mono hle hΘ⟩
  definition hc := by
    obtain ⟨T, hT, ht⟩ := definition hc
    exact ⟨T, hT, ht.mono hle hΘ⟩
  family hF := by
    obtain ⟨n, hn⟩ := family hF
    exact ⟨n, hn.mono hle hΘ⟩
  constructor hK := by
    obtain ⟨D, hD, hV⟩ := constructor hK
    obtain ⟨cs, hD', _⟩ := hle.family hD
    exact ⟨_, hD', hV.mono hle hΘ cs⟩
  constructors := constructors

namespace Signature

/-- A signature is described by a sound theory, names that are constants are taken, and families
list their constructors. -/
structure Coherent (S : Signature) (Θ : Theory) : Prop where
  models : Θ.Models S
  entry : ∀ {c g}, S.global? c = some g → S.entry? c ≠ none
  members : ∀ {id F}, S.family? id = some F →
    ∀ c, c ∈ F.constructors ↔ ∃ K, S.constructor? c = some K ∧ K.family = id

/-- The constructors of a finalized family, seen from the theory. -/
theorem constructors_of_members (hD : Θ.Describes S)
    (hm : ∀ {id F}, S.family? id = some F →
      ∀ c, c ∈ F.constructors ↔ ∃ K, S.constructor? c = some K ∧ K.family = id)
    {id : FamilyId} {D : FamilyShape} {cs : List ConstructorId} (hF : Θ.family id = some D)
    (hcs : D.constructors = some cs) (c : ConstructorId) :
    c ∈ cs ↔ ∃ K, Θ.constructor c = some K ∧ K.family = id := by
  obtain ⟨F, hF, dF⟩ := hD.family?_of_eq_some hF
  obtain ⟨table, htable, rfl⟩ := dF.exists_table hcs
  rw [← Family.constructors_of_dispatch? htable, hm hF]
  constructor
  · rintro ⟨K, hK, rfl⟩
    obtain ⟨C, hC, dK⟩ := hD.constructor_of_eq_some hK
    exact ⟨C, hC, dK.family⟩
  · rintro ⟨C, hC, rfl⟩
    obtain ⟨K, hK, dK⟩ := hD.constructor?_of_eq_some hC
    exact ⟨K, hK, dK.family.symm⟩

/-- The theory in which nothing is declared. -/
def emptyTheory : Theory :=
  ⟨fun _ => none, fun _ => none, fun _ => none, fun _ => none, fun h => (nomatch h),
    fun h => (nomatch h), fun h => (nomatch h), fun h => (nomatch h)⟩

/-- **Nothing is declared at first.** -/
theorem coherent_empty : Coherent .empty emptyTheory where
  models :=
    { sound := ⟨fun h => (nomatch h), fun h => (nomatch h), fun h => (nomatch h),
        fun h => (nomatch h), fun h => (nomatch h)⟩
      describes := ⟨fun _ _ => rfl, fun _ _ => rfl, fun _ => .none, fun _ => .none⟩
      grounded := ⟨fun h => (nomatch h), fun h => (nomatch h), fun h => (nomatch h),
        fun h => (nomatch h)⟩ }
  entry h := nomatch h
  members h := nomatch h

/-! ### Constants -/

theorem leaves_le_of_globals (h : ∀ {c g}, S.global? c = some g → S'.global? c = some g) :
    S.leaves.Le S'.leaves where
  level h := h
  stuck := fun ⟨g, hg, hd⟩ => ⟨g, h hg, hd⟩
  name := fun ⟨g, hg⟩ => ⟨g, h hg⟩
  univ h := h

/-- **One more constant.** -/
theorem Coherent.addGlobal (h : S.Coherent Θ) {c : Name} {A : Value} {d : Option Value}
    (hc : S.entry? c = none) (hA : A.All S.leaves)
    (hAt : ∃ u, HasType Θ [] (A.plain noLevels) (.atom (.type u)))
    (hd : ∀ {v}, d = some v → v.All S.leaves ∧
      HasType Θ [] (v.plain noLevels) (A.plain noLevels)) :
    ∃ Θ', Θ.Le Θ' ∧ (S.addGlobal c ⟨A, d⟩).Coherent Θ' := by
  obtain ⟨hΘ, hS, hG⟩ := h.models
  obtain ⟨u, hu⟩ := hAt
  have hfresh : S.global? c = none := by
    cases hg : S.global? c with
    | none => rfl
    | some g => exact (h.entry hg hc).elim
  have hconst : Θ.constant c = none := by rw [hS.constant c noLevels, hfresh]; rfl
  have hdef : Θ.definition c = none := by rw [hS.definition c noLevels, hfresh]; rfl
  have hdc {t : Plain} (ht : d.map (·.plain noLevels) = some t) : t.Closed := by
    obtain ⟨v, hv, rfl⟩ := Option.map_eq_some_iff.1 ht
    exact (hd hv).2.closed hΘ
  let Θ' := Θ.addConstant c (A.plain noLevels) (d.map (·.plain noLevels)) (hu.closed hΘ) hdc
  have hle : Θ.Le Θ' := Theory.le_addConstant _ _ hconst hdef
  have hglobal {c' : Name} {g : Global} (hg : S.global? c' = some g) :
      (S.addGlobal c ⟨A, d⟩).global? c' = some g := by
    rw [global?_addGlobal, if_neg, hg]
    rintro rfl
    cases hfresh.symm.trans hg
  have hleaves := leaves_le_of_globals hglobal
  refine ⟨Θ', hle, ⟨?_, ?_, ?_⟩, ?_, h.members⟩
  · refine hΘ.extend hle ?_ ?_ (fun hF => hΘ.family hF) (fun hK => hΘ.constructor hK)
      fun hF => hΘ.constructors hF
    · intro c' T hT
      by_cases hcc : c' = c
      · rw [show Θ'.constant c' = some (A.plain noLevels) from if_pos hcc] at hT
        exact Option.some.inj hT ▸ ⟨u, hu⟩
      · rw [show Θ'.constant c' = Θ.constant c' from if_neg hcc] at hT
        exact hΘ.constant hT
    · intro c' t ht
      by_cases hcc : c' = c
      · rw [show Θ'.definition c' = d.map (·.plain noLevels) from if_pos hcc] at ht
        obtain ⟨v, hv, rfl⟩ := Option.map_eq_some_iff.1 ht
        exact ⟨A.plain noLevels, if_pos hcc, (hd hv).2⟩
      · rw [show Θ'.definition c' = Θ.definition c' from if_neg hcc] at ht
        obtain ⟨T, hT, ht⟩ := hΘ.definition ht
        exact ⟨T, hle.constant hT, ht⟩
  · refine ⟨fun c' ℓ => ?_, fun c' ℓ => ?_, fun id => ?_, fun c' => ?_⟩
    · rw [global?_addGlobal]
      by_cases hcc : c' = c
      · rw [if_pos hcc, Option.map_some, Value.plain_eq_noLevels hA]
        exact if_pos hcc
      · rw [if_neg hcc, ← hS.constant]
        exact if_neg hcc
    · rw [global?_addGlobal]
      by_cases hcc : c' = c
      · rw [if_pos hcc, Option.bind_some]
        refine Eq.trans (if_pos hcc) ?_
        cases d with
        | none => rfl
        | some v => exact congrArg some (Value.plain_eq_noLevels (hd rfl).1 ℓ).symm
      · rw [if_neg hcc, ← hS.definition]
        exact if_neg hcc
    · exact hS.family_mono hle hΘ id
    · exact hS.constructor_mono hle hΘ c'
  · refine ⟨fun {c' g} hg => ?_, fun {c' g v} hg hv => ?_, fun hF => (hG.family hF).mono hleaves,
      fun hK => (hG.constructor hK).mono hleaves⟩
    · rw [global?_addGlobal] at hg
      split at hg
      · exact Option.some.inj hg ▸ hA.mono hleaves
      · exact (hG.type hg).mono hleaves
    · rw [global?_addGlobal] at hg
      split at hg
      · cases hg
        exact (hd hv).1.mono hleaves
      · exact (hG.definition hg hv).mono hleaves
  · intro c' g hg
    rw [entry?_addGlobal]
    rw [global?_addGlobal] at hg
    split at hg
    · next hcc => rw [if_pos hcc]; exact Option.some_ne_none _
    · next hcc => rw [if_neg hcc]; exact h.entry hg

theorem postulate_coherent (h : S.Coherent Θ) {n : Nat} {name : Name} {type : Term}
    (e : S.postulate n name type = .ok S') : ∃ Θ', Θ.Le Θ' ∧ S'.Coherent Θ' := by
  obtain ⟨A, hname, hA, rfl⟩ := postulate_eq_ok e
  obtain ⟨hall, ht⟩ := admitType_eq_ok h.models hA
  exact h.addGlobal hname hall ht fun hv => nomatch hv

theorem define_coherent (h : S.Coherent Θ) {n : Nat} {name : Name} {type value : Term}
    (e : S.define n name type value = .ok S') : ∃ Θ', Θ.Le Θ' ∧ S'.Coherent Θ' := by
  obtain ⟨A, a, hname, hA, hc, ha, rfl⟩ := define_eq_ok e
  obtain ⟨hall, u, ht⟩ := admitType_eq_ok h.models hA
  have hty : A.IsType Θ [] S.valueLeaves noLevels := ⟨hall.mono S.leaves_le, u, ht⟩
  obtain ⟨hva, hvt⟩ := (Context.check_post (.empty h.models) n value hty).of_ok hc
  refine h.addGlobal hname hall ⟨u, ht⟩ fun hv => ?_
  cases hv
  exact h.models.eval_closed hva hvt ha

/-! ### Families -/

/-- **One family is new, or finalized.** -/
theorem Coherent.setFamily (h : S.Coherent Θ) {i : FamilyId} {F : Family} {D : FamilyShape}
    (hglobal : ∀ c, S'.global? c = S.global? c)
    (hconstructor : ∀ c, S'.constructor? c = S.constructor? c)
    (hfamily : ∀ j, S'.family? j = if j = i then some F else S.family? j)
    (hentry : ∀ {c}, S.entry? c ≠ none → S'.entry? c ≠ none)
    (hD : ∃ u, HasType Θ [] D.type (.atom (.type u))) (dF : D.Describes Θ i F)
    (hold : ∀ D', Θ.family i = some D' → ∃ cs, D = { D' with constructors := cs } ∧
      ∀ ds, D'.constructors = some ds → cs = some ds)
    (hF : F.type.All S.leaves)
    (hmem : ∀ c, c ∈ F.constructors ↔ ∃ K, S.constructor? c = some K ∧ K.family = i) :
    ∃ Θ', Θ.Le Θ' ∧ S'.Coherent Θ' := by
  obtain ⟨hΘ, hS, hG⟩ := h.models
  obtain ⟨u, hu⟩ := hD
  let Θ' := Θ.setFamily i D (hu.closed hΘ)
  have hle : Θ.Le Θ' := Theory.le_setFamily _ hold
  have hleaves : S.leaves.Le S'.leaves := leaves_le_of_globals fun hg => (hglobal _).trans hg
  have hmembers {j : FamilyId} {G : Family} (hG : S'.family? j = some G) (c : ConstructorId) :
      c ∈ G.constructors ↔ ∃ K, S'.constructor? c = some K ∧ K.family = j := by
    rw [hconstructor]
    rw [hfamily] at hG
    split at hG
    · next hid =>
      cases hG
      exact hid ▸ hmem c
    · exact h.members hG c
  have hdesc : Θ'.Describes S' := by
    refine ⟨fun c ℓ => ?_, fun c ℓ => ?_, fun j => ?_, fun c => ?_⟩
    · rw [hglobal]
      exact hS.constant c ℓ
    · rw [hglobal]
      exact hS.definition c ℓ
    · rw [hfamily]
      by_cases hid : j = i
      · rw [if_pos hid, show Θ'.family j = some D from if_pos hid, hid]
        exact .some (dF.mono hle hΘ)
      · rw [if_neg hid, show Θ'.family j = Θ.family j from if_neg hid]
        exact hS.family_mono hle hΘ j
    · rw [hconstructor]
      exact Theory.Describes.constructor_mono (Θ := Θ) hle hΘ hS c
  refine ⟨Θ', hle, ⟨?_, hdesc, ?_⟩, ?_, hmembers⟩
  · refine hΘ.extend hle (fun hc => hΘ.constant hc) (fun hc => hΘ.definition hc) ?_
      (fun hK => hΘ.constructor hK) fun hF' => constructors_of_members hdesc hmembers hF'
    intro j D' hD'
    by_cases hid : j = i
    · rw [show Θ'.family j = some D from if_pos hid] at hD'
      exact Option.some.inj hD' ▸ ⟨u, hu⟩
    · rw [show Θ'.family j = Θ.family j from if_neg hid] at hD'
      exact hΘ.family hD'
  · refine ⟨fun {c g} hg => ?_, fun {c g v} hg hv => ?_, fun {j G} hG' => ?_,
      fun {c K} hK => ?_⟩
    · exact (hG.type (hglobal c ▸ hg)).mono hleaves
    · exact (hG.definition (hglobal c ▸ hg) hv).mono hleaves
    · rw [hfamily] at hG'
      split at hG'
      · exact Option.some.inj hG' ▸ hF.mono hleaves
      · exact (hG.family hG').mono hleaves
    · exact (hG.constructor (hconstructor c ▸ hK)).mono hleaves
  · intro c g hg
    exact hentry (h.entry (hglobal c ▸ hg))

theorem openFamily_coherent (h : S.Coherent Θ) {n p : Nat} {name : Name} {type : Term}
    {id : FamilyId} (e : S.openFamily n name p type = .ok (S', id)) :
    ∃ Θ', Θ.Le Θ' ∧ S'.Coherent Θ' := by
  obtain ⟨A, T, l, hname, hA, hT, hp, hl, rfl⟩ := openFamily_eq_ok e
  obtain ⟨hΘ, hS, hG⟩ := h.models
  obtain ⟨hall, u, ht⟩ := admitType_eq_ok h.models hA
  have hty : A.IsType Θ [] S.valueLeaves noLevels := ⟨hall.mono S.leaves_le, u, ht⟩
  have hop := (hty.telescope hΘ hS n (Context.Typed.empty h.models).scope).of_ok hT
  -- The binders that were opened are the parameters and the indices.
  let Φ := telePlain noLevels 0 T.domains
  have hΦ : Φ.length = T.length := by rw [length_telePlain, Opened.length_domains]
  let D : FamilyShape := ⟨Φ.take p, Φ.drop p, l.toNat, none⟩
  have hDt : D.type = pis Φ (.atom (.type l.toNat)) :=
    congrArg (pis · _) (List.take_append_drop p Φ)
  have hred : Reds Θ (A.plain noLevels) D.type := by
    have hr := hop.reds
    rw [hl] at hr
    exact hDt ▸ hr
  have hnone : Θ.family ⟨S.families.size⟩ = none := by
    cases hF : Θ.family ⟨S.families.size⟩ with
    | none => rfl
    | some D =>
      obtain ⟨_, hF, _⟩ := hS.family?_of_eq_some hF
      cases (S.family?_size).symm.trans hF
  refine h.setFamily (i := ⟨S.families.size⟩) (D := D) (fun _ => rfl) (fun _ => rfl)
    (family?_addFamily S name p (T.length - p) A) (fun {c} hc => ?_) ⟨u, ht.reds hΘ hred⟩
    ⟨rfl, ?_, ?_, rfl, fun ℓ => ?_, fun ℓ => ?_⟩ (fun D' hD' => nomatch hnone.symm.trans hD') hall
    fun c => ?_
  · rw [entry?_addFamily]
    split
    · exact Option.some_ne_none _
    · exact hc
  · exact List.length_take_of_le (by omega)
  · exact List.length_drop.trans (by rw [hΦ])
  · rw [Value.plain_eq_noLevels hall ℓ]
    exact hred.equal
  · rw [Value.plain_eq_noLevels hall ℓ]
    exact ⟨u, ht⟩
  · refine iff_of_false List.not_mem_nil ?_
    rintro ⟨K, hK, hfam⟩
    obtain ⟨C, hC, dK⟩ := hS.constructor_of_eq_some hK
    obtain ⟨D', hD', _⟩ := hΘ.constructor hC
    rw [dK.family, hfam, hnone] at hD'
    cases hD'

theorem closeFamily_coherent (h : S.Coherent Θ) {family : Name} {id : FamilyId}
    (e : S.closeFamily family = .ok (S', id)) : ∃ Θ', Θ.Le Θ' ∧ S'.Coherent Θ' := by
  obtain ⟨fid, F, hF, hopen, _, rfl⟩ := closeFamily_eq_ok e
  obtain ⟨hΘ, hS, hG⟩ := h.models
  obtain ⟨D, hD, dF⟩ := hS.family_of_eq_some hF
  have hnone : D.constructors = none := by
    rw [dF.constructors, Family.dispatch?_eq_none hopen, Option.map_none]
  obtain ⟨u, hu⟩ := hΘ.family hD
  refine h.setFamily (i := fid) (F := { F with state := .finalized (.build F.constructors) })
    (D := { D with constructors := some F.constructors }) (fun _ => rfl) (fun _ => rfl)
    (fun id' => ?_) (fun hc => hc) ⟨u, hu⟩
    ⟨dF.id, dF.parameters, dF.indices, rfl, dF.type, dF.valid⟩ (fun D' hD' => ?_)
    (hG.family hF : F.type.All _) (h.members hF : ∀ c, c ∈ F.constructors ↔ _)
  · obtain rfl := family?_id hF
    exact family?_finalize hF id'
  · obtain rfl := Option.some.inj (hD.symm.trans hD')
    exact ⟨_, rfl, fun ds hds => nomatch hnone.symm.trans hds⟩

/-! ### Constructors -/

theorem declareConstructor_coherent (h : S.Coherent Θ) {n : Nat} {family name : Name} {type : Term}
    {id : ConstructorId} (e : S.declareConstructor n family name type = .ok (S', id)) :
    ∃ Θ', Θ.Le Θ' ∧ S'.Coherent Θ' := by
  obtain ⟨fid, F, A, P, E, T, r, hF, hc, rfl⟩ := declareConstructor_eq_ok e
  obtain ⟨hΘ, hS, hG⟩ := h.models
  obtain ⟨D, hD, dF⟩ := hS.family_of_eq_some hF
  obtain rfl := dF.id
  obtain ⟨C, hV, dC⟩ := hc.exists_shape h.models hD dF (hG.family hF) ⟨S.constructors.size⟩
  have hfresh : Θ.constructor ⟨S.constructors.size⟩ = none := by
    cases hK : Θ.constructor ⟨S.constructors.size⟩ with
    | none => rfl
    | some C =>
      obtain ⟨_, hK, _⟩ := hS.constructor?_of_eq_some hK
      cases (S.constructor?_size).symm.trans hK
  obtain ⟨u, hu⟩ := hV.type
  let Θ' := Θ.addConstructor ⟨S.constructors.size⟩ C (hu.closed hΘ)
  have hle : Θ.Le Θ' := Theory.le_addConstructor _ hfresh
  have hmembers {id' : FamilyId} {G : Family}
      (hG : (S.addConstructor name F T.length r A).1.family? id' = some G) (c : ConstructorId) :
      c ∈ G.constructors ↔ ∃ K, (S.addConstructor name F T.length r A).1.constructor? c = some K ∧
        K.family = id' := by
    rw [family?_addConstructor _ hF] at hG
    rw [constructor?_addConstructor]
    by_cases hc : c = ⟨S.constructors.size⟩
    · rw [if_pos hc]
      split at hG
      · next hid =>
        cases hG
        exact iff_of_true (List.mem_append_right _ (List.mem_singleton.2 hc)) ⟨_, rfl, hid.symm⟩
      · next hid =>
        refine iff_of_false (fun hm => ?_) ?_
        · obtain ⟨K, hK, _⟩ := (h.members hG c).1 hm
          cases (hc ▸ S.constructor?_size).symm.trans hK
        · rintro ⟨K, hK, hfam⟩
          cases hK
          exact hid hfam.symm
    · rw [if_neg hc]
      split at hG
      · next hid =>
        cases hG
        refine (List.mem_append.trans (or_iff_left (mt List.mem_singleton.1 hc))).trans ?_
        rw [hid]
        exact h.members hF c
      · exact h.members hG c
  have hdesc : Θ'.Describes (S.addConstructor name F T.length r A).1 := by
    refine ⟨hS.constant, hS.definition, fun id' => ?_, fun c => ?_⟩
    · rw [family?_addConstructor _ hF]
      by_cases hid : id' = F.id
      · have dF' := dF.mono hle hΘ
        rw [if_pos hid, show Θ'.family id' = some D from hid ▸ hD, hid]
        refine .some ⟨rfl, dF'.parameters, dF'.indices, dF'.constructors.trans ?_, dF'.type,
          dF'.valid⟩
        rw [Family.dispatch?_eq_none hc.opened]
        rfl
      · rw [if_neg hid]
        exact hS.family_mono hle hΘ id'
    · rw [constructor?_addConstructor]
      by_cases hc : c = ⟨S.constructors.size⟩
      · rw [if_pos hc, show Θ'.constructor c = some C from if_pos hc, hc]
        exact .some (dC.mono hle hΘ)
      · rw [if_neg hc, show Θ'.constructor c = Θ.constructor c from if_neg hc]
        exact hS.constructor_mono hle hΘ c
  refine ⟨Θ', hle, ⟨?_, hdesc, ?_⟩, ?_, hmembers⟩
  · refine hΘ.extend hle (fun hc => hΘ.constant hc) (fun hc => hΘ.definition hc)
      (fun hF => hΘ.family hF) ?_ fun hF' => constructors_of_members hdesc hmembers hF'
    intro c K hK
    by_cases hc : c = ⟨S.constructors.size⟩
    · rw [show Θ'.constructor c = some C from if_pos hc] at hK
      obtain rfl := Option.some.inj hK
      exact ⟨D, by rw [dC.family]; exact hD, hV⟩
    · rw [show Θ'.constructor c = Θ.constructor c from if_neg hc] at hK
      exact hΘ.constructor hK
  · refine ⟨hG.type, hG.definition, fun {id' G} hG' => ?_, fun {c K} hK => ?_⟩
    · rw [family?_addConstructor _ hF] at hG'
      split at hG'
      · cases hG'
        exact (hG.family hF : F.type.All _)
      · exact hG.family hG'
    · rw [constructor?_addConstructor] at hK
      split at hK
      · cases hK
        exact (admitType_eq_ok h.models hc.type).1
      · exact hG.constructor hK
  · intro c g hg
    rw [entry?_addConstructor]
    split
    · exact Option.some_ne_none _
    · exact h.entry hg

/-! ### Runs -/

/-- **A declaration keeps a signature coherent.** -/
theorem Step.coherent (h : S.Coherent Θ) (e : Step S S') : ∃ Θ', Θ.Le Θ' ∧ S'.Coherent Θ' := by
  cases e with
  | postulate _ _ _ e => exact postulate_coherent h e
  | define _ _ _ _ e => exact define_coherent h e
  | openFamily _ _ _ _ e => exact openFamily_coherent h e
  | declareConstructor _ _ _ _ e => exact declareConstructor_coherent h e
  | closeFamily _ e => exact closeFamily_coherent h e

/-- **All signatures that declarations reach are coherent.** -/
theorem Reachable.coherent (h : S.Reachable) : ∃ Θ, S.Coherent Θ := by
  induction h with
  | refl => exact ⟨emptyTheory, coherent_empty⟩
  | tail _ e ih =>
    obtain ⟨Θ, h⟩ := ih
    obtain ⟨Θ', _, h'⟩ := e.coherent h
    exact ⟨Θ', h'⟩

end Signature

end Constructions
