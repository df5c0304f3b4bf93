/-
# Eliminating a construction

A theory is sound if what it declares is well typed: types are types, definitions have
the types of their constants, and the shape of a constructor fits its family.

The main fact is that in a sound theory an elimination of a construction and the method
it computes to have the same type (`Elimination.contract`).  The method is applied to
the fields, which are an instance of its first domains, and then to the eliminations of
the recursive fields; the type of such a field is the family at the same parameters, so
the elimination of it has the same motive and methods.
-/

import Constructions.Proofs.Theory.Telescopes

namespace Constructions

open Plain

/-- The shape of a constructor fits the shape of its family. -/
structure ConstructorShape.Valid (Θ : Theory) (K : ConstructorShape) (D : FamilyShape) :
    Prop where
  parameters : K.parameters = D.parameters
  target : K.target.length = D.indices.length
  type : ∃ n, HasType Θ [] K.type (.atom (.type n))
  /-- The type of a recursive field, moved under all fields, is the family at its indices. -/
  recursive : ∀ {field}, field ∈ K.recursive → field.2.length = D.indices.length ∧
    ∃ i A, field.1 = K.parameters.length + i ∧ K.fields[i]? = some A ∧
      Θ.Equal (A.rename (· + (K.fields.length - i))) (K.familyAt field.2)

/-- What is declared is well typed. -/
structure Theory.Sound (Θ : Theory) : Prop where
  constant : ∀ {c T}, Θ.constant c = some T → ∃ n, HasType Θ [] T (.atom (.type n))
  definition : ∀ {c t}, Θ.definition c = some t → ∃ T, Θ.constant c = some T ∧ HasType Θ [] t T
  family : ∀ {F D}, Θ.family F = some D → ∃ n, HasType Θ [] D.type (.atom (.type n))
  constructor : ∀ {c K}, Θ.constructor c = some K →
    ∃ D, Θ.family K.family = some D ∧ K.Valid Θ D
  constructors : ∀ {F D cs}, Θ.family F = some D → D.constructors = some cs →
    ∀ c, c ∈ cs ↔ ∃ K, Θ.constructor c = some K ∧ K.family = F

variable {Θ : Theory} {Γ : List Plain}

namespace Plain

theorem ofList_append_left {e : List Plain} (e' : List Plain) {i : Nat} (h : i < e.length) :
    ofList (e ++ e') i = ofList e i := List.getD_append _ _ _ _ h

theorem ofList_append_right (e e' : List Plain) (i : Nat) :
    ofList (e ++ e') (i + e.length) = ofList e' i := by
  rw [ofList, List.getD_append_right _ _ _ _ (Nat.le_add_left _ _), Nat.add_sub_cancel]
  rfl

theorem ofList_eq {e : List Plain} {i : Nat} {a : Plain} (h : e[i]? = some a) :
    ofList e i = a := by rw [ofList, List.getD_eq_getElem?_getD, h]; rfl

/-- **A term that skips a variable does not see what the variable stands for.** -/
theorem subst_skip (t M : Plain) (e e' : List Plain) :
    (t.rename (skip e.length)).subst (ofList (e ++ M :: e')) = t.subst (ofList (e ++ e')) := by
  rw [subst_rename]
  congr 1
  funext i
  rw [skip]
  split
  · next h => rw [ofList_append_left _ h, ofList_append_left _ h]
  · next h =>
    obtain ⟨j, rfl⟩ := Nat.exists_eq_add_of_le' (Nat.not_lt.1 h)
    rw [Nat.add_right_comm, ofList_append_right, ofList_append_right]
    rfl

/-- A term moved below `e` sees what stands outside of `e`. -/
theorem subst_rename_add (t : Plain) (e e' : List Plain) :
    (t.rename (· + e.length)).subst (ofList (e ++ e')) = t.subst (ofList e') := by
  rw [subst_rename]
  congr 1
  funext i
  exact ofList_append_right e e' i

end Plain

namespace ConstructorShape

variable (K : ConstructorShape) {ps fs : List Plain}

theorem vars_subst (hp : ps.length = K.parameters.length) (hf : fs.length = K.fields.length) :
    (vars K.arity).map (subst (ofList (fs.reverse ++ ps.reverse))) = ps ++ fs := by
  have hl : K.arity = (fs.reverse ++ ps.reverse).length := by
    rw [arity, List.length_append, List.length_reverse, List.length_reverse, hp, hf, Nat.add_comm]
  rw [hl, Plain.vars_subst, List.reverse_append, List.reverse_reverse, List.reverse_reverse]

theorem familyAt_subst (hp : ps.length = K.parameters.length) (hf : fs.length = K.fields.length)
    (is : List Plain) :
    (K.familyAt is).subst (ofList (fs.reverse ++ ps.reverse)) =
      spine (.atom (.former K.family))
        (ps ++ is.map (subst (ofList (fs.reverse ++ ps.reverse)))) := by
  rw [familyAt, subst_spine, List.map_append, List.map_take, K.vars_subst hp hf,
    List.take_left' hp]
  rfl

theorem motiveAt_subst (hf : fs.length = K.fields.length) (M a : Plain) (is : List Plain) :
    (K.motiveAt is a).subst (ofList (fs.reverse ++ M :: ps.reverse)) =
      spine M (is.map (subst (ofList (fs.reverse ++ ps.reverse))) ++
        [a.subst (ofList (fs.reverse ++ M :: ps.reverse))]) := by
  have hl : K.fields.length = fs.reverse.length := by rw [List.length_reverse, hf]
  have hM : ofList (fs.reverse ++ M :: ps.reverse) K.fields.length = M := by
    have h := ofList_append_right fs.reverse (M :: ps.reverse) 0
    rwa [Nat.zero_add, ← hl] at h
  rw [motiveAt, subst_spine, subst, hM, List.map_append, List.map_map, hl]
  congr 2
  exact List.map_congr_left fun t _ => subst_skip t M _ _

theorem hypothesis_subst (hf : fs.length = K.fields.length) (M : Plain) {i : Nat} {a : Plain}
    (ha : fs[i]? = some a) (is : List Plain) :
    (K.hypothesis (K.parameters.length + i, is)).subst (ofList (fs.reverse ++ M :: ps.reverse)) =
      spine M (is.map (subst (ofList (fs.reverse ++ ps.reverse))) ++ [a]) := by
  have hi : i < fs.length := (List.getElem?_eq_some_iff.1 ha).1
  have hj : fs.reverse[fs.length - 1 - i]? = some a := by
    rw [List.getElem?_reverse (by omega), ← ha]
    congr 1
    omega
  rw [hypothesis, K.motiveAt_subst hf, subst, Nat.add_sub_cancel_left, ← hf,
    ofList_append_left _ (by rw [List.length_reverse]; omega), ofList_eq hj]

theorem arguments_subst (hp : ps.length = K.parameters.length) (hf : fs.length = K.fields.length)
    (M : Plain) :
    K.arguments.map (subst (ofList (fs.reverse ++ M :: ps.reverse))) = ps ++ fs := by
  rw [← K.vars_subst hp hf, arguments, List.map_map, ← hf, ← List.length_reverse]
  exact List.map_congr_left fun t _ => subst_skip t M _ _

end ConstructorShape

theorem getElem?_of_idxOf? {cs : List ConstructorId} {c : ConstructorId} {i : Nat}
    (h : cs.idxOf? c = some i) : cs[i]? = some c := by
  obtain ⟨hi, rfl, _⟩ := List.idxOf?_eq_some_iff.1 h
  exact List.getElem?_eq_getElem hi

/-- What the elimination of a construction computes to, if `m` is its method. -/
def Branch.plainContract (B : Branch) (m motive : Plain) (methods args : List Plain) : Plain :=
  spine m (args.drop B.parameterCount ++
    B.recursiveFields.map fun i => Plain.elim motive methods (args.getD i (.atom .hole)))

theorem Theory.branch_eq_some {c : ConstructorId} {B : Branch} (h : Θ.branch c = some B) :
    ∃ K D cs, Θ.constructor c = some K ∧ Θ.family K.family = some D ∧ D.constructors = some cs ∧
      cs.idxOf? c = some B.position ∧ B.arity = K.arity ∧
      B.parameterCount = K.parameters.length ∧ B.recursiveFields = K.recursive.map (·.1) := by
  simp only [Theory.branch, Option.bind_eq_bind, Option.bind_eq_some_iff, Option.some.injEq] at h
  obtain ⟨K, hK, D, hD, cs, hcs, i, hi, rfl⟩ := h
  exact ⟨K, D, cs, hK, hD, hcs, hi, rfl, rfl, rfl⟩

theorem HasType.con_inv {c : ConstructorId} {T : Plain} (h : HasType Θ Γ (.atom (.con c)) T) :
    ∃ K, Θ.constructor c = some K ∧ HasType Θ Γ (.atom (.con c)) (K.type.subst (ofList [])) := by
  obtain ⟨A, hA, _⟩ := h.declared_inv (by simp)
  obtain ⟨K, hK, rfl⟩ := Option.map_eq_some_iff.1 hA
  refine ⟨K, hK, ?_⟩
  rw [Θ.constructor_closed hK]
  exact .atom hA

theorem ConstructorShape.familyAt_ne_pi (K : ConstructorShape) (is : List Plain) (σ : Nat → Plain)
    (A B : Plain) : ¬ Θ.Equal ((K.familyAt is).subst σ) (.pi A B) := by
  rw [familyAt, subst_spine]
  exact fun h => h.symm.pi_ne_former

theorem HasType.former_inv {F : FamilyId} {T : Plain} (h : HasType Θ Γ (.atom (.former F)) T) :
    ∃ D, Θ.family F = some D ∧ HasType Θ Γ (.atom (.former F)) (D.type.subst (ofList [])) := by
  obtain ⟨A, hA, _⟩ := h.declared_inv (by simp)
  obtain ⟨D, hD, rfl⟩ := Option.map_eq_some_iff.1 hA
  refine ⟨D, hD, ?_⟩
  rw [Θ.family_closed hD]
  exact .atom hA

/-- **A former takes its arguments and is then a type.** -/
theorem HasType.spine_former_inv {F : FamilyId} {T : Plain} {as : List Plain}
    (h : HasType Θ Γ (spine (.atom (.former F)) as) T) :
    ∃ D, Θ.family F = some D ∧ as.length ≤ D.parameters.length + D.indices.length ∧
      (as.length < D.parameters.length + D.indices.length → ∃ A B, Θ.Equal (.pi A B) T) ∧
      (as.length = D.parameters.length + D.indices.length →
        Instance Θ Γ [] (D.parameters ++ D.indices) as ∧ Θ.Equal (.atom (.type D.level)) T) := by
  obtain ⟨G, hG⟩ := h.of_spine fun hp => nomatch hp.eq_atom
  obtain ⟨D, hD, hF⟩ := hG.former_inv
  refine ⟨D, hD, ?_⟩
  rw [← List.length_append]
  exact ⟨length_le_of_spine hF h fun σ A C e => e.type_ne_pi,
    eq_pi_of_spine_of_lt hF h, fun hl => Instance.of_spine hl hF h⟩

/-- **A constructor takes its arguments and is then in its family.** -/
theorem HasType.spine_con_inv {c : ConstructorId} {T : Plain} {as : List Plain}
    (h : HasType Θ Γ (spine (.atom (.con c)) as) T) :
    ∃ K, Θ.constructor c = some K ∧ as.length ≤ K.arity ∧
      (as.length < K.arity → ∃ A B, Θ.Equal (.pi A B) T) ∧
      (as.length = K.arity → Instance Θ Γ [] (K.parameters ++ K.fields) as ∧
        Θ.Equal ((K.familyAt K.target).subst (ofList (as.reverse ++ []))) T) := by
  obtain ⟨G, hG⟩ := h.of_spine fun hp => nomatch hp.eq_atom
  obtain ⟨K, hK, hc⟩ := hG.con_inv
  refine ⟨K, hK, ?_⟩
  rw [ConstructorShape.arity, ← List.length_append]
  exact ⟨length_le_of_spine hc h (K.familyAt_ne_pi K.target),
    eq_pi_of_spine_of_lt hc h, fun hl => Instance.of_spine hl hc h⟩

/-- **A construction in a family has all its arguments.** -/
theorem HasType.length_eq_arity {c : ConstructorId} {K : ConstructorShape} {F : FamilyId}
    {args bs : List Plain} (hK : Θ.constructor c = some K)
    (h : HasType Θ Γ (spine (.atom (.con c)) args) (spine (.atom (.former F)) bs)) :
    args.length = K.arity := by
  obtain ⟨K', hK', hle, hlt, _⟩ := h.spine_con_inv
  obtain rfl := Option.some.inj (hK.symm.trans hK')
  refine Nat.le_antisymm hle (Nat.not_lt.1 fun h => ?_)
  obtain ⟨A, B, e⟩ := hlt h
  exact e.pi_ne_former

/-- **The arguments of a type in a family after the parameters are indices.** -/
theorem HasType.indices {F : FamilyId} {D : FamilyShape} {as ps is : List Plain} {T : Plain}
    (hF : Θ.family F = some D) (hps : ps.length = D.parameters.length)
    (his : is.length = D.indices.length) (h : HasType Θ Γ (spine (.atom (.former F)) as) T)
    (e : List.Forall₂ Θ.Equal as (ps ++ is)) :
    Instance Θ Γ ps.reverse D.indices (as.drop D.parameters.length) := by
  obtain ⟨D', hD', _, _, hfull⟩ := h.spine_former_inv
  obtain rfl := Option.some.inj (hF.symm.trans hD')
  have hl : as.length = D.parameters.length + D.indices.length := by
    rw [e.length_eq, List.length_append, hps, his]
  have htake : (as.take D.parameters.length).length = D.parameters.length :=
    List.length_take_of_le (by omega)
  obtain ⟨hinst, _⟩ := hfull hl
  rw [← List.take_append_drop D.parameters.length as] at hinst e
  obtain ⟨_, hdrop⟩ := hinst.of_append htake
  rw [List.append_nil] at hdrop
  exact hdrop.conv (List.rel_reverse (forall₂_of_append e (htake.trans hps.symm)).1)

/-- **A motive at indices and at an element of the family at them is a type.** -/
theorem HasType.motive {F : FamilyId} {D : FamilyShape} {ps is : List Plain} {M t : Plain}
    {n : Nat} (hps : ps.length = D.parameters.length) (his : Instance Θ Γ ps.reverse D.indices is)
    (hM : HasType Θ Γ M (D.motiveType F ps n))
    (ht : HasType Θ Γ t (spine (.atom (.former F)) (ps ++ is))) :
    HasType Θ Γ (spine M (is ++ [t])) (.atom (.type n)) := by
  have hMis := his.spine hM
  have hl : D.parameters.length + D.indices.length = (is.reverse ++ ps.reverse).length := by
    rw [List.length_append, List.length_reverse, List.length_reverse, hps, his.length_eq,
      Nat.add_comm]
  rw [Plain.subst, subst_spine, hl, Plain.vars_subst, List.reverse_append, List.reverse_reverse,
    List.reverse_reverse] at hMis
  rw [spine_concat]
  exact .app hMis ht

/-- How the arguments of a construction, parameters `as` and fields `fs`, fit the family
`D` at the parameters `ps` and the indices `is`. -/
structure Construction (Θ : Theory) (Γ : List Plain) (K : ConstructorShape) (D : FamilyShape)
    (ps is as fs : List Plain) : Prop where
  valid : K.Valid Θ D
  length_eq : as.length = K.parameters.length
  parameters : List.Forall₂ Θ.Equal as ps
  fields : Instance Θ Γ as.reverse K.fields fs
  target : List.Forall₂ Θ.Equal (K.target.map (subst (ofList (fs.reverse ++ as.reverse)))) is

/-- **The arguments of a construction in a family fit the family.** -/
theorem HasType.construction (hΘ : Θ.Sound) {c : ConstructorId} {F : FamilyId} {D : FamilyShape}
    {args ps is : List Plain} (hF : Θ.family F = some D) (hps : ps.length = D.parameters.length)
    (h : HasType Θ Γ (spine (.atom (.con c)) args) (spine (.atom (.former F)) (ps ++ is))) :
    ∃ K as fs, Θ.constructor c = some K ∧ K.family = F ∧ args = as ++ fs ∧
      Construction Θ Γ K D ps is as fs := by
  obtain ⟨K, hK, _, _, hfull⟩ := h.spine_con_inv
  have hargs := h.length_eq_arity hK
  obtain ⟨hinst, hT⟩ := hfull hargs
  rw [List.append_nil] at hT
  obtain ⟨as, fs, rfl, has⟩ : ∃ as fs, args = as ++ fs ∧ as.length = K.parameters.length :=
    ⟨args.take K.parameters.length, args.drop K.parameters.length,
      (List.take_append_drop _ _).symm,
      List.length_take_of_le (by rw [hargs]; exact Nat.le_add_right _ _)⟩
  obtain ⟨_, hfs⟩ := hinst.of_append has
  rw [List.append_nil] at hfs
  rw [List.reverse_append, K.familyAt_subst has hfs.length_eq] at hT
  obtain ⟨rfl, hall⟩ := hT.former_inj
  obtain ⟨D', hD', hV⟩ := hΘ.constructor hK
  obtain rfl := Option.some.inj (hF.symm.trans hD')
  obtain ⟨heq, his⟩ := forall₂_of_append hall (by rw [has, hps, hV.parameters])
  exact ⟨K, as, fs, hK, rfl, rfl, hV, has, heq, hfs, his⟩

/-- **A recursive field is in the family at the same parameters.** -/
theorem Construction.recursiveField {K : ConstructorShape} {D : FamilyShape}
    {ps is as fs : List Plain} (hc : Construction Θ Γ K D ps is as fs) {field : Nat × List Plain}
    (hr : field ∈ K.recursive) :
    ∃ i a, field.1 = K.parameters.length + i ∧ fs[i]? = some a ∧
      HasType Θ Γ a (spine (.atom (.former K.family))
        (ps ++ field.2.map (Plain.subst (ofList (fs.reverse ++ ps.reverse))))) := by
  obtain ⟨_, i, A, hi, hA, e⟩ := hc.valid.recursive hr
  have hfs := hc.fields
  have hil : i < fs.length := hfs.length_eq ▸ (List.getElem?_eq_some_iff.1 hA).1
  refine ⟨i, fs[i], hi, List.getElem?_eq_getElem hil,
    .conv (hfs.getElem? (List.getElem?_eq_getElem hil) hA) ?_⟩
  -- Under all fields the type of the field is the family at its indices.
  have hsplit : fs.reverse = (fs.drop i).reverse ++ (fs.take i).reverse := by
    rw [← List.reverse_append, List.take_append_drop]
  have e := e.subst (ofList (fs.reverse ++ as.reverse))
  have hlen' : K.fields.length - i = (fs.drop i).reverse.length := by
    rw [List.length_reverse, List.length_drop, hfs.length_eq]
  rw [K.familyAt_subst hc.length_eq hfs.length_eq, hsplit, List.append_assoc, hlen',
    subst_rename_add, ← List.append_assoc, ← hsplit] at e
  refine e.trans (.spine (.refl _) (List.rel_append hc.parameters
    (Theory.Equal.map_subst_ofList _ ?_)))
  exact List.rel_append (Theory.Equal.refls _) (List.rel_reverse hc.parameters)

namespace HasType.Elimination

variable {M : Plain} {ms ps is : List Plain} {F : FamilyId} {D : FamilyShape}
  {cs : List ConstructorId} {n : Nat} {c : ConstructorId} {K : ConstructorShape}

/-- **All methods of an elimination are typed.** -/
theorem of_mem_methods (hΘ : Θ.Sound) {t m : Plain} (h : Elimination Θ Γ M ms t F D cs ps is n)
    (hm : m ∈ ms) : ∃ T, HasType Θ Γ m T := by
  obtain ⟨j, hj, rfl⟩ := List.getElem_of_mem hm
  have hj' : j < cs.length := h.methods ▸ hj
  obtain ⟨K, hK, _⟩ := (hΘ.constructors h.family h.constructors _).1 (List.getElem_mem hj')
  exact ⟨_, h.method (List.getElem?_eq_getElem hj) (List.getElem?_eq_getElem hj') hK⟩

/-- **A recursive field can be eliminated like the construction it belongs to.** -/
theorem recursiveField {as fs : List Plain} {t : Plain}
    (h : Elimination Θ Γ M ms t F D cs ps is n) (hF : K.family = F)
    (hc : Construction Θ Γ K D ps is as fs) {field : Nat × List Plain}
    (hr : field ∈ K.recursive) :
    ∃ i a, field.1 = K.parameters.length + i ∧ fs[i]? = some a ∧
      Elimination Θ Γ M ms a F D cs ps
        (field.2.map (Plain.subst (ofList (fs.reverse ++ ps.reverse)))) n := by
  obtain ⟨i, a, hi, ha, hT⟩ := hc.recursiveField hr
  rw [hF] at hT
  refine ⟨i, a, hi, ha, { h with target := hT, indices := ?_ }⟩
  rw [List.length_map, (hc.valid.recursive hr).1]

/-- **Parameters may be replaced by equal ones.** -/
theorem parameters_congr {t : Plain} {ps' is' : List Plain}
    (h : Elimination Θ Γ M ms t F D cs ps is n)
    (ht : HasType Θ Γ t (spine (.atom (.former F)) (ps' ++ is')))
    (hps : ps'.length = D.parameters.length) (his : is'.length = D.indices.length) :
    Elimination Θ Γ M ms t F D cs ps' is' n := by
  have e : List.Forall₂ Θ.Equal ps ps' := by
    obtain ⟨_, hall⟩ := (h.target.unique ht).former_inj
    exact (forall₂_of_append hall (h.parameters.trans hps.symm)).1
  exact { h with
    parameters := hps
    indices := his
    target := ht
    motive := .conv h.motive (.subst_ofList _ (List.rel_reverse e))
    method := fun hm hc hK =>
      .conv (h.method hm hc hK) (.subst_ofList _ (.cons (.refl M) (List.rel_reverse e))) }

/-- **The elimination of a construction and what it computes to have the same type.** -/
theorem contract (hΘ : Θ.Sound) {B : Branch} {m : Plain} {args : List Plain}
    (h : Elimination Θ Γ M ms (spine (.atom (.con c)) args) F D cs ps is n)
    (hB : Θ.branch c = some B) (hm : ms[B.position]? = some m) :
    HasType Θ Γ (B.plainContract m M ms args)
      (spine M (is ++ [spine (.atom (.con c)) args])) := by
  obtain ⟨K, as, fs, hK, rfl, rfl, hc⟩ := h.target.construction hΘ h.family h.parameters
  obtain ⟨K', D', cs', hK', hD', hcs', hpos, _, hpc, hrf⟩ := Theory.branch_eq_some hB
  obtain rfl := Option.some.inj (hK.symm.trans hK')
  obtain rfl := Option.some.inj (h.family.symm.trans hD')
  obtain rfl := Option.some.inj (h.constructors.symm.trans hcs')
  have hps : ps.length = K.parameters.length := by rw [hc.valid.parameters, h.parameters]
  have hrev := List.rel_reverse hc.parameters
  -- The fields are an instance of the first domains of the method.
  have hcm := h.method hm (getElem?_of_idxOf? hpos) hK
  have hfs : Instance Θ Γ (M :: ps.reverse) (renameTele Nat.succ K.fields) fs :=
    (hc.fields.conv hrev).renameTele fun i => rfl
  have hmf := hfs.spine hcm
  rw [arrows_subst, List.map_map] at hmf
  have hfl := hc.fields.length_eq
  -- The eliminations of the recursive fields have the types of the other domains.
  have hrs : List.Forall₂ (HasType Θ Γ)
      (B.recursiveFields.map fun i => Plain.elim M ms ((as ++ fs).getD i (.atom .hole)))
      (K.recursive.map
        (Plain.subst (ofList (fs.reverse ++ M :: ps.reverse)) ∘ K.hypothesis)) := by
    rw [hrf, List.map_map, List.forall₂_map_left_iff, List.forall₂_map_right_iff]
    refine List.forall₂_same.2 fun field hr => ?_
    obtain ⟨i, a, hi, ha, he⟩ := h.recursiveField rfl hc hr
    obtain ⟨_, idx⟩ := field
    obtain rfl : _ = K.parameters.length + i := hi
    have hga : (as ++ fs).getD (K.parameters.length + i) (.atom .hole) = a := by
      rw [← hc.length_eq, Nat.add_comm]
      exact (ofList_append_right as fs i).trans (ofList_eq ha)
    rw [Function.comp_apply, Function.comp_apply, hga, K.hypothesis_subst hfl M ha]
    exact he.hasType
  rw [Branch.plainContract, hpc, List.drop_left' hc.length_eq, spine_append]
  refine .conv (.arrows hrs hmf) ?_
  rw [K.motiveAt_subst hfl, subst_spine, K.arguments_subst hps hfl]
  refine .spine (.refl _) (List.rel_append ?_ (.cons (.spine (.refl _) ?_) .nil))
  · refine forall₂_comp (fun h h' => h.trans h') (Theory.Equal.map_subst_ofList _ ?_) hc.target
    exact List.rel_append (Theory.Equal.refls _) (Theory.Equal.symms hrev)
  · exact List.rel_append (Theory.Equal.symms hc.parameters) (Theory.Equal.refls _)

end HasType.Elimination

/-- **The parts of an elimination whose target is in a known family.** -/
theorem HasType.elimination {M t T : Plain} {ms ps is : List Plain} {F : FamilyId}
    {D : FamilyShape} (h : HasType Θ Γ (Plain.elim M ms t) T) (hD : Θ.family F = some D)
    (ht : HasType Θ Γ t (spine (.atom (.former F)) (ps ++ is)))
    (hps : ps.length = D.parameters.length) (his : is.length = D.indices.length) :
    ∃ cs n, Elimination Θ Γ M ms t F D cs ps is n := by
  obtain ⟨F', D', cs, ps', is', n, he, _⟩ := h.elim_inv
  obtain ⟨rfl, _⟩ := (he.target.unique ht).former_inj
  obtain rfl := Option.some.inj (he.family.symm.trans hD)
  exact ⟨cs, n, he.parameters_congr ht hps his⟩

end Constructions
