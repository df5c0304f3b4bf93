/-
# Motives and methods have the types of the rules

The kernel builds the type of a motive from opened domains, and the type of a method by
opening the fields of its constructor, applying the motive and reading everything back.

| procedure | finds |
| --- | --- |
| `motiveDomains` | the domains of `FamilyShape.motiveType` |
| `motiveLevel?` | the universe of a motive, if its type is such a type |
| `methodType` | a type that is equal to `ConstructorShape.methodType` |

None of them goes wrong on well-typed parameters and motives.
-/

import Constructions.Proofs.Telescope
import Constructions.Typing.Motive

namespace Constructions

open Plain

variable {Θ : Theory} {S : Signature} {L : Leaves} {ℓ : Nat → Plain} {level : Nat}
  {Γ : List Plain}

/-! ### Motives -/

/-- The type of motives, as a telescope of the indices and of the family at them. -/
theorem FamilyShape.motiveType_eq (D : FamilyShape) (id : FamilyId) {ps : List Plain}
    (hps : ps.length = D.parameters.length) (n : Nat) :
    D.motiveType id ps n = pis (substTele (ofList ps.reverse) D.indices ++
      [spine (.atom (.former id))
        (ps.map (rename (· + D.indices.length)) ++ vars D.indices.length)])
      (.atom (.type n)) := by
  have hl : D.parameters.length + D.indices.length =
      ((vars D.indices.length).reverse ++
        ps.reverse.map (rename (· + D.indices.length))).length := by
    simp [hps, Nat.add_comm]
  rw [motiveType, pis_subst, liftSubs_ofList, pis_append, Plain.subst, subst_spine, hl,
    Plain.vars_subst, List.reverse_append, List.reverse_reverse, List.map_reverse,
    List.reverse_reverse]
  rfl

section

variable (hΘ : Θ.Sound) (hS : Θ.Describes S) (hs : Scope Θ S L level ℓ)

include hΘ hS hs

/-- **The domains of a motive are those of the rule.** -/
theorem motiveDomains_post {id : FamilyId} {F : Family} {D : FamilyShape} {ps : List Value}
    (hD : Θ.family id = some D) (dF : D.Describes Θ id F) (hF : F.type.All L)
    (hps : Value.Alls L ps) (hi : Instance Θ Γ [] D.parameters (Value.plains ℓ ps)) (n : Nat) :
    Post (motiveDomains S n level F ps) (fun ds => TeleAll L level ds ∧ ∀ u,
      Θ.Equal (pis (telePlain ℓ level ds) (.atom (.type u)))
        (D.motiveType id (Value.plains ℓ ps) u) ∧
      ∃ m, HasType Θ Γ (pis (telePlain ℓ level ds) (.atom (.type u))) (.atom (.type m)))
      Halt.Resource := by
  have hFt : F.type.IsType Θ Γ L ℓ := by
    obtain ⟨u, hu⟩ := dF.valid ℓ
    exact ⟨hF, u, hu.weaken Γ⟩
  have hDt : D.type =
      (pis D.parameters (pis D.indices (.atom (.type D.level)))).subst (ofList []) := by
    rw [← pis_append]
    exact (Θ.family_closed hD _).symm
  refine Post.bind (hFt.instantiates hΘ hS hs hps (hDt ▸ dF.type ℓ) hi n) fun ty _ ⟨hty, e⟩ => ?_
  rw [List.append_nil, pis_subst] at e
  refine Post.bind (hty.telescope hΘ hS n hs) fun T _ hT => ?_
  -- All indices are opened, since a universe is no function type.
  have hlen : T.length = D.indices.length := by
    have hle := hT.length_le e fun A C e => e.type_ne_pi
    have hge := hT.le_length hty hΘ hs e (.inl rfl)
    rw [length_substTele] at hle hge
    exact Nat.le_antisymm hle hge
  obtain ⟨hds, _⟩ := hT.domains_equal e (by rw [hlen, length_substTele])
  have hfam : (Value.former F.id (ps ++ T.parameters)).plain (extendBy ℓ level T.length) =
      spine (.atom (.former id)) ((Value.plains ℓ ps).map (rename (· + T.length)) ++
        vars T.length) := by
    rw [Value.plain, Value.plains_append, Value.plains_extendBy hs.below hps, hT.plains_parameters,
      dF.id]
  have htele : telePlain ℓ level (T.domains ++ [.former F.id (ps ++ T.parameters)]) =
      telePlain ℓ level T.domains ++ [spine (.atom (.former id))
        ((Value.plains ℓ ps).map (rename (· + T.length)) ++ vars T.length)] := by
    rw [telePlain_append, Opened.length_domains, ← hfam]
    rfl
  refine ⟨teleAll_append hT.domains ⟨?_, trivial⟩, fun u => ⟨?_, ?_⟩⟩
  · rw [Opened.length_domains]
    exact Value.alls_append.2 ⟨hps.mono (L.le_binds level T.length), hT.alls_parameters⟩
  · rw [htele, D.motiveType_eq id hi.length_eq, ← hlen]
    exact .pis (List.rel_append hds (.cons (.refl _) .nil)) (.refl _)
  · -- The family at the parameters takes the variables of the indices.
    have hformer : HasType Θ Γ (.atom (.former id)) (D.type) :=
      .atom (congrArg (Option.map FamilyShape.type) hD)
    rw [hDt] at hformer
    have hat := hi.spine hformer
    rw [List.append_nil, pis_subst] at hat
    obtain ⟨m, hm⟩ := hT.typed hty hΘ
    have hvars := (hat.conv (Theory.Equal.pis hds (.refl _)).symm).spine_vars
    rw [length_telePlain, Opened.length_domains, rename_spine, ← spine_append] at hvars
    rw [htele, pis_append]
    exact hm.pis_replace (.pi hvars (.type u))

/-- **The type of a motive is recognized.** -/
theorem motiveLevel?_post {ds : List Value} {type : Value} (hds : TeleAll L level ds)
    {B : Plain} {u : Nat} (h : HasType Θ Γ (pis (telePlain ℓ level ds) B) (.atom (.type u)))
    (ht : type.IsType Θ Γ L ℓ) (n : Nat) :
    Post (motiveLevel? S n level ds type) (fun o => ∀ m,
      Θ.Equal (type.plain ℓ) (pis (telePlain ℓ level ds) (.atom (.type m))) ↔
        ∃ l, o = some l ∧ l.toNat = m) Halt.Resource := by
  refine Post.bind (ht.telescope hΘ hS n hs) fun T _ hT => ?_
  have hlen {m : Nat} (e : Θ.Equal (type.plain ℓ) (pis (telePlain ℓ level ds) (.atom (.type m)))) :
      T.length = ds.length := by
    have hge := hT.le_length ht hΘ hs e (.inr (by rw [length_telePlain]))
    rw [length_telePlain] at hge
    exact Nat.le_antisymm (hT.le rfl) hge
  have hno (hm : ∀ m, ¬ Θ.Equal (type.plain ℓ) (pis (telePlain ℓ level ds) (.atom (.type m))))
      (m : Nat) : Θ.Equal (type.plain ℓ) (pis (telePlain ℓ level ds) (.atom (.type m))) ↔
        ∃ l, (none : Option UInt64) = some l ∧ l.toNat = m :=
    iff_of_false (hm m) fun ⟨_, e, _⟩ => nomatch e
  split
  · next hl =>
    obtain ⟨m, hm⟩ := hT.typed ht hΘ
    have hlen' : T.domains.length = ds.length := (Opened.length_domains T).trans hl
    refine Post.bind (convertDomains_decides hΘ hS hs hlen' hT.domains hds hm h) fun b _ hb => ?_
    cases b with
    | false =>
      refine hno fun m e => Bool.false_ne_true (hb.2 ?_)
      exact (hT.domains_equal e (by rw [hl, length_telePlain])).1
    | true =>
      have hbody {m : Nat}
          (e : Θ.Equal (type.plain ℓ) (pis (telePlain ℓ level ds) (.atom (.type m)))) :
          ∃ l, T.body = .type l ∧ l.toNat = m :=
        (hT.isType_body ht hΘ).eq_type (hs.binds T.length)
          (hT.domains_equal e (by rw [hl, length_telePlain])).2
      rw [if_pos rfl]
      split
      · next l hl' =>
        refine fun m => ⟨fun e => ?_, ?_⟩
        · obtain ⟨l', e', hm⟩ := hbody e
          rw [hl'] at e'
          cases e'
          exact ⟨l, rfl, hm⟩
        · rintro ⟨_, e, rfl⟩
          cases e
          have e := hT.reds.equal
          rw [hl'] at e
          exact e.trans (.pis (hb.1 rfl) (.refl _))
      · next hne =>
        refine hno fun m e => ?_
        obtain ⟨l, e', _⟩ := hbody e
        exact hne l e'
  · next hl => exact hno fun m e => hl (hlen e)

/-! ### Methods -/

/-- A value is a type in the universe `u` that is equal to `A`. -/
structure Value.Realizes (Θ : Theory) (Γ : List Plain) (L : Leaves) (ℓ : Nat → Plain) (u : Nat)
    (A : Plain) (v : Value) : Prop where
  all : v.All L
  typed : HasType Θ Γ (v.plain ℓ) (.atom (.type u))
  equal : Θ.Equal (v.plain ℓ) A

/-- **A motive at the indices of a type in the family and at an element of it.** -/
theorem motiveAt_post {F : FamilyId} {D : FamilyShape} (hD : Θ.family F = some D)
    {ps is : List Plain} (hps : ps.length = D.parameters.length)
    (his : is.length = D.indices.length) {ty a M : Value} {u : Nat} (hty : ty.IsType Θ Γ L ℓ)
    (e : Θ.Equal (ty.plain ℓ) (spine (.atom (.former F)) (ps ++ is)))
    (ha : a.All L) (hat : HasType Θ Γ (a.plain ℓ) (ty.plain ℓ)) (hM : M.All L)
    (hMt : HasType Θ Γ (M.plain ℓ) (D.motiveType F ps u)) (n : Nat) :
    Post (motiveAt S n D.parameters.length M ty a)
      (Value.Realizes Θ Γ L ℓ u (spine (M.plain ℓ) (is ++ [a.plain ℓ]))) Halt.Resource := by
  obtain ⟨bs, rfl, hbs⟩ := hty.eq_former hs e
  have hle : D.parameters.length ≤ bs.length := by
    have := hbs.length_eq
    rw [Value.length_plains, List.length_append, hps] at this
    omega
  obtain ⟨_, hbt⟩ := hty.typed
  have hdrop := Value.plains_drop ℓ D.parameters.length bs
  -- The indices of the type are equal to the given ones.
  have hds : List.Forall₂ Θ.Equal (Value.plains ℓ (bs.drop D.parameters.length)) is := by
    rw [hdrop, ← @List.drop_left' _ ps is _ hps]
    exact List.forall₂_drop _ hbs
  have hinst := hbt.indices hD hps his hbs
  rw [← hdrop] at hinst
  have hmot := HasType.motive (t := a.plain ℓ) hps hinst hMt (hat.conv (e.trans
    (.spine (.refl _) (List.rel_append (Theory.Equal.refls ps) (Theory.Equal.symms hds)))))
  have happ := Value.plains_append ℓ (bs.drop D.parameters.length) [a]
  rw [Value.plains, Value.plains] at happ
  rw [← happ] at hmot
  have hall : Value.Alls L (bs.drop D.parameters.length ++ [a]) := by
    refine Value.alls_append.2 ⟨Value.alls_iff.2 fun b hb => ?_, ha, trivial⟩
    exact Value.alls_iff.1 hty.all b (List.mem_of_mem_drop hb)
  rw [motiveAt, Value.indices, if_pos hle]
  refine .intro (fun v hv => ?_) fun h hh => ?_
  · have hr := Value.applyAll_reds (Value.apply_reds hS) hv ℓ
    refine ⟨Value.applyAll_all (Value.apply_all hs.closed) hM hall hv, hmot.reds hΘ hr,
      hr.equal.symm.trans (.spine (.refl _) ?_)⟩
    rw [happ]
    exact List.rel_append hds (.cons (.refl _) .nil)
  · exact Post.of_error (Value.applyAll_safe hΘ hS hs.levelMap hmot) hh

end

/-- The opened fields of a constructor at parameters: the variables of the fields are the fields
of a construction, and what stands behind them is the family at its indices. -/
structure OpenedFields (Θ : Theory) (Γ : List Plain) (ℓ : Nat → Plain) (level : Nat)
    (c : ConstructorId) (C : ConstructorShape) (D : FamilyShape) (ps : List Plain) (T : Telescope) :
    Prop where
  length : T.length = C.fields.length
  domains : List.Forall₂ Θ.Equal (telePlain ℓ level T.domains)
    (substTele (ofList ps.reverse) C.fields)
  construction : Construction Θ ((telePlain ℓ level T.domains).reverse ++ Γ) C D
    (ps.map (rename (· + T.length)))
    (C.target.map (subst (ofList ((vars T.length).reverse ++
      (ps.map (rename (· + T.length))).reverse))))
    (ps.map (rename (· + T.length))) (vars T.length)
  body : Θ.Equal (T.body.plain (extendBy ℓ level T.length)) (spine (.atom (.former C.family))
    (ps.map (rename (· + T.length)) ++ C.target.map (subst (ofList ((vars T.length).reverse ++
      (ps.map (rename (· + T.length))).reverse)))))
  element : HasType Θ ((telePlain ℓ level T.domains).reverse ++ Γ)
    (spine (.atom (.con c)) (ps.map (rename (· + T.length)) ++ vars T.length))
    (T.body.plain (extendBy ℓ level T.length))

section

variable (hΘ : Θ.Sound) (hS : Θ.Describes S) (hs : Scope Θ S L level ℓ) {c : ConstructorId}
  {C : ConstructorShape} {D : FamilyShape} (hC : Θ.constructor c = some C) (hV : C.Valid Θ D)
  {ps : List Value} (hi : Instance Θ Γ [] D.parameters (Value.plains ℓ ps))

include hΘ hs hC hV hi

/-- **The fields of a constructor are opened.** -/
theorem Opened.fields {ty : Value} {T : Telescope} (hty : ty.IsType Θ Γ L ℓ)
    (hT : Opened Θ L ℓ level (some C.fields.length) ty T)
    (e : Θ.Equal (ty.plain ℓ) ((pis C.fields (C.familyAt C.target)).subst
      (ofList (Value.plains ℓ ps).reverse))) :
    OpenedFields Θ Γ ℓ level c C D (Value.plains ℓ ps) T := by
  have e' := e
  rw [pis_subst] at e'
  have hlen : T.length = C.fields.length := by
    have hge := hT.le_length hty hΘ hs e' (.inr (by rw [length_substTele]))
    rw [length_substTele] at hge
    exact Nat.le_antisymm (hT.le rfl) hge
  obtain ⟨hds, _⟩ := hT.domains_equal e' (by rw [hlen, length_substTele])
  rw [← hV.parameters] at hi
  -- The constructor takes the parameters, and then the variables of its fields.
  have hcon : HasType Θ Γ (.atom (.con c))
      ((pis C.parameters (pis C.fields (C.familyAt C.target))).subst (ofList [])) := by
    rw [← pis_append]
    exact (Θ.constructor_closed hC (ofList [])).symm ▸
      .atom (congrArg (Option.map ConstructorShape.type) hC)
  have hat := hi.spine hcon
  rw [List.append_nil] at hat
  have hvars := (hat.conv (e.symm.trans hT.reds.equal)).spine_vars
  have hat' := hat.shifts (telePlain ℓ level T.domains).reverse
  rw [rename_ofList, List.map_reverse] at hat'
  rw [length_telePlain, Opened.length_domains] at hvars
  rw [List.length_reverse, length_telePlain, Opened.length_domains] at hat'
  obtain ⟨hfs, hbody⟩ := Instance.of_spine (by rw [length_vars, hlen]) hat' hvars
  have hpl : ((Value.plains ℓ ps).map (rename (· + T.length))).length = C.parameters.length := by
    rw [List.length_map, hi.length_eq]
  rw [C.familyAt_subst hpl (by rw [length_vars, hlen])] at hbody
  rw [rename_spine, ← spine_append] at hvars
  exact ⟨hlen, hds, ⟨hV, hpl, Theory.Equal.refls _, hfs, Theory.Equal.refls _⟩, hbody.symm, hvars⟩

end

/-- **The domain of an opened binder, seen behind all binders, is the type of its variable.** -/
theorem Opened.isType_domain (hΘ : Θ.Sound) (hs : Scope Θ S L level ℓ) {limit : Option Nat}
    {ty : Value} {T : Telescope} (h : Opened Θ L ℓ level limit ty T) (hty : ty.IsType Θ Γ L ℓ)
    {i : Nat} {b : OpenedBinder} (hb : T.binders[i]? = some b) :
    b.domain.IsType Θ ((telePlain ℓ level T.domains).reverse ++ Γ) (L.binds level T.length)
        (extendBy ℓ level T.length) ∧
      b.parameter.All (L.binds level T.length) ∧
      b.parameter.plain (extendBy ℓ level T.length) = .var (T.length - 1 - i) ∧
      HasType Θ ((telePlain ℓ level T.domains).reverse ++ Γ)
        (b.parameter.plain (extendBy ℓ level T.length))
        (b.domain.plain (extendBy ℓ level T.length)) := by
  have hil : i < T.length := (List.getElem?_eq_some_iff.1 hb).1
  have hd : T.domains[i]? = some b.domain := by rw [Telescope.domains, List.getElem?_map, hb]; rfl
  obtain ⟨j, hj⟩ := Nat.exists_eq_add_of_le (Nat.le_of_lt hil)
  have hda := h.domains.getElem? hd
  have hpl : b.domain.plain (extendBy ℓ level T.length) =
      (b.domain.plain (extendBy ℓ level i)).rename (· + j) := by
    rw [hj, extendBy_append, Value.plain_extendBy (hs.binds i).below hda]
  have htele := getElem?_telePlain ℓ level T.domains i
  rw [hd, Option.map_some] at htele
  have hlt : (telePlain ℓ level T.domains).length = T.length := by
    rw [length_telePlain, length_domains]
  obtain ⟨m, hm⟩ := h.typed hty hΘ
  obtain ⟨m, hm⟩ := hm.pis_domain htele
  obtain ⟨label, hp⟩ := h.parameter hb
  have hvar : b.parameter.plain (extendBy ℓ level T.length) = .var (T.length - 1 - i) := by
    rw [hp]
    exact extendBy_add ℓ hil
  refine ⟨⟨?_, m, ?_⟩, ?_, hvar, ?_⟩
  · rw [hj, Leaves.binds_append]
    exact hda.mono (Leaves.le_binds _ _ _)
  · have hm := hm.shifts ((telePlain ℓ level T.domains).drop i).reverse
    rw [← List.append_assoc, ← List.reverse_append, List.take_append_drop, List.length_reverse,
      List.length_drop, hlt, show T.length - i = j by omega] at hm
    rw [hpl]
    exact hm
  · rw [hp]
    exact L.level_binds hil
  · have hlook := Lookup.telescope (Γ := Γ) htele
    rw [hlt, show T.length - i = j by omega, ← hpl] at hlook
    rw [hvar]
    exact .var hlook

section

variable (hΘ : Θ.Sound) (hS : Θ.Describes S) (hs : Scope Θ S L level ℓ) {c : ConstructorId}
  {C : ConstructorShape} {D : FamilyShape} (hD : Θ.family C.family = some D) {ps : List Plain}
  {M : Value} {u : Nat} (hM : M.All L) (hMt : HasType Θ Γ (M.plain ℓ) (D.motiveType C.family ps u))
  {limit : Option Nat} {ty : Value} {T : Telescope} (hfs : OpenedFields Θ Γ ℓ level c C D ps T)

include hΘ hS hs hD hM hMt hfs

/-- A motive is applied behind the opened fields as it is outside of them. -/
theorem OpenedFields.motiveAt_post {is : List Plain} (his : is.length = D.indices.length)
    {dom a : Value}
    (hdom : dom.IsType Θ ((telePlain ℓ level T.domains).reverse ++ Γ) (L.binds level T.length)
      (extendBy ℓ level T.length))
    (e : Θ.Equal (dom.plain (extendBy ℓ level T.length)) (spine (.atom (.former C.family))
      (ps.map (rename (· + T.length)) ++ is)))
    (ha : a.All (L.binds level T.length))
    (hat : HasType Θ ((telePlain ℓ level T.domains).reverse ++ Γ)
      (a.plain (extendBy ℓ level T.length)) (dom.plain (extendBy ℓ level T.length))) (n : Nat) :
    Post (motiveAt S n C.parameters.length M dom a)
      (Value.Realizes Θ ((telePlain ℓ level T.domains).reverse ++ Γ) (L.binds level T.length)
        (extendBy ℓ level T.length) u (spine ((M.plain ℓ).rename (· + T.length))
          (is ++ [a.plain (extendBy ℓ level T.length)]))) Halt.Resource := by
  have hMt' := hMt.shifts (telePlain ℓ level T.domains).reverse
  rw [List.length_reverse, length_telePlain, Opened.length_domains,
    ← Value.plain_extendBy hs.below hM, FamilyShape.rename_motiveType] at hMt'
  have hps : (ps.map (rename (· + T.length))).length = D.parameters.length := by
    rw [hfs.construction.length_eq, hfs.construction.valid.parameters]
  rw [hfs.construction.valid.parameters, ← Value.plain_extendBy hs.below hM]
  exact Constructions.motiveAt_post hΘ hS (hs.binds T.length) hD hps his hdom e ha hat
    (hM.mono (L.le_binds level T.length)) hMt' n

/-- **A recursive field adds the hypothesis of the rule.** -/
theorem OpenedFields.hypothesis_post (hty : ty.IsType Θ Γ L ℓ)
    (hT : Opened Θ L ℓ level limit ty T) {field : Nat × List Plain}
    (hr : field ∈ C.recursive) (n : Nat) :
    Post (hypothesis S n C.parameters.length T M field.1)
      (Value.Realizes Θ ((telePlain ℓ level T.domains).reverse ++ Γ) (L.binds level T.length)
        (extendBy ℓ level T.length) u ((C.hypothesis field).subst
          (ofList ((vars T.length).reverse ++ (M.plain ℓ).rename (· + T.length) ::
            (ps.map (rename (· + T.length))).reverse)))) Halt.Resource := by
  obtain ⟨i, a, hi, ha, hat⟩ := hfs.construction.recursiveField hr
  obtain ⟨hlen, _⟩ := hfs.construction.valid.recursive hr
  obtain ⟨position, is⟩ := field
  obtain rfl : position = C.parameters.length + i := hi
  have hil : i < T.length := by simpa using (List.getElem?_eq_some_iff.1 ha).1
  have hb := List.getElem?_eq_getElem hil
  rw [getElem?_vars hil] at ha
  cases ha
  obtain ⟨hdom, hpa, hvar, hpt⟩ := hT.isType_domain hΘ hs hty hb
  have e : Θ.Equal _ _ := hpt.unique (hvar ▸ hat)
  rw [C.hypothesis_subst (by rw [length_vars, hfs.length]) _ (getElem?_vars hil), hypothesis,
    Nat.add_sub_cancel_left, hb]
  refine (hfs.motiveAt_post hΘ hS hs hD hM hMt (by rw [List.length_map, hlen]) hdom e hpa
    hpt n).mono (fun v ⟨hv, hvt, e⟩ => ⟨hv, hvt, ?_⟩) fun _ h => h
  rwa [hvar] at e

end

/-! ### Reading back -/

theorem Term.all_bind {t : Term} {n : Nat} : t.All (L.bind n) ↔ t.All L :=
  ⟨@Term.All.mono (L.bind n) L (fun _ h => h) (fun _ h => h) t,
    @Term.All.mono L (L.bind n) (fun _ h => h) (fun _ h => h) t⟩

/-- Domains and a body that do not depend on each other. -/
theorem pis_telePlain {vs : List Value} {r : Value} (hL : L.Below level) (hvs : Value.Alls L vs)
    (hr : r.All L) :
    pis (telePlain ℓ level vs) (r.plain (extendBy ℓ level vs.length)) =
      arrows (Value.plains ℓ vs) (r.plain ℓ) := by
  induction vs generalizing L ℓ level with
  | nil => rfl
  | cons v vs ih =>
    have hle := L.le_bind level
    refine congrArg (Plain.pi (v.plain ℓ)) ((ih hL.bind (hvs.2.mono hle) (hr.mono hle)).trans ?_)
    rw [Value.plains_extend hL hvs.2, Value.plain_extend hL hr]
    exact (arrows_shift _ _).symm

theorem teleAll_of_alls {vs : List Value} (hvs : Value.Alls L vs) : TeleAll L level vs := by
  induction vs generalizing L level with
  | nil => trivial
  | cons v vs ih => exact ⟨hvs.1, ih (hvs.2.mono (L.le_bind level))⟩

section

variable (hΘ : Θ.Sound) (hS : Θ.Describes S)

include hΘ hS

/-- **Reading back a typed value.** -/
theorem Value.readBack_post (hs : Scope Θ S L level ℓ) {σ : Nat → Plain}
    (hσ : Inverse L level ℓ σ) {v : Value} (hv : v.All L) {T : Plain}
    (h : HasType Θ Γ (v.plain ℓ) T) (n : Nat) :
    Post (v.readBack S n level) (fun t => t.All L ∧ Reds Θ (v.plain ℓ) (t.plain.subst σ))
      Halt.Resource :=
  .intro (fun _ e => ⟨Value.readBack_all hs.closed hs.named hv e,
      Value.readBack_reds hS hs.closed hs.below hσ hv e⟩)
    fun _ e => Post.of_error (Value.readBack_safe hΘ hS hs.closed hs.below hs.levelMap hv h) e

/-- **Binders are read back around a body.** -/
theorem readBackPis_post {n u : Nat} {r : Value} {binders : List (Label × Value)}
    {σ : Nat → Plain} (hs : Scope Θ S L level ℓ) (hσ : Inverse L level ℓ σ)
    (hds : TeleAll L level (binders.map (·.2))) (hr : r.All (L.binds level binders.length))
    (h : HasType Θ Γ (pis (telePlain ℓ level (binders.map (·.2)))
      (r.plain (extendBy ℓ level binders.length))) (.atom (.type u))) :
    Post (readBackPis S n level binders (r.readBack S n (level + binders.length)))
      (fun t => t.All L ∧ Reds Θ (pis (telePlain ℓ level (binders.map (·.2)))
        (r.plain (extendBy ℓ level binders.length))) (t.plain.subst σ)) Halt.Resource := by
  induction binders generalizing L ℓ level Γ σ u with
  | nil => exact Value.readBack_post hΘ hS hs hσ hr h n
  | cons b binders ih =>
    obtain ⟨label, d⟩ := b
    obtain ⟨_, _, hd, hb, _⟩ := h.pi_inv
    rw [List.length_cons, show level + (binders.length + 1) = level + 1 + binders.length by omega]
    refine Post.bind (ih hs.bind (hσ.bind hs.below) hds.2 hr hb) fun b _ ⟨hba, hbr⟩ => ?_
    refine Post.bind (Value.readBack_post hΘ hS hs hσ hds.1 hd n) fun d' _ ⟨hda, hdr⟩ => ?_
    exact ⟨⟨hda, Term.all_bind.1 hba⟩, .pi hdr hbr⟩

/-- **Opened binders, types behind them and a result are read back and evaluated again.** -/
theorem Opened.readBack_post (hs : Scope Θ S L level ℓ) {env : Env} (henv : Value.Alls L env)
    (hσ : Inverse L level ℓ (ofList (Value.plains ℓ env))) {limit : Option Nat} {ty : Value}
    {T : Telescope} (hty : ty.IsType Θ Γ L ℓ) (hT : Opened Θ L ℓ level limit ty T) {u : Nat}
    {As : List Plain} {B : Plain} {hyps : List Value} {r : Value}
    (hhyps : List.Forall₂ (Value.Realizes Θ ((telePlain ℓ level T.domains).reverse ++ Γ)
      (L.binds level T.length) (extendBy ℓ level T.length) u) As hyps)
    (hr : r.Realizes Θ ((telePlain ℓ level T.domains).reverse ++ Γ) (L.binds level T.length)
      (extendBy ℓ level T.length) u B)
    {binders : List (Label × Value)} (hsnd : binders.map (·.2) = T.domains ++ hyps) (n : Nat) :
    Post (do
        let t ← readBackPis S n level binders (r.readBack S n (level + binders.length))
        t.eval S n env)
      (fun v => v.IsType Θ Γ L ℓ ∧ Θ.Equal (v.plain ℓ)
        (pis (telePlain ℓ level T.domains) (arrows As B))) Halt.Resource := by
  have hall : Value.Alls (L.binds level T.length) hyps :=
    Value.alls_iff.2 (forall_mem_of_forall₂ (hhyps.imp fun _ _ h => h.all))
  have hlen : binders.length = T.length + hyps.length := by
    rw [← List.length_map (·.2), hsnd, List.length_append, length_domains]
  -- The binders are in the scope of each other, the types behind them are not.
  have hpis : pis (telePlain ℓ level (binders.map (·.2)))
      (r.plain (extendBy ℓ level binders.length)) =
      pis (telePlain ℓ level T.domains) (arrows (Value.plains (extendBy ℓ level T.length) hyps)
        (r.plain (extendBy ℓ level T.length))) := by
    rw [hsnd, hlen, telePlain_append, length_domains, pis_append, extendBy_append,
      pis_telePlain (hs.binds T.length).below hall hr.all]
  obtain ⟨v, htyped⟩ : ∃ v, HasType Θ Γ (pis (telePlain ℓ level (binders.map (·.2)))
      (r.plain (extendBy ℓ level binders.length))) (.atom (.type v)) := by
    obtain ⟨_, hm⟩ := hT.typed hty hΘ
    have hAs : ∀ A ∈ Value.plains (extendBy ℓ level T.length) hyps,
        HasType Θ ((telePlain ℓ level T.domains).reverse ++ Γ) A (.atom (.type u)) := by
      intro A hA
      rw [Value.plains_eq_map] at hA
      obtain ⟨v, hv, rfl⟩ := List.mem_map.1 hA
      exact forall_mem_of_forall₂ (hhyps.imp fun _ _ h => h.typed) v hv
    obtain ⟨_, hb⟩ := HasType.isType_arrows hAs hr.typed
    rw [hpis]
    exact hm.pis_replace hb
  refine Post.bind (readBackPis_post hΘ hS hs hσ ?_ ?_ htyped) fun t _ ⟨hta, hred⟩ => ?_
  · rw [hsnd]
    refine teleAll_append hT.domains ?_
    rw [length_domains]
    exact teleAll_of_alls hall
  · rw [hlen, Leaves.binds_append]
    exact hr.all.mono (Leaves.le_binds _ _ _)
  have htt := htyped.reds hΘ hred
  refine .intro (fun w hw => ?_) fun h hh => Post.of_error (Term.eval_safe hΘ hS hs.levelMap htt) hh
  have hwr := Term.eval_reds hS hw ℓ
  refine ⟨⟨Term.eval_all hs.closed henv hta hw, v, htt.reds hΘ hwr⟩,
    hwr.equal.symm.trans (hred.equal.symm.trans ?_)⟩
  rw [hpis, Value.plains_eq_map]
  refine .pis (Theory.Equal.refls _) (.arrows ?_ hr.equal)
  rw [List.forall₂_map_left_iff]
  exact hhyps.flip.imp fun _ _ h => h.equal

end

/-- The type of a method, as a telescope of the fields. -/
theorem ConstructorShape.methodType_eq (C : ConstructorShape) (c : ConstructorId) (ps : List Plain)
    (M : Plain) :
    C.methodType c ps M = pis (substTele (ofList ps.reverse) C.fields)
      ((arrows (C.recursive.map C.hypothesis)
        (C.motiveAt C.target (spine (.atom (.con c)) C.arguments))).subst
        (ofList ((vars C.fields.length).reverse ++ M.rename (· + C.fields.length) ::
          (ps.map (rename (· + C.fields.length))).reverse))) := by
  rw [methodType, methodScheme, pis_subst, substTele_renameTele, liftSubs_ofList,
    length_renameTele, List.map_cons, List.map_reverse]
  rfl

/-- **The type of a method is that of the rule.** -/
theorem methodType_post (hΘ : Θ.Sound) (hS : Θ.Describes S) (hs : Scope Θ S L level ℓ)
    {c : ConstructorId} {K : Constructor} {C : ConstructorShape} {D : FamilyShape}
    (hC : Θ.constructor c = some C) (dK : C.Describes Θ c K) (hK : K.type.All L)
    (hD : Θ.family C.family = some D) (hV : C.Valid Θ D) {ps : List Value}
    (hps : Value.Alls L ps) (hi : Instance Θ Γ [] D.parameters (Value.plains ℓ ps)) {M : Value}
    {u : Nat} (hM : M.All L)
    (hMt : HasType Θ Γ (M.plain ℓ) (D.motiveType C.family (Value.plains ℓ ps) u)) {env : Env}
    (henv : Value.Alls L env) (hσ : Inverse L level ℓ (ofList (Value.plains ℓ env))) (n : Nat) :
    Post (methodType S n level env K ps M) (fun v => v.IsType Θ Γ L ℓ ∧
      Θ.Equal (v.plain ℓ) (C.methodType c (Value.plains ℓ ps) (M.plain ℓ))) Halt.Resource := by
  have hKt : K.type.IsType Θ Γ L ℓ := by
    obtain ⟨u, hu⟩ := dK.valid ℓ
    exact ⟨hK, u, hu.weaken Γ⟩
  have hCt : C.type =
      (pis C.parameters (pis C.fields (C.familyAt C.target))).subst (ofList []) := by
    rw [← pis_append]
    exact (Θ.constructor_closed hC _).symm
  refine Post.bind (hKt.instantiates hΘ hS hs hps (hCt ▸ dK.type ℓ) (hV.parameters ▸ hi) n)
    fun ty _ ⟨hty, e⟩ => ?_
  rw [List.append_nil] at e
  rw [← dK.fields]
  refine Post.bind (hty.telescope hΘ hS n hs) fun T _ hT => ?_
  have hfs := hT.fields hΘ hs hC hV hi hty e
  rw [← dK.parameters, ← dK.recursive, List.mapM_map]
  refine Post.bind (Post.mapM fun field hr =>
    hfs.hypothesis_post hΘ hS hs hD hM hMt hty hT hr n) fun hyps _ hhyps => ?_
  have hcon : (Value.con K.id (ps ++ T.parameters)).plain (extendBy ℓ level T.length) =
      spine (.atom (.con c)) ((Value.plains ℓ ps).map (rename (· + T.length)) ++
        vars T.length) := by
    rw [Value.plain, Value.plains_append, Value.plains_extendBy hs.below hps, hT.plains_parameters,
      dK.id]
  refine Post.bind (hfs.motiveAt_post hΘ hS hs hD hM hMt (by rw [List.length_map, hV.target])
    (hT.isType_body hty hΘ) hfs.body (a := .con K.id (ps ++ T.parameters))
    (Value.alls_append.2 ⟨hps.mono (L.le_binds level T.length), hT.alls_parameters⟩)
    (hcon ▸ hfs.element) n) fun r _ hr => ?_
  rw [hcon] at hr
  refine (hT.readBack_post hΘ hS hs henv hσ hty (List.forall₂_map_left_iff.2 hhyps) hr ?_ n).mono
    (fun v ⟨hv, e⟩ => ⟨hv, e.trans ?_⟩) fun _ h => h
  · simp [Telescope.domains, Function.comp_def]
  have hfl : (vars T.length).length = C.fields.length := by rw [length_vars, hfs.length]
  rw [C.methodType_eq, ← hfs.length, arrows_subst, List.map_map, C.motiveAt_subst hfl, subst_spine,
    C.arguments_subst hfs.construction.length_eq hfl]
  exact .pis hfs.domains (.refl _)

end Constructions
