/-
# Conversion decides equality

Comparing two well-typed values of similar types answers whether they are equal
(`Value.convert_decides`); it does not go wrong, and it can only use up its fuel.

The types have to be similar.  Comparing two functions first compares their domains, which
says nothing about the functions; for similar types the domains are equal, so the
comparison goes on to the bodies.  The types of two values that wait need not be related:
if the values are equal, so are the types.
-/

import Constructions.Proofs.Conversion.Shapes

namespace Constructions

open Plain

variable {Θ : Theory} {S : Signature} {L : Leaves} {ℓ : Nat → Plain} {level : Nat}
  {Γ : List Plain}

/-- **A value of a function type that is no function can take one more argument.** -/
theorem Value.applicable_of_pi (hS : Θ.Describes S) {v : Value} {A B : Plain}
    (hlam : ∀ d c, v ≠ .lam d c) (h : HasType Θ Γ (v.plain ℓ) (.pi A B)) :
    v.applicable S = .ok true := by
  cases v with
  | neutral m => rfl
  | type l => exact h.type_inv.type_ne_pi.elim
  | pi d c =>
    obtain ⟨_, _, _, _, e⟩ := h.pi_inv
    exact e.type_ne_pi.elim
  | lam d c => exact (hlam d c rfl).elim
  | former F as =>
    obtain ⟨D, hD, hle, _, hfull⟩ := h.spine_former_inv
    obtain ⟨X, hX, d⟩ := hS.family?_of_eq_some hD
    rw [Value.length_plains] at hle hfull
    have hne : as.length ≠ D.parameters.length + D.indices.length :=
      fun e => (hfull e).2.type_ne_pi
    have hlt : as.length < X.arity := by
      rw [Family.arity, ← d.parameters, ← d.indices]
      omega
    rw [Value.applicable, hX]
    exact congrArg Except.ok (decide_eq_true hlt)
  | con c as =>
    obtain ⟨K, hK, hle, _, hfull⟩ := h.spine_con_inv
    obtain ⟨X, hX, d⟩ := hS.constructor?_of_eq_some hK
    rw [Value.length_plains] at hle hfull
    have hne : as.length ≠ K.arity := fun e => K.familyAt_ne_pi _ _ _ _ (hfull e).2
    have hlt : as.length < X.arity := by
      rw [Constructor.arity, ← d.parameters, ← d.fields]
      rw [ConstructorShape.arity] at hle hne
      omega
    rw [Value.applicable, hX]
    exact congrArg Except.ok (decide_eq_true hlt)

/-- The comparison of values in every scope, with a given amount of fuel. -/
def ConvertDecides (Θ : Theory) (S : Signature) (n : Nat) : Prop :=
  ∀ {L : Leaves} {level : Nat} {ℓ : Nat → Plain} {Γ : List Plain} {v w : Value} {A B : Plain},
    Scope Θ S L level ℓ → v.All L → w.All L → HasType Θ Γ (v.plain ℓ) A →
    HasType Θ Γ (w.plain ℓ) B → Similar Θ A B →
    Decides (v.convert S n level w) (Θ.Equal (v.plain ℓ) (w.plain ℓ))

section

variable (hΘ : Θ.Sound) (hS : Θ.Describes S) {n : Nat} (ih : ConvertDecides Θ S n)
  (hs : Scope Θ S L level ℓ)

include hΘ hS ih hs

/-- Comparing the bodies of two closures for one fresh variable. -/
theorem Closure.convert_decides {c c' : Closure} (hc : c.All L) (hc' : c'.All L) {A B B' : Plain}
    (h : HasType Θ (A :: Γ) (c.plain ℓ) B) (h' : HasType Θ (A :: Γ) (c'.plain ℓ) B')
    (hB : Similar Θ B B') :
    Decides (do
      let v ← c.enter S n level
      let v' ← c'.enter S n level
      v.convert S n (level + 1) v') (Θ.Equal (c.plain ℓ) (c'.plain ℓ)) := by
  refine Post.bind (Closure.enter_safe hS hΘ hs.levelMap hs.below hc h) fun v hv _ => ?_
  refine Post.bind (Closure.enter_safe hS hΘ hs.levelMap hs.below hc' h') fun v' hv' _ => ?_
  have r := Closure.enter_reds hS hs.below hc hv ℓ
  have r' := Closure.enter_reds hS hs.below hc' hv' ℓ
  refine (ih hs.bind (Closure.enter_all_bind hs.closed hc hv)
    (Closure.enter_all_bind hs.closed hc' hv') (h.reds hΘ r) (h'.reds hΘ r') hB).iff ?_
  exact ⟨fun e => r.equal.trans (e.trans r'.equal.symm),
    fun e => r.equal.symm.trans (e.trans r'.equal)⟩

/-- Comparing a function with a value that is none, by applying both to a fresh variable. -/
theorem Value.convert_lam_decides {d r : Value} {c : Closure} (hd : (Value.lam d c).All L)
    (hr : r.All L) (hlam : ∀ d c, r ≠ .lam d c) {A B : Plain}
    (h : HasType Θ Γ ((Value.lam d c).plain ℓ) A) (h' : HasType Θ Γ (r.plain ℓ) B)
    (hAB : Similar Θ A B) :
    Decides (do
      if ← r.applicable S then
        let v ← c.enter S n level
        let v' ← Value.apply S n r (c.parameter level)
        v.convert S n (level + 1) v'
      else .ok false) (Θ.Equal ((Value.lam d c).plain ℓ) (r.plain ℓ)) := by
  obtain ⟨_, B₁, _, hb, e⟩ := h.lam_inv
  obtain ⟨A', B', e', hA', hB'⟩ := (hAB.congr e (.refl B)).pi_left
  have hr' : HasType Θ Γ (r.plain ℓ) (.pi A' B') := .conv h' e'
  rw [Value.applicable_of_pi hS hlam hr']
  -- Below the binder the other value is applied to the variable of the function.
  have happ : HasType Θ (d.plain ℓ :: Γ) (.app (r.plain (extend ℓ level))
      ((c.parameter level).plain (extend ℓ level))) B' := by
    have hv : HasType Θ (d.plain ℓ :: Γ) (.var 0) A'.shift :=
      .conv (.var (.zero _ _)) (hA'.rename _)
    have happ := HasType.app (hr'.shift (d.plain ℓ)) hv
    rw [inst_lift_shift] at happ
    rwa [Closure.plain_parameter, Value.plain_extend hs.below hr]
  refine Post.bind (P := (true = ·)) rfl fun b _ hb' => ?_
  subst hb'
  rw [if_pos rfl]
  refine Post.bind (Closure.enter_safe hS hΘ hs.levelMap hs.below hd.2 hb) fun v hv _ => ?_
  refine Post.bind (Value.apply_safe hΘ hS hs.bind.levelMap happ) fun v' hv' _ => ?_
  have e₁ := Closure.enter_reds hS hs.below hd.2 hv ℓ
  have e₂ := Value.apply_reds hS hv' (extend ℓ level)
  refine (ih hs.bind (Closure.enter_all_bind hs.closed hd.2 hv)
    (Value.apply_all hs.bind.closed (hr.mono (L.le_bind level)) (a := c.parameter level)
      (Or.inr rfl) hv')
    (hb.reds hΘ e₁) (happ.reds hΘ e₂) hB').iff ?_
  have heta : Θ.Equal ((Value.lam d c).plain ℓ) (r.plain ℓ) ↔
      Θ.Equal (c.plain ℓ) (.app (r.plain ℓ).shift (.var 0)) := by
    rw [Theory.Equal, Theory.Equal, bare, bare, bare_rename]
    exact Conv.eta_iff
  rw [Closure.plain_parameter, Value.plain_extend hs.below hr] at e₂
  rw [heta]
  exact ⟨fun e => e₁.equal.trans (e.trans e₂.equal.symm),
    fun e => e₁.equal.symm.trans (e.trans e₂.equal)⟩

end

section

variable {n : Nat} (ih : ConvertDecides Θ S n) (hs : Scope Θ S L level ℓ)

include ih hs

/-- Comparing the arguments of two spines on equal heads, from left to right: as long as
they are equal, the next ones have equal types. -/
theorem Value.convertZip_decides {as bs : List Value} (has : Value.Alls L as)
    (hbs : Value.Alls L bs) (hl : as.length = bs.length) {f g F G T U : Plain}
    (hf : HasType Θ Γ f F) (hg : HasType Θ Γ g G) (hFG : Θ.Equal F G)
    (h : HasType Θ Γ (spine f (Value.plains ℓ as)) T)
    (h' : HasType Θ Γ (spine g (Value.plains ℓ bs)) U) :
    Decides (convertZip (fun a b => a.convert S n level b) as bs)
      (List.Forall₂ Θ.Equal (Value.plains ℓ as) (Value.plains ℓ bs)) := by
  induction as generalizing bs f g F G with
  | nil =>
    obtain rfl := List.length_eq_zero_iff.1 hl.symm
    exact .yes .nil
  | cons a as ihas =>
    cases bs with
    | nil => cases hl
    | cons b bs =>
      rw [Value.plains, spine_cons] at h h'
      obtain ⟨_, hfa⟩ := h.of_spine fun hp => hf.not_partial hp.of_app
      obtain ⟨_, hgb⟩ := h'.of_spine fun hp => hg.not_partial hp.of_app
      obtain ⟨A, A', hf', ha, _⟩ := hfa.app_inv_of_not_partial hf.not_partial
      obtain ⟨B, B', hg', hb, _⟩ := hgb.app_inv_of_not_partial hg.not_partial
      obtain ⟨eA, eB⟩ := ((hf'.unique hf).trans (hFG.trans (hg.unique hg'))).pi_inj
      refine ((ih hs has.1 hbs.1 ha hb (.equal eA)).and fun e => ?_).iff List.forall₂_cons.symm
      exact ihas has.2 hbs.2 (Nat.succ.inj hl) (.app hf' ha) (.app hg' hb) (eB.inst e) h h'

/-- Comparing the arguments of two spines on one atom. -/
theorem Value.convertList_decides {x : Atom} (hx : ∀ k, x.inert k) {as bs : List Value}
    (has : Value.Alls L as) (hbs : Value.Alls L bs) {T U : Plain}
    (h : HasType Θ Γ (spine (.atom x) (Value.plains ℓ as)) T)
    (h' : HasType Θ Γ (spine (.atom x) (Value.plains ℓ bs)) U) :
    Decides (convertList (fun a b => a.convert S n level b) as bs)
      (Θ.Equal (spine (.atom x) (Value.plains ℓ as)) (spine (.atom x) (Value.plains ℓ bs))) := by
  have hiff : List.Forall₂ Θ.Equal (Value.plains ℓ as) (Value.plains ℓ bs) ↔
      Θ.Equal (spine (.atom x) (Value.plains ℓ as)) (spine (.atom x) (Value.plains ℓ bs)) :=
    ⟨fun h => .spine (.refl _) h, fun e => (e.spine_inj (hx _) (hx _)).2⟩
  rw [convertList]
  split
  · next hl =>
    obtain ⟨F, hF⟩ := h.of_spine fun hp => by
      obtain ⟨k, rfl⟩ := hp.eq_atom
      exact absurd (hx (k + 2)) (by simp [Atom.inert])
    exact (Value.convertZip_decides ih hs has hbs hl hF hF (.refl _) h h').iff hiff
  · next hl =>
    refine .no fun e => hl ?_
    simpa using (hiff.2 e).length_eq

end

/-- **Comparing values and values that wait decides equality.** -/
theorem convert_decides (hΘ : Θ.Sound) (hS : Θ.Describes S) (n : Nat) :
    ConvertDecides Θ S n ∧
    (∀ {L : Leaves} {level : Nat} {ℓ : Nat → Plain} {Γ : List Plain} {m m' : Neutral} {A B : Plain},
      Scope Θ S L level ℓ → m.All L → m'.All L → HasType Θ Γ (m.plain ℓ) A →
      HasType Θ Γ (m'.plain ℓ) B →
      Decides (m.convert S n level m') (Θ.Equal (m.plain ℓ) (m'.plain ℓ))) := by
  induction n with
  | zero => exact ⟨fun _ _ _ _ _ _ => .exhausted, fun _ _ _ _ _ => .exhausted⟩
  | succ n ih =>
    obtain ⟨ihv, ihm⟩ := ih
    refine ⟨?_, ?_⟩
    · intro L level ℓ Γ v w A B hs hv hw h h' hAB
      cases v with
      | neutral m =>
        cases w with
        | neutral m' => exact ihm hs hv hw h h'
        | lam d c =>
          exact (Value.convert_lam_decides hΘ hS ihv hs hw hv (by simp) h' h hAB.symm).iff
            ⟨.symm, .symm⟩
        | type l => exact .no (Neutral.not_equal_of_atom? hs hv rfl)
        | pi d c => exact .no (Neutral.not_equal_of_atom? hs hv rfl)
        | former F as => exact .no (Neutral.not_equal_of_atom? hs hv rfl)
        | con c as => exact .no (Neutral.not_equal_of_atom? hs hv rfl)
      | type l =>
        cases w with
        | type r =>
          refine beq_iff_eq.trans ⟨fun e => e ▸ .refl _, fun e => ?_⟩
          exact UInt64.toNat_inj.1 e.type_inj
        | lam d c =>
          exact (Value.convert_lam_decides hΘ hS ihv hs hw hv (by simp) h' h hAB.symm).iff
            ⟨.symm, .symm⟩
        | neutral m => exact .no fun e => Neutral.not_equal_of_atom? hs hw rfl e.symm
        | pi d c => exact .no (Value.not_equal_of_atom? rfl rfl (by simp))
        | former F as => exact .no (Value.not_equal_of_atom? rfl rfl (by simp))
        | con c as => exact .no (Value.not_equal_of_atom? rfl rfl (by simp))
      | pi d c =>
        cases w with
        | pi d' c' =>
          obtain ⟨_, _, hd, hc, _⟩ := h.pi_inv
          obtain ⟨_, _, hd', hc', _⟩ := h'.pi_inv
          refine ((ihv hs hv.1 hw.1 hd hd' (.type _ _)).and fun e => ?_).iff
            ⟨fun e => .pi e.1 e.2, fun e => e.pi_inj⟩
          exact Closure.convert_decides hΘ hS ihv hs hv.2 hw.2 hc (hc'.change e.symm) (.type _ _)
        | lam d' c' =>
          exact (Value.convert_lam_decides hΘ hS ihv hs hw hv (by simp) h' h hAB.symm).iff
            ⟨.symm, .symm⟩
        | neutral m => exact .no fun e => Neutral.not_equal_of_atom? hs hw rfl e.symm
        | type l => exact .no (Value.not_equal_of_atom? rfl rfl (by simp))
        | former F as => exact .no (Value.not_equal_of_atom? rfl rfl (by simp))
        | con c as => exact .no (Value.not_equal_of_atom? rfl rfl (by simp))
      | lam d c =>
        cases w with
        | lam d' c' =>
          obtain ⟨_, B₁, hd, hc, e₁⟩ := h.lam_inv
          obtain ⟨_, B₂, hd', hc', e₂⟩ := h'.lam_inv
          obtain ⟨A', B', e, eA, hB⟩ := (hAB.congr e₁ e₂).pi_left
          obtain ⟨eA', eB'⟩ := e.pi_inj
          refine ((ihv hs hv.1 hw.1 hd hd' (.type _ _)).and fun e => ?_).iff
            ⟨fun e => .lam e.2, fun e => ⟨eA.trans eA'.symm, Conv.lam_iff.1 e⟩⟩
          exact Closure.convert_decides hΘ hS ihv hs hv.2 hw.2 hc (hc'.change e.symm)
            (hB.congr (.refl _) eB')
        | neutral m => exact Value.convert_lam_decides hΘ hS ihv hs hv hw (by simp) h h' hAB
        | type l => exact Value.convert_lam_decides hΘ hS ihv hs hv hw (by simp) h h' hAB
        | pi d' c' => exact Value.convert_lam_decides hΘ hS ihv hs hv hw (by simp) h h' hAB
        | former F as => exact Value.convert_lam_decides hΘ hS ihv hs hv hw (by simp) h h' hAB
        | con c as => exact Value.convert_lam_decides hΘ hS ihv hs hv hw (by simp) h h' hAB
      | former F as =>
        cases w with
        | former F' as' =>
          rw [Value.convert]
          split
          · next e =>
            subst e
            exact Value.convertList_decides ihv hs (x := .former F) (fun _ => trivial) hv hw h h'
          · next e => exact .no (Value.not_equal_of_atom? rfl rfl (by simpa using e))
        | lam d c =>
          exact (Value.convert_lam_decides hΘ hS ihv hs hw hv (by simp) h' h hAB.symm).iff
            ⟨.symm, .symm⟩
        | neutral m => exact .no fun e => Neutral.not_equal_of_atom? hs hw rfl e.symm
        | type l => exact .no (Value.not_equal_of_atom? rfl rfl (by simp))
        | pi d c => exact .no (Value.not_equal_of_atom? rfl rfl (by simp))
        | con c as => exact .no (Value.not_equal_of_atom? rfl rfl (by simp))
      | con c as =>
        cases w with
        | con c' as' =>
          rw [Value.convert]
          split
          · next e =>
            subst e
            exact Value.convertList_decides ihv hs (x := .con c) (fun _ => trivial) hv hw h h'
          · next e => exact .no (Value.not_equal_of_atom? rfl rfl (by simpa using e))
        | lam d c =>
          exact (Value.convert_lam_decides hΘ hS ihv hs hw hv (by simp) h' h hAB.symm).iff
            ⟨.symm, .symm⟩
        | neutral m => exact .no fun e => Neutral.not_equal_of_atom? hs hw rfl e.symm
        | type l => exact .no (Value.not_equal_of_atom? rfl rfl (by simp))
        | pi d c => exact .no (Value.not_equal_of_atom? rfl rfl (by simp))
        | former F as => exact .no (Value.not_equal_of_atom? rfl rfl (by simp))
    · intro L level ℓ Γ m m' A B hs hm hm' h h'
      rw [Neutral.equal_iff hs hm hm']
      cases m with
      | var label l =>
        cases m' with
        | var label' l' => exact beq_iff_eq
        | const c => exact .no id
        | app f a => exact .no id
        | elim t M ms => exact .no id
      | const c =>
        cases m' with
        | const c' => exact beq_iff_eq
        | var label l => exact .no id
        | app f a => exact .no id
        | elim t M ms => exact .no id
      | app f a =>
        cases m' with
        | app f' a' =>
          obtain ⟨A₁, B₁, hf, ha, _⟩ := h.app_inv_of_not_partial (f.not_partial hs.levelMap)
          obtain ⟨A₂, B₂, hf', ha', _⟩ := h'.app_inv_of_not_partial (f'.not_partial hs.levelMap)
          refine (ihm hs hm.1 hm'.1 hf hf').and fun e => ihv hs hm.2 hm'.2 ha ha' (.equal ?_)
          exact (Neutral.types_equal hs hm.1 hm'.1 e hf hf').pi_inj.1
        | var label l => exact .no id
        | const c => exact .no id
        | elim t M ms => exact .no id
      | elim t M ms =>
        cases m' with
        | elim t' M' ms' =>
          obtain ⟨F, D, cs, ps, is, u, he, _⟩ := h.elim_inv
          obtain ⟨F', D', cs', ps', is', u', he', _⟩ := h'.elim_inv
          refine (ihm hs hm.1 hm'.1 he.target he'.target).and fun e => ?_
          -- Equal targets are in one family at equal parameters.
          obtain ⟨rfl, hargs⟩ :=
            (Neutral.types_equal hs hm.1 hm'.1 e he.target he'.target).former_inj
          obtain rfl := Option.some.inj (he.family.symm.trans he'.family)
          obtain rfl := Option.some.inj (he.constructors.symm.trans he'.constructors)
          obtain ⟨hps, _⟩ := forall₂_of_append hargs (he.parameters.trans he'.parameters.symm)
          refine (ihv hs hm.2.1 hm'.2.1 he.motive he'.motive (.motiveType D F hps u u')).and
            fun eM => ?_
          have hl : ms.length = ms'.length := by
            simpa using he.methods.trans he'.methods.symm
          rw [convertList, if_pos hl, Value.plains_eq_map, Value.plains_eq_map,
            List.forall₂_map_left_iff, List.forall₂_map_right_iff]
          refine .zip hl fun {i} {a b} ha hb => ?_
          have hi : i < cs.length := by
            have := (List.getElem?_eq_some_iff.1 ha).1
            have := he.methods
            rw [Value.length_plains] at this
            omega
          obtain ⟨K, hK, _⟩ := (hΘ.constructors he.family he.constructors _).1 (List.getElem_mem hi)
          have hc := List.getElem?_eq_getElem hi
          refine ihv hs (Value.alls_iff.1 hm.2.2 a (List.mem_of_getElem? ha))
            (Value.alls_iff.1 hm'.2.2 b (List.mem_of_getElem? hb))
            (he.method (Value.getElem?_plains ha) hc hK)
            (he'.method (Value.getElem?_plains hb) hc hK) (.equal ?_)
          exact .subst_ofList _ (.cons eM (List.rel_reverse hps))
        | var label l => exact .no id
        | const c => exact .no id
        | app f a => exact .no id

/-- **Comparing well-typed values of similar types decides whether they are equal.** -/
theorem Value.convert_decides (hΘ : Θ.Sound) (hS : Θ.Describes S) (hs : Scope Θ S L level ℓ)
    {n : Nat} {v w : Value} (hv : v.All L) (hw : w.All L) {A B : Plain}
    (h : HasType Θ Γ (v.plain ℓ) A) (h' : HasType Θ Γ (w.plain ℓ) B) (hAB : Similar Θ A B) :
    Decides (v.convert S n level w) (Θ.Equal (v.plain ℓ) (w.plain ℓ)) :=
  (Constructions.convert_decides hΘ hS n).1 hs hv hw h h' hAB

end Constructions
