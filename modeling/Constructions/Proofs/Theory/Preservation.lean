/-
# Reduction of plain terms keeps types

`Red` reduces any number of places of a plain term at once.  It has a rule for each way
in which terms compute, and none for functions that only pass their argument on: such a
function and what it passes the argument to may differ in domains, so the rule would not
keep types.

A step of `Red` is a step of the bare terms (`Red.par`), so it keeps equality.  In a
sound theory it also keeps types (`HasType.red`).
-/

import Constructions.Proofs.Theory.Elimination

namespace Constructions

open Plain

/-- A step that computes in any number of places at once. -/
inductive Red (Θ : Theory) : Plain → Plain → Prop where
  | var (i : Nat) : Red Θ (.var i) (.var i)
  | atom (a : Atom) : Red Θ (.atom a) (.atom a)
  | letIn {A A' a a' b b' : Plain} : Red Θ A A' → Red Θ a a' → Red Θ b b' →
      Red Θ (.letIn A a b) (.letIn A' a' b')
  | pi {A A' B B' : Plain} : Red Θ A A' → Red Θ B B' → Red Θ (.pi A B) (.pi A' B')
  | lam {A A' b b' : Plain} : Red Θ A A' → Red Θ b b' → Red Θ (.lam A b) (.lam A' b')
  | app {f f' a a' : Plain} : Red Θ f f' → Red Θ a a' → Red Θ (.app f a) (.app f' a')
  | zeta {A a a' b b' : Plain} : Red Θ a a' → Red Θ b b' → Red Θ (.letIn A a b) (b'.inst a')
  | beta {f A b a a' : Plain} : Red Θ f (.lam A b) → Red Θ a a' → Red Θ (.app f a) (b.inst a')
  | delta {c : Name} {t : Plain} : Θ.definition c = some t → Red Θ (.atom (.const c)) t
  | iota {c : ConstructorId} {B : Branch} {f a m M : Plain} {ms args : List Plain} :
      Θ.branch c = some B → Red Θ f (elimHead M ms) → Red Θ a (spine (.atom (.con c)) args) →
      args.length = B.arity → ms[B.position]? = some m →
      Red Θ (.app f a) (B.plainContract m M ms args)

variable {Θ : Theory} {Γ : List Plain}

namespace Branch

variable (B : Branch) (m M : Plain) (ms args : List Plain)

theorem rename_plainContract (ρ : Nat → Nat) :
    (B.plainContract m M ms args).rename ρ =
      B.plainContract (m.rename ρ) (M.rename ρ) (ms.map (rename ρ)) (args.map (rename ρ)) := by
  rw [plainContract, rename_spine, plainContract, List.map_append, List.map_drop, List.map_map]
  congr 2
  refine List.map_congr_left fun i _ => ?_
  rw [Function.comp_apply, rename, rename_elimHead]
  exact congrArg _ (List.getD_map _ _ (rename ρ)).symm

theorem subst_plainContract (σ : Nat → Plain) :
    (B.plainContract m M ms args).subst σ =
      B.plainContract (m.subst σ) (M.subst σ) (ms.map (subst σ)) (args.map (subst σ)) := by
  rw [plainContract, subst_spine, plainContract, List.map_append, List.map_drop, List.map_map]
  congr 2
  refine List.map_congr_left fun i _ => ?_
  rw [Function.comp_apply, subst, subst_elimHead]
  exact congrArg _ (List.getD_map _ _ (subst σ)).symm

theorem bare_plainContract :
    (B.plainContract m M ms args).bare =
      B.contract m.bare M.bare (ms.map bare) (args.map bare) := by
  rw [plainContract, bare_spine, contract, List.map_append, List.map_drop, List.map_map]
  congr 2
  refine List.map_congr_left fun i _ => ?_
  rw [Function.comp_apply, bare, bare_elimHead]
  exact congrArg _ (List.getD_map _ _ bare).symm

end Branch

namespace Red

theorem refl (t : Plain) : Red Θ t t := by
  induction t with
  | var i => exact .var i
  | atom a => exact .atom a
  | letIn A a b ihA iha ihb => exact .letIn ihA iha ihb
  | pi A B ihA ihB => exact .pi ihA ihB
  | lam A b ihA ihb => exact .lam ihA ihb
  | app f a ihf iha => exact .app ihf iha

theorem rename {t t' : Plain} (h : Red Θ t t') (ρ : Nat → Nat) :
    Red Θ (t.rename ρ) (t'.rename ρ) := by
  induction h generalizing ρ with
  | var i => exact .var _
  | atom a => exact .atom a
  | letIn _ _ _ ihA iha ihb => exact .letIn (ihA ρ) (iha ρ) (ihb _)
  | pi _ _ ihA ihB => exact .pi (ihA ρ) (ihB _)
  | lam _ _ ihA ihb => exact .lam (ihA ρ) (ihb _)
  | app _ _ ihf iha => exact .app (ihf ρ) (iha ρ)
  | zeta _ _ iha ihb =>
    rw [rename_inst]
    exact .zeta (iha ρ) (ihb _)
  | beta _ _ ihf iha =>
    rw [rename_inst]
    exact .beta (ihf ρ) (iha ρ)
  | delta hc =>
    rw [(Θ.definition_closed hc).rename]
    exact .delta hc
  | iota hB _ _ hl hm ihf iha =>
    have hf := ihf ρ
    have ha := iha ρ
    rw [rename_elimHead] at hf
    rw [rename_spine] at ha
    rw [Branch.rename_plainContract]
    exact .iota hB hf ha (by rw [List.length_map, hl]) (by rw [List.getElem?_map, hm]; rfl)

theorem liftSub {σ τ : Nat → Plain} (h : ∀ i, Red Θ (σ i) (τ i)) (i : Nat) :
    Red Θ (liftSub σ i) (Plain.liftSub τ i) := by
  cases i with
  | zero => exact .var 0
  | succ i => exact (h i).rename _

/-- **Reduction is kept by substitution.** -/
theorem subst {t t' : Plain} (h : Red Θ t t') {σ τ : Nat → Plain} (hσ : ∀ i, Red Θ (σ i) (τ i)) :
    Red Θ (t.subst σ) (t'.subst τ) := by
  induction h generalizing σ τ with
  | var i => exact hσ i
  | atom a => exact .atom a
  | letIn _ _ _ ihA iha ihb => exact .letIn (ihA hσ) (iha hσ) (ihb (liftSub hσ))
  | pi _ _ ihA ihB => exact .pi (ihA hσ) (ihB (liftSub hσ))
  | lam _ _ ihA ihb => exact .lam (ihA hσ) (ihb (liftSub hσ))
  | app _ _ ihf iha => exact .app (ihf hσ) (iha hσ)
  | zeta _ _ iha ihb =>
    rw [subst_inst]
    exact .zeta (iha hσ) (ihb (liftSub hσ))
  | beta _ _ ihf iha =>
    rw [subst_inst]
    exact .beta (ihf hσ) (iha hσ)
  | delta hc =>
    rw [Θ.definition_closed hc]
    exact .delta hc
  | iota hB _ _ hl hm ihf iha =>
    have hf := ihf hσ
    have ha := iha hσ
    rw [subst_elimHead] at hf
    rw [subst_spine] at ha
    rw [Branch.subst_plainContract]
    exact .iota hB hf ha (by rw [List.length_map, hl]) (by rw [List.getElem?_map, hm]; rfl)

theorem inst {b b' a a' : Plain} (hb : Red Θ b b') (ha : Red Θ a a') :
    Red Θ (b.inst a) (b'.inst a') := by
  refine hb.subst fun i => ?_
  cases i with
  | zero => exact ha
  | succ i => exact .var i

/-- **A step of plain terms is one of the bare terms.** -/
theorem par {t t' : Plain} (h : Red Θ t t') : Par Θ.rules t.bare t'.bare := by
  induction h with
  | var i => exact .var i
  | atom a => exact .atom a
  | letIn _ _ _ _ iha ihb => exact ihb.inst iha
  | pi _ _ ihA ihB => exact .app (.app (.atom .pi) ihA) (.lam ihB)
  | lam _ _ _ ihb => exact .lam ihb
  | app _ _ ihf iha => exact .app ihf iha
  | zeta _ _ iha ihb =>
    rw [bare_inst]
    exact ihb.inst iha
  | beta _ _ ihf iha =>
    rw [bare_inst]
    exact .beta ihf iha
  | delta hc => exact .delta (congrArg (Option.map bare) hc)
  | iota hB _ _ hl hm ihf iha =>
    rw [bare_elimHead] at ihf
    rw [bare_spine] at iha
    rw [Branch.bare_plainContract]
    exact .iota hB ihf iha (by rw [List.length_map, hl]) (by rw [List.getElem?_map, hm]; rfl)

theorem equal {t t' : Plain} (h : Red Θ t t') : Θ.Equal t t' := Conv.of_par h.par

/-- **A spine without a rule reduces argument by argument.** -/
theorem spine_inv {a : Atom} {as : List Plain} (ha : a.inert as.length) {t : Plain}
    (h : Red Θ (Plain.spine (.atom a) as) t) :
    ∃ as', t = Plain.spine (.atom a) as' ∧ List.Forall₂ (Red Θ) as as' := by
  induction as using List.reverseRecOn generalizing t with
  | nil =>
    cases h with
    | atom => exact ⟨[], rfl, .nil⟩
    | delta => exact ha.elim
  | append_singleton as x ih =>
    rw [List.length_append, List.length_singleton] at ha
    have ih := fun {t} => @ih (ha.mono (Nat.le_succ _)) t
    rw [spine_concat] at h
    generalize hg : Plain.spine (.atom a) as = g at h ih
    cases h with
    | app hf hx =>
      obtain ⟨as', rfl, has⟩ := ih hf
      exact ⟨as' ++ [_], (spine_concat _ _ _).symm, List.rel_append has (.cons hx .nil)⟩
    | beta hf _ =>
      obtain ⟨as', e, _⟩ := ih hf
      exact (spine_atom_ne_lam _ _ _ _ e.symm).elim
    | iota _ hf _ _ _ =>
      obtain ⟨as', e, has⟩ := ih hf
      obtain ⟨rfl, rfl⟩ := spine_atom_inj e
      have hn := has.length_eq
      rw [List.length_cons] at hn
      simp only [Atom.inert] at ha
      omega

theorem elimHead_inv {M t : Plain} {ms : List Plain} (h : Red Θ (elimHead M ms) t) :
    ∃ M' ms', t = elimHead M' ms' ∧ Red Θ M M' ∧ List.Forall₂ (Red Θ) ms ms' := by
  obtain ⟨as, rfl, has⟩ := spine_inv (by simp [Atom.inert]) h
  cases has with
  | cons hM hms => exact ⟨_, _, by rw [elimHead, hms.length_eq], hM, hms⟩

end Red

namespace HasType.Elimination

variable {M M' t t' : Plain} {ms ms' ps is : List Plain} {F : FamilyId} {D : FamilyShape}
  {cs : List ConstructorId} {n : Nat}

/-- **The parts of an elimination may be replaced by equal ones of the same types.** -/
theorem replace (h : Elimination Θ Γ M ms t F D cs ps is n)
    (ht : HasType Θ Γ t' (spine (.atom (.former F)) (ps ++ is)))
    (hM : HasType Θ Γ M' (D.motiveType F ps n)) (heq : Θ.Equal M M') (hl : ms'.length = ms.length)
    (hms : ∀ {j : Nat} {m c K}, ms'[j]? = some m → cs[j]? = some c → Θ.constructor c = some K →
      HasType Θ Γ m (K.methodType c ps M)) : Elimination Θ Γ M' ms' t' F D cs ps is n :=
  { h with
    target := ht
    motive := hM
    methods := hl.trans h.methods
    method := fun hm hc hK =>
      .conv (hms hm hc hK) (.subst_ofList _ (.cons heq (Theory.Equal.refls _))) }

/-- **A step of an elimination keeps its type** if steps of the parts keep theirs. -/
theorem red (hΘ : Θ.Sound) (h : Elimination Θ Γ M ms t F D cs ps is n)
    (iht : ∀ {u}, Red Θ t u → HasType Θ Γ u (spine (.atom (.former F)) (ps ++ is)))
    (ihM : ∀ {u}, Red Θ M u → HasType Θ Γ u (D.motiveType F ps n))
    (ihms : ∀ {j : Nat} {m c K}, ms[j]? = some m → cs[j]? = some c → Θ.constructor c = some K →
      ∀ {u}, Red Θ m u → HasType Θ Γ u (K.methodType c ps M))
    {u : Plain} (hr : Red Θ (Plain.elim M ms t) u) : HasType Θ Γ u (spine M (is ++ [t])) := by
  have hparts {M' ms' t'} (rM : Red Θ M M') (rms : List.Forall₂ (Red Θ) ms ms')
      (rt : Red Θ t t') : Elimination Θ Γ M' ms' t' F D cs ps is n := by
    refine h.replace (iht rt) (ihM rM) rM.equal rms.length_eq.symm fun hm' hc hK => ?_
    obtain ⟨m, hm, rm⟩ := forall₂_getElem? (List.Forall₂.flip rms) hm'
    exact ihms hm hc hK rm
  have hback {M' t'} (rM : Red Θ M M') (rt : Red Θ t t') :
      Θ.Equal (spine M' (is ++ [t'])) (spine M (is ++ [t])) :=
    .spine rM.equal.symm (List.rel_append (Theory.Equal.refls _) (.cons rt.equal.symm .nil))
  generalize hg : elimHead M ms = g at hr
  cases hr with
  | app rf rt =>
    subst hg
    obtain ⟨M', ms', rfl, rM, rms⟩ := rf.elimHead_inv
    exact .conv (hparts rM rms rt).hasType (hback rM rt)
  | beta rf _ =>
    subst hg
    obtain ⟨M', ms', e, _⟩ := rf.elimHead_inv
    exact (spine_atom_ne_lam _ _ _ _ e.symm).elim
  | iota hB rf rt _ hm =>
    subst hg
    obtain ⟨M', ms', e, rM, rms⟩ := rf.elimHead_inv
    obtain ⟨rfl, rfl⟩ := elimHead_inj e
    exact .conv ((hparts rM rms rt).contract hΘ hB hm) (hback rM rt)

end HasType.Elimination

/-- **Reduction keeps types.**  The induction is on the typing; a local definition is typed
through its body with the argument in it, so a step of its parts is a step of that term. -/
theorem HasType.red (hΘ : Θ.Sound) {t t' T : Plain} (h : HasType Θ Γ t T) (hr : Red Θ t t') :
    HasType Θ Γ t' T := by
  induction h generalizing t' with
  | var hA =>
    cases hr
    exact .var hA
  | atom hT =>
    cases hr with
    | atom => exact .atom hT
    | delta hc =>
      obtain ⟨T', hT', ht⟩ := hΘ.definition hc
      obtain rfl := Option.some.inj (hT.symm.trans hT')
      exact ht.weaken _
  | type n =>
    cases hr
    exact .type n
  | letIn _ _ _ ihA iha ihb =>
    cases hr with
    | letIn hA ha hb => exact .letIn (ihA hA) (.conv (iha ha) hA.equal) (ihb (hb.inst ha))
    | zeta ha hb => exact ihb (hb.inst ha)
  | pi _ _ ihA ihB =>
    cases hr with
    | pi hA hB => exact .pi (ihA hA) ((ihB hB).change hA.equal)
  | lam _ _ ihA ihb =>
    cases hr with
    | lam hA hb =>
      exact .conv (.lam (ihA hA) ((ihb hb).change hA.equal)) (.pi hA.equal.symm (.refl _))
  | app _ _ ihf iha =>
    cases hr with
    | app hf ha => exact .conv (.app (ihf hf) (iha ha)) (.inst (.refl _) ha.equal.symm)
    | beta hf ha =>
      obtain ⟨_, B', _, hb, e⟩ := (ihf hf).lam_inv
      obtain ⟨eA, eB⟩ := e.pi_inj
      exact .conv (hb.inst (.conv (iha ha) eA.symm)) (eB.inst ha.equal.symm)
    | iota _ hf _ _ _ => exact ((ihf hf).not_partial (partial_elimHead _ _)).elim
  | elim hF hcs hps his hms ht hM hm iht ihM ihms =>
    exact Elimination.red hΘ ⟨hF, hcs, hps, his, hms, ht, hM, hm⟩ iht ihM ihms hr
  | conv _ hT ih => exact .conv (ih hr) hT

/-! ### Any number of steps -/

/-- Any number of steps. -/
abbrev Reds (Θ : Theory) : Plain → Plain → Prop := Relation.ReflTransGen (Red Θ)

namespace Reds

theorem equal {t t' : Plain} (h : Reds Θ t t') : Θ.Equal t t' := by
  induction h with
  | refl => exact .refl _
  | tail _ hs ih => exact ih.trans hs.equal

theorem refls (ts : List Plain) : List.Forall₂ (Reds Θ) ts ts :=
  List.forall₂_same.2 fun _ _ => .refl

theorem map {g : Plain → Plain} (hg : ∀ {x y}, Red Θ x y → Red Θ (g x) (g y)) {t u : Plain}
    (h : Reds Θ t u) : Reds Θ (g t) (g u) := by
  induction h with
  | refl => exact .refl
  | tail _ hs ih => exact ih.tail (hg hs)

theorem pi {A A' B B' : Plain} (hA : Reds Θ A A') (hB : Reds Θ B B') :
    Reds Θ (.pi A B) (.pi A' B') :=
  (hA.map (g := (Plain.pi · B)) fun h => .pi h (.refl B)).trans
    (hB.map (g := Plain.pi A') fun h => .pi (.refl A') h)

theorem lam {A A' b b' : Plain} (hA : Reds Θ A A') (hb : Reds Θ b b') :
    Reds Θ (.lam A b) (.lam A' b') :=
  (hA.map (g := (Plain.lam · b)) fun h => .lam h (.refl b)).trans
    (hb.map (g := Plain.lam A') fun h => .lam (.refl A') h)

theorem app {f f' a a' : Plain} (hf : Reds Θ f f') (ha : Reds Θ a a') :
    Reds Θ (.app f a) (.app f' a') :=
  (hf.map (g := (Plain.app · a)) fun h => .app h (.refl a)).trans
    (ha.map (g := Plain.app f') fun h => .app (.refl f') h)

theorem spine {f f' : Plain} {as as' : List Plain} (hf : Reds Θ f f')
    (h : List.Forall₂ (Reds Θ) as as') : Reds Θ (spine f as) (Plain.spine f' as') := by
  induction h generalizing f f' with
  | nil => exact hf
  | cons ha _ ih => exact ih (hf.app ha)

theorem elim {M M' t t' : Plain} {ms ms' : List Plain} (hM : Reds Θ M M')
    (hms : List.Forall₂ (Reds Θ) ms ms') (ht : Reds Θ t t') :
    Reds Θ (Plain.elim M ms t) (Plain.elim M' ms' t') := by
  refine app ?_ ht
  rw [elimHead, elimHead, hms.length_eq]
  exact spine .refl (.cons hM hms)

theorem rename {t t' : Plain} (h : Reds Θ t t') (ρ : Nat → Nat) :
    Reds Θ (t.rename ρ) (t'.rename ρ) := h.map fun h => h.rename ρ

/-- **Reducing what is substituted reduces the result.** -/
theorem subst_right (t : Plain) {σ τ : Nat → Plain} (h : ∀ i, Reds Θ (σ i) (τ i)) :
    Reds Θ (t.subst σ) (t.subst τ) := by
  have lift {σ τ : Nat → Plain} (h : ∀ i, Reds Θ (σ i) (τ i)) (i : Nat) :
      Reds Θ (liftSub σ i) (liftSub τ i) := by
    cases i with
    | zero => exact .refl
    | succ i => exact (h i).rename _
  induction t generalizing σ τ with
  | var i => exact h i
  | atom a => exact .refl
  | letIn A a b ihA iha ihb =>
    refine ((ihA h).map (g := (Plain.letIn · _ _)) fun h => .letIn h (.refl _) (.refl _)).trans ?_
    refine ((iha h).map (g := (Plain.letIn _ · _)) fun h => .letIn (.refl _) h (.refl _)).trans ?_
    exact (ihb (lift h)).map (g := Plain.letIn _ _) fun h => .letIn (.refl _) (.refl _) h
  | pi A B ihA ihB => exact (ihA h).pi (ihB (lift h))
  | lam A b ihA ihb => exact (ihA h).lam (ihb (lift h))
  | app f a ihf iha => exact (ihf h).app (iha h)

theorem ofList {e e' : List Plain} (h : List.Forall₂ (Reds Θ) e e') (i : Nat) :
    Reds Θ (ofList e i) (Plain.ofList e' i) := by
  induction h generalizing i with
  | nil => exact .refl
  | cons h _ ih =>
    cases i with
    | zero => exact h
    | succ i => exact ih i

end Reds

theorem HasType.reds (hΘ : Θ.Sound) {t t' T : Plain} (h : HasType Θ Γ t T) (hr : Reds Θ t t') :
    HasType Θ Γ t' T := by
  induction hr with
  | refl => exact h
  | tail _ hs ih => exact ih.red hΘ hs

end Constructions
