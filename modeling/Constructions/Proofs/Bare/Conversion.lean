/-
# Conversion of bare terms

Two terms are convertible if they reduce to a common term.  By confluence this is an
equivalence (`Conv.trans`), and it is kept by every way to build terms and by
substitution.

What is convertible can be taken apart:

* spines on atoms without a rule, argument by argument (`Conv.spine_inj`), so
  universes, function types, formers and constructors are told apart;
* functions, body by body, also when one side is no function (`Conv.lam_iff`,
  `Conv.eta_iff`);
* computations that wait for a variable or a postulate, part by part (`Stuck`).
-/

import Constructions.Proofs.Bare.Confluence

namespace Constructions

open Bare

variable {R : Rules}

/-- Any number of steps. -/
abbrev Pars (R : Rules) : Bare → Bare → Prop := Relation.ReflTransGen (Par R)

/-- Two terms with a common reduct. -/
def Conv (R : Rules) : Bare → Bare → Prop := Relation.Join (Pars R)

namespace Pars

theorem map {g : Bare → Bare} (hg : ∀ {x y}, Par R x y → Par R (g x) (g y)) {t u : Bare}
    (h : Pars R t u) : Pars R (g t) (g u) := by
  induction h with
  | refl => exact .refl
  | tail _ hs ih => exact ih.tail (hg hs)

theorem app {f f' a a' : Bare} (hf : Pars R f f') (ha : Pars R a a') :
    Pars R (.app f a) (.app f' a') := by
  refine Relation.ReflTransGen.trans (b := .app f' a) ?_ ?_
  · exact hf.map (g := (Bare.app · a)) fun h => .app h (.refl a)
  · exact ha.map (g := Bare.app f') fun h => .app (.refl f') h

theorem spine_inv {a : Atom} {args : List Bare} (ha : a.inert args.length) {t : Bare}
    (h : Pars R (spine (.atom a) args) t) :
    ∃ args', t = spine (.atom a) args' ∧ List.Forall₂ (Pars R) args args' := by
  induction h with
  | refl => exact ⟨args, rfl, List.forall₂_same.2 fun _ _ => .refl⟩
  | tail _ hs ih =>
    obtain ⟨as, rfl, has⟩ := ih
    obtain ⟨bs, rfl, hbs⟩ := Par.spine_inv (has.length_eq ▸ ha) hs
    exact ⟨bs, rfl, forall₂_comp Relation.ReflTransGen.tail has hbs⟩

theorem var_inv {i : Nat} {t : Bare} (h : Pars R (.var i) t) : t = .var i := by
  induction h with
  | refl => rfl
  | tail _ hs ih =>
    subst ih
    exact Par.var_inv hs

end Pars

namespace Conv

theorem refl (t : Bare) : Conv R t t := ⟨t, .refl, .refl⟩

theorem symm {t u : Bare} (h : Conv R t u) : Conv R u t := by
  obtain ⟨s, ht, hu⟩ := h
  exact ⟨s, hu, ht⟩

theorem of_pars {t u : Bare} (h : Pars R t u) : Conv R t u := ⟨u, h, .refl⟩

theorem of_par {t u : Bare} (h : Par R t u) : Conv R t u := of_pars (.single h)

/-- **Conversion is transitive.**  This is where confluence is used. -/
theorem trans {t u v : Bare} (h : Conv R t u) (h' : Conv R u v) : Conv R t v := by
  obtain ⟨s, ht, hu⟩ := h
  obtain ⟨s', hu', hv⟩ := h'
  have hd : ∀ a b c, Par R a b → Par R a c →
      ∃ d, Relation.ReflGen (Par R) b d ∧ Relation.ReflTransGen (Par R) c d := by
    intro a b c hb hc
    obtain ⟨d, hbd, hcd⟩ := hb.diamond hc
    exact ⟨d, .single hbd, .single hcd⟩
  obtain ⟨w, hs, hs'⟩ := Relation.church_rosser hd hu hu'
  exact ⟨w, ht.trans hs, hv.trans hs'⟩

theorem map {g : Bare → Bare} (hg : ∀ {x y}, Par R x y → Par R (g x) (g y)) {t u : Bare}
    (h : Conv R t u) : Conv R (g t) (g u) := by
  obtain ⟨s, ht, hu⟩ := h
  exact ⟨g s, ht.map hg, hu.map hg⟩

theorem lam {b b' : Bare} (h : Conv R b b') : Conv R (.lam b) (.lam b') := h.map .lam

theorem app {f f' a a' : Bare} (hf : Conv R f f') (ha : Conv R a a') :
    Conv R (.app f a) (.app f' a') := by
  obtain ⟨g, hg, hg'⟩ := hf
  obtain ⟨b, hb, hb'⟩ := ha
  exact ⟨.app g b, hg.app hb, hg'.app hb'⟩

theorem rename {t u : Bare} (h : Conv R t u) (ρ : Nat → Nat) :
    Conv R (t.rename ρ) (u.rename ρ) := h.map fun h => h.rename ρ

theorem subst {t u : Bare} (h : Conv R t u) (σ : Nat → Bare) :
    Conv R (t.subst σ) (u.subst σ) := h.map fun h => h.subst fun i => .refl (σ i)

/-- **Convertible substitutions give convertible terms.** -/
theorem subst_right (t : Bare) {σ σ' : Nat → Bare} (h : ∀ i, Conv R (σ i) (σ' i)) :
    Conv R (t.subst σ) (t.subst σ') := by
  induction t generalizing σ σ' with
  | var i => exact h i
  | atom a => exact refl _
  | lam b ih =>
    refine (ih fun i => ?_).lam
    cases i with
    | zero => exact refl _
    | succ i => exact (h i).rename _
  | app f a ihf iha => exact (ihf h).app (iha h)

theorem inst {b b' a a' : Bare} (hb : Conv R b b') (ha : Conv R a a') :
    Conv R (b.inst a) (b'.inst a') := by
  refine (hb.subst _).trans (subst_right b' fun i => ?_)
  cases i with
  | zero => exact ha
  | succ i => exact refl _

theorem beta (b a : Bare) : Conv R (.app (.lam b) a) (b.inst a) :=
  of_par (.beta (.refl _) (.refl _))

theorem eta (f : Bare) : Conv R (.lam (.app f.shift (.var 0))) f := of_par (.eta (.refl _))

/-- **Spines without a rule are convertible only argument by argument.** -/
theorem spine_inj {a b : Atom} {as bs : List Bare} (ha : a.inert as.length)
    (hb : b.inert bs.length) (h : Conv R (Bare.spine (.atom a) as) (Bare.spine (.atom b) bs)) :
    a = b ∧ List.Forall₂ (Conv R) as bs := by
  obtain ⟨s, hs, hs'⟩ := h
  obtain ⟨cs, rfl, has⟩ := Pars.spine_inv ha hs
  obtain ⟨ds, e, hbs⟩ := Pars.spine_inv hb hs'
  obtain ⟨rfl, rfl⟩ := spine_atom_inj e
  exact ⟨rfl, forall₂_comp (fun h h' => ⟨_, h, h'⟩) has (List.Forall₂.flip hbs)⟩

/-- **A function is convertible with a term iff its body is convertible with the term
applied to the variable of the function.** -/
theorem eta_iff {b t : Bare} : Conv R (.lam b) t ↔ Conv R b (.app t.shift (.var 0)) := by
  constructor
  · intro h
    have hb := beta (R := R) (b.rename (liftRen Nat.succ)) (.var 0)
    rw [inst_lift_shift] at hb
    exact hb.symm.trans ((h.rename Nat.succ).app (refl _))
  · intro h
    exact h.lam.trans (eta t)

/-- **Functions are convertible iff their bodies are.** -/
theorem lam_iff {b b' : Bare} : Conv R (.lam b) (.lam b') ↔ Conv R b b' := by
  rw [eta_iff]
  have hb := beta (R := R) (b'.rename (liftRen Nat.succ)) (.var 0)
  rw [inst_lift_shift] at hb
  exact ⟨fun h => h.trans hb, fun h => h.trans hb.symm⟩

end Conv

/-! ### Computations that wait -/

/-- A computation that waits for a variable or for a constant without a definition. -/
inductive Stuck (R : Rules) : Bare → Prop where
  | var (i : Nat) : Stuck R (.var i)
  | const {c : Name} : R.unfold c = none → Stuck R (.atom (.const c))
  | app {f : Bare} (a : Bare) : Stuck R f → Stuck R (.app f a)
  | elim (m : Bare) (ms : List Bare) {t : Bare} : Stuck R t → Stuck R (.app (elimHead m ms) t)

namespace Stuck

theorem ne_spine {t : Bare} (h : Stuck R t) {a : Atom} {args : List Bare}
    (ha : a.inert args.length) : t ≠ spine (.atom a) args := by
  rintro rfl
  induction args using List.reverseRecOn with
  | nil =>
    cases h with
    | const => exact ha
  | append_singleton args x ih =>
    rw [List.length_append, List.length_singleton] at ha
    rw [spine_concat] at h
    generalize hf : spine (.atom a) args = f at h
    cases h with
    | app _ h => exact ih (ha.mono (Nat.le_succ _)) (hf ▸ h)
    | elim m ms _ =>
      obtain ⟨rfl, rfl⟩ := spine_atom_inj hf
      simp only [Atom.inert, List.length_cons] at ha
      omega

theorem ne_elimHead {t : Bare} (h : Stuck R t) (m : Bare) (ms : List Bare) :
    t ≠ elimHead m ms := h.ne_spine (by simp [Atom.inert])

theorem ne_lam {t : Bare} (h : Stuck R t) (b : Bare) : t ≠ .lam b := by
  rintro rfl
  cases h

/-- A step of a stuck application reduces its parts. -/
theorem head_app {f a t : Bare} (hf : Stuck R f) (h : Par.Head R f a t) : t = .app f a := by
  cases h with
  | app => rfl
  | beta e => exact (hf.ne_lam _ e).elim
  | iota _ e _ _ _ => exact (hf.ne_elimHead _ _ e).elim

/-- A step of a stuck elimination reduces its parts. -/
theorem head_elim {m a t : Bare} {ms : List Bare} (ha : Stuck R a)
    (h : Par.Head R (elimHead m ms) a t) : t = .app (elimHead m ms) a := by
  cases h with
  | app => rfl
  | beta e => exact (spine_atom_ne_lam _ _ _ e).elim
  | iota _ _ e _ _ => exact (ha.ne_spine (a := .con _) trivial e).elim

/-- **What waits goes on waiting.** -/
theorem par {t t' : Bare} (h : Stuck R t) (hp : Par R t t') : Stuck R t' := by
  induction h generalizing t' with
  | var i =>
    obtain rfl := Par.var_inv hp
    exact .var i
  | const hc =>
    cases hp with
    | atom => exact .const hc
    | delta hr => exact absurd (hc.symm.trans hr) (by simp)
  | app a _ ih =>
    obtain ⟨f', a', hf, _, hh⟩ := Par.app_inv hp
    rw [head_app (ih hf) hh]
    exact .app _ (ih hf)
  | elim m ms _ ih =>
    obtain ⟨f', a', hf, ha, hh⟩ := Par.app_inv hp
    obtain ⟨m', ms', rfl, _, _⟩ := Par.elimHead_inv hf
    rw [head_elim (ih ha) hh]
    exact .elim _ _ (ih ha)

theorem pars {t t' : Bare} (h : Stuck R t) (hp : Pars R t t') : Stuck R t' := by
  induction hp with
  | refl => exact h
  | tail _ hs ih => exact ih.par hs

theorem pars_const {c : Name} (hc : R.unfold c = none) {t : Bare}
    (h : Pars R (.atom (.const c)) t) : t = .atom (.const c) := by
  induction h with
  | refl => rfl
  | tail _ hs ih =>
    subst ih
    cases hs with
    | atom => rfl
    | delta hr => exact absurd (hc.symm.trans hr) (by simp)

theorem pars_app {f a t : Bare} (hf : Stuck R f) (h : Pars R (.app f a) t) :
    ∃ f' a', t = .app f' a' ∧ Pars R f f' ∧ Pars R a a' := by
  induction h with
  | refl => exact ⟨f, a, rfl, .refl, .refl⟩
  | tail _ hs ih =>
    obtain ⟨f₁, a₁, rfl, hf₁, ha₁⟩ := ih
    obtain ⟨f₂, a₂, hf₂, ha₂, hh⟩ := Par.app_inv hs
    exact ⟨f₂, a₂, head_app ((hf.pars hf₁).par hf₂) hh, hf₁.tail hf₂, ha₁.tail ha₂⟩

theorem pars_elim {m a t : Bare} {ms : List Bare} (ha : Stuck R a)
    (h : Pars R (.app (elimHead m ms) a) t) :
    ∃ m' ms' a', t = .app (elimHead m' ms') a' ∧ Pars R (elimHead m ms) (elimHead m' ms') ∧
      Pars R a a' := by
  induction h with
  | refl => exact ⟨m, ms, a, rfl, .refl, .refl⟩
  | tail _ hs ih =>
    obtain ⟨m₁, ms₁, a₁, rfl, hf₁, ha₁⟩ := ih
    obtain ⟨f₂, a₂, hf₂, ha₂, hh⟩ := Par.app_inv hs
    obtain ⟨m₂, ms₂, rfl, _, _⟩ := Par.elimHead_inv hf₂
    exact ⟨m₂, ms₂, a₂, head_elim ((ha.pars ha₁).par ha₂) hh, hf₁.tail hf₂, ha₁.tail ha₂⟩

/-- **What waits is convertible with no spine without a rule.** -/
theorem not_conv_spine {t : Bare} (h : Stuck R t) {a : Atom} {args : List Bare}
    (ha : a.inert args.length) : ¬ Conv R t (spine (.atom a) args) := by
  rintro ⟨s, hs, hs'⟩
  obtain ⟨args', rfl, has⟩ := Pars.spine_inv ha hs'
  exact (h.pars hs).ne_spine (has.length_eq ▸ ha) rfl

theorem conv_app {f f' a a' : Bare} (hf : Stuck R f) (hf' : Stuck R f')
    (h : Conv R (.app f a) (.app f' a')) : Conv R f f' ∧ Conv R a a' := by
  obtain ⟨s, hs, hs'⟩ := h
  obtain ⟨g, b, rfl, hg, hb⟩ := pars_app hf hs
  obtain ⟨g', b', e, hg', hb'⟩ := pars_app hf' hs'
  obtain ⟨rfl, rfl⟩ := app.inj e
  exact ⟨⟨_, hg, hg'⟩, ⟨_, hb, hb'⟩⟩

theorem conv_elim {m m' a a' : Bare} {ms ms' : List Bare} (ha : Stuck R a) (ha' : Stuck R a')
    (h : Conv R (.app (elimHead m ms) a) (.app (elimHead m' ms') a')) :
    Conv R m m' ∧ List.Forall₂ (Conv R) ms ms' ∧ Conv R a a' := by
  obtain ⟨s, hs, hs'⟩ := h
  obtain ⟨n, ns, b, rfl, hn, hb⟩ := pars_elim ha hs
  obtain ⟨n', ns', b', e, hn', hb'⟩ := pars_elim ha' hs'
  obtain ⟨hh, rfl⟩ := app.inj e
  have hc : Conv R (elimHead m ms) (elimHead m' ms') := ⟨_, hn, hh ▸ hn'⟩
  obtain ⟨_, hc⟩ := Conv.spine_inj (by simp [Atom.inert]) (by simp [Atom.inert]) hc
  cases hc with
  | cons hm hms => exact ⟨hm, hms, _, hb, hb'⟩

theorem not_conv_app_elim {f a m t : Bare} {ms : List Bare} (hf : Stuck R f) (ht : Stuck R t) :
    ¬ Conv R (.app f a) (.app (elimHead m ms) t) := by
  rintro ⟨s, hs, hs'⟩
  obtain ⟨g, b, rfl, hg, _⟩ := pars_app hf hs
  obtain ⟨m', ms', b', e, _, _⟩ := pars_elim ht hs'
  exact (hf.pars hg).ne_elimHead m' ms' (app.inj e).1

/-- A variable or a postulate is convertible with no stuck application. -/
theorem not_conv_leaf {t f a : Bare} (ht : ∀ {u}, Pars R t u → u = t) (hne : ∀ f a, t ≠ .app f a)
    (h : Stuck R (.app f a)) : ¬ Conv R t (.app f a) := by
  rintro ⟨s, hs, hs'⟩
  obtain rfl := ht hs
  cases h with
  | app _ hf =>
    obtain ⟨_, _, rfl, _⟩ := pars_app hf hs'
    exact hne _ _ rfl
  | elim m ms ha =>
    obtain ⟨_, _, _, rfl, _⟩ := pars_elim ha hs'
    exact hne _ _ rfl

end Stuck

end Constructions
