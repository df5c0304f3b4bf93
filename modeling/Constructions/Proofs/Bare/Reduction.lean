/-
# Parallel reduction of bare terms

One step of `Par` reduces any number of places of a term at once:

| rule | contracts |
| --- | --- |
| `beta` | an application whose callee reduces to a function |
| `eta` | a function that only passes its argument on |
| `delta` | a defined constant |
| `iota` | an elimination whose target reduces to a constructor with all its arguments |

What constants unfold to and how constructors are eliminated is given by `Rules`.
The rules `beta` and `iota` look at what the callee and the target *reduce to* in
the same step, so a redex that a step creates at the head may be contracted in that
step.  This keeps the two rules free of any condition on the shape of the callee.

Main facts: reduction is kept by substitution (`Par.subst`), it comes back through a
renaming (`Par.of_rename`), and spines on atoms that have no rule reduce argument by
argument (`Par.spine_inv`).
-/

import Constructions.Proofs.Bare
import Mathlib.Data.List.Forall2
import Mathlib.Data.List.GetD

namespace Constructions

/-- How an elimination computes on a constructor: the number of its arguments, how many
of them are parameters, which of them are recursive, and the place of its method. -/
structure Branch where
  arity : Nat
  parameterCount : Nat
  recursiveFields : List Nat
  position : Nat

/-- What an elimination of a constructor with `args` becomes, if `m` is its method. -/
def Branch.contract (B : Branch) (m motive : Bare) (methods args : List Bare) : Bare :=
  m.spine (args.drop B.parameterCount ++
    B.recursiveFields.map fun i => .app (Bare.elimHead motive methods) (args.getD i (.atom .hole)))

/-- The rules that depend on what is declared. -/
structure Rules where
  unfold : Name → Option Bare
  branch : ConstructorId → Option Branch
  /-- Constants unfold to closed terms. -/
  closed : ∀ {c r}, unfold c = some r → ∀ σ, r.subst σ = r

/-- Related lists are related at each place. -/
theorem forall₂_getElem? {α β : Type} {r : α → β → Prop} {as : List α} {bs : List β}
    (h : List.Forall₂ r as bs) {i : Nat} {a : α} (ha : as[i]? = some a) :
    ∃ b, bs[i]? = some b ∧ r a b := by
  induction h generalizing i with
  | nil => cases ha
  | cons hr _ ih =>
    cases i with
    | zero =>
      obtain rfl := Option.some.inj ha
      exact ⟨_, rfl, hr⟩
    | succ i => exact ih ha

/-- Relations compose on lists as they do on elements. -/
theorem forall₂_comp {α β γ : Type} {r : α → β → Prop} {s : β → γ → Prop} {p : α → γ → Prop}
    (hp : ∀ {a b c}, r a b → s b c → p a c) {as : List α} {bs : List β} {cs : List γ}
    (h : List.Forall₂ r as bs) (h' : List.Forall₂ s bs cs) : List.Forall₂ p as cs := by
  induction h generalizing cs with
  | nil =>
    cases h'
    exact .nil
  | cons hr _ ih =>
    cases h' with
    | cons hs h' => exact .cons (hp hr hs) (ih h')

/-- Related lists are related part by part. -/
theorem forall₂_of_append {α β : Type} {r : α → β → Prop} {as as' : List α} {bs bs' : List β}
    (h : List.Forall₂ r (as ++ as') (bs ++ bs')) (hl : as.length = bs.length) :
    List.Forall₂ r as bs ∧ List.Forall₂ r as' bs' := by
  have ht := List.forall₂_take as.length h
  have hd := List.forall₂_drop as.length h
  rw [List.take_left, List.take_left' hl.symm] at ht
  rw [List.drop_left, List.drop_left' hl.symm] at hd
  exact ⟨ht, hd⟩

open Bare

/-- A step that reduces in any number of places at once. -/
inductive Par (R : Rules) : Bare → Bare → Prop where
  | var (i : Nat) : Par R (.var i) (.var i)
  | atom (a : Atom) : Par R (.atom a) (.atom a)
  | lam {b b' : Bare} : Par R b b' → Par R (.lam b) (.lam b')
  | app {f f' a a' : Bare} : Par R f f' → Par R a a' → Par R (.app f a) (.app f' a')
  | beta {f b a a' : Bare} : Par R f (.lam b) → Par R a a' → Par R (.app f a) (b.inst a')
  | eta {f f' : Bare} : Par R f f' → Par R (.lam (.app f.shift (.var 0))) f'
  | delta {c : Name} {r : Bare} : R.unfold c = some r → Par R (.atom (.const c)) r
  | iota {c : ConstructorId} {B : Branch} {f a m motive : Bare} {methods args : List Bare} :
      R.branch c = some B → Par R f (elimHead motive methods) →
      Par R a (spine (.atom (.con c)) args) → args.length = B.arity →
      methods[B.position]? = some m → Par R (.app f a) (B.contract m motive methods args)

variable {R : Rules}

namespace Branch

variable (B : Branch)

theorem rename_contract (ρ : Nat → Nat) (m motive : Bare) (methods args : List Bare) :
    (B.contract m motive methods args).rename ρ =
      B.contract (m.rename ρ) (motive.rename ρ) (methods.map (rename ρ)) (args.map (rename ρ)) := by
  rw [contract, rename_spine, contract, List.map_append, List.map_drop, List.map_map]
  congr 2
  refine List.map_congr_left fun i _ => ?_
  rw [Function.comp_apply, rename, rename_elimHead]
  exact congrArg _ (List.getD_map _ _ (rename ρ)).symm

theorem subst_contract (σ : Nat → Bare) (m motive : Bare) (methods args : List Bare) :
    (B.contract m motive methods args).subst σ =
      B.contract (m.subst σ) (motive.subst σ) (methods.map (subst σ)) (args.map (subst σ)) := by
  rw [contract, subst_spine, contract, List.map_append, List.map_drop, List.map_map]
  congr 2
  refine List.map_congr_left fun i _ => ?_
  rw [Function.comp_apply, subst, subst_elimHead]
  exact congrArg _ (List.getD_map _ _ (subst σ)).symm

end Branch

namespace Par

theorem refl (t : Bare) : Par R t t := by
  induction t with
  | var i => exact .var i
  | atom a => exact .atom a
  | lam b ih => exact .lam ih
  | app f a ihf iha => exact .app ihf iha

theorem spine {f f' : Bare} {as as' : List Bare} (hf : Par R f f')
    (h : List.Forall₂ (Par R) as as') :
    Par R (spine f as) (Bare.spine f' as') := by
  induction h generalizing f f' with
  | nil => exact hf
  | cons ha _ ih => exact ih (.app hf ha)

theorem elimHead {m m' : Bare} {ms ms' : List Bare} (hm : Par R m m')
    (h : List.Forall₂ (Par R) ms ms') : Par R (elimHead m ms) (Bare.elimHead m' ms') := by
  rw [Bare.elimHead, Bare.elimHead, h.length_eq]
  exact spine (.atom _) (.cons hm h)

theorem getD {as as' : List Bare} (h : List.Forall₂ (Par R) as as') (i : Nat) :
    Par R (as.getD i (.atom .hole)) (as'.getD i (.atom .hole)) := by
  induction h generalizing i with
  | nil => exact .atom _
  | cons ha _ ih =>
    cases i with
    | zero => exact ha
    | succ i => exact ih i

theorem contract {B : Branch} {m m' motive motive' : Bare} {methods methods' args args' : List Bare}
    (hm : Par R m m') (hM : Par R motive motive') (hms : List.Forall₂ (Par R) methods methods')
    (has : List.Forall₂ (Par R) args args') :
    Par R (B.contract m motive methods args) (B.contract m' motive' methods' args') := by
  refine spine hm (List.rel_append (List.forall₂_drop _ has) ?_)
  rw [List.forall₂_map_left_iff, List.forall₂_map_right_iff]
  exact List.forall₂_same.2 fun i _ => .app (elimHead hM hms) (getD has i)

theorem rename {t t' : Bare} (h : Par R t t') (ρ : Nat → Nat) :
    Par R (t.rename ρ) (t'.rename ρ) := by
  induction h generalizing ρ with
  | var i => exact .var _
  | atom a => exact .atom a
  | lam _ ih => exact .lam (ih _)
  | app _ _ ihf iha => exact .app (ihf ρ) (iha ρ)
  | beta _ _ ihf iha =>
    rw [rename_inst]
    exact .beta (ihf ρ) (iha ρ)
  | eta _ ih =>
    rw [Bare.rename, Bare.rename, shift_rename]
    exact .eta (ih ρ)
  | delta hr =>
    rw [rename_eq_subst ρ _, rename_eq_subst, R.closed hr]
    exact .delta hr
  | iota hB _ _ hl hm ihf iha =>
    rw [Branch.rename_contract]
    refine .iota hB ?_ ?_ ((List.length_map _).trans hl) ?_
    · exact rename_elimHead ρ _ _ ▸ ihf ρ
    · exact rename_spine ρ (.atom _) _ ▸ iha ρ
    · rw [List.getElem?_map, hm, Option.map_some]

theorem liftSub {σ σ' : Nat → Bare} (h : ∀ i, Par R (σ i) (σ' i)) (i : Nat) :
    Par R (liftSub σ i) (Bare.liftSub σ' i) := by
  cases i with
  | zero => exact .var 0
  | succ i => exact (h i).rename _

/-- **Reduction is kept by substitution.** -/
theorem subst {t t' : Bare} (h : Par R t t') {σ σ' : Nat → Bare} (hσ : ∀ i, Par R (σ i) (σ' i)) :
    Par R (t.subst σ) (t'.subst σ') := by
  induction h generalizing σ σ' with
  | var i => exact hσ i
  | atom a => exact .atom a
  | lam _ ih => exact .lam (ih (liftSub hσ))
  | app _ _ ihf iha => exact .app (ihf hσ) (iha hσ)
  | beta _ _ ihf iha =>
    rw [subst_inst]
    exact .beta (ihf hσ) (iha hσ)
  | eta _ ih =>
    rw [Bare.subst, Bare.subst, shift_subst]
    exact .eta (ih hσ)
  | delta hr =>
    rw [R.closed hr]
    exact .delta hr
  | iota hB _ _ hl hm ihf iha =>
    rw [Branch.subst_contract]
    refine .iota hB ?_ ?_ ((List.length_map _).trans hl) ?_
    · exact subst_elimHead σ' _ _ ▸ ihf hσ
    · exact subst_spine σ' (.atom _) _ ▸ iha hσ
    · rw [List.getElem?_map, hm, Option.map_some]

theorem inst {b b' a a' : Bare} (hb : Par R b b') (ha : Par R a a') :
    Par R (b.inst a) (b'.inst a') := by
  refine hb.subst fun i => ?_
  cases i with
  | zero => exact ha
  | succ i => exact .var i

end Par

/-! ### Renamings and reduction -/

/-- The variables that two renamings send to the same place come from one variable. -/
def Pullback (ρ ρ' τ τ' : Nat → Nat) : Prop :=
  ∀ i j, ρ i = ρ' j → ∃ k, i = τ k ∧ j = τ' k

theorem Pullback.lift {ρ ρ' τ τ' : Nat → Nat} (h : Pullback ρ ρ' τ τ') :
    Pullback (liftRen ρ) (liftRen ρ') (liftRen τ) (liftRen τ') := by
  intro i j hij
  cases i with
  | zero =>
    cases j with
    | zero => exact ⟨0, rfl, rfl⟩
    | succ j => cases hij
  | succ i =>
    cases j with
    | zero => cases hij
    | succ j =>
      obtain ⟨k, rfl, rfl⟩ := h i j (Nat.succ.inj hij)
      exact ⟨k + 1, rfl, rfl⟩

theorem Pullback.succ (ρ : Nat → Nat) : Pullback (liftRen ρ) Nat.succ Nat.succ ρ := by
  intro i j hij
  cases i with
  | zero => cases hij
  | succ i => exact ⟨i, rfl, (Nat.succ.inj hij).symm⟩

/-- **Terms that two renamings send to the same term come from one term.** -/
theorem Pullback.term {ρ ρ' τ τ' : Nat → Nat} (h : Pullback ρ ρ' τ τ') {t u : Bare}
    (e : t.rename ρ = u.rename ρ') : ∃ s : Bare, t = s.rename τ ∧ u = s.rename τ' := by
  induction t generalizing ρ ρ' τ τ' u with
  | var i =>
    cases u <;> simp only [rename, reduceCtorEq] at e
    obtain ⟨k, rfl, rfl⟩ := h _ _ (var.inj e)
    exact ⟨.var k, rfl, rfl⟩
  | atom a =>
    cases u <;> simp only [rename, reduceCtorEq] at e
    exact ⟨.atom a, rfl, by rw [atom.inj e]; rfl⟩
  | lam b ih =>
    cases u <;> simp only [rename, reduceCtorEq] at e
    obtain ⟨s, rfl, rfl⟩ := ih h.lift (lam.inj e)
    exact ⟨.lam s, rfl, rfl⟩
  | app f a ihf iha =>
    cases u <;> simp only [rename, reduceCtorEq] at e
    obtain ⟨s, rfl, rfl⟩ := ihf h (app.inj e).1
    obtain ⟨s', rfl, rfl⟩ := iha h (app.inj e).2
    exact ⟨.app s s', rfl, rfl⟩

theorem elimHead_eq_rename {ρ : Nat → Nat} {t m : Bare} {ms : List Bare}
    (h : t.rename ρ = elimHead m ms) :
    ∃ m' ms', t = elimHead m' ms' ∧ m = m'.rename ρ ∧ ms = ms'.map (rename ρ) := by
  obtain ⟨args, rfl, hargs⟩ := spine_atom_eq_rename h
  cases args with
  | nil => cases hargs
  | cons m' ms' =>
    obtain ⟨rfl, rfl⟩ := List.cons.inj hargs
    exact ⟨m', ms', by rw [elimHead, List.length_map], rfl, rfl⟩

/-- **A step of a renamed term is a renamed step.** -/
theorem Par.of_rename {ρ : Nat → Nat} {t x : Bare} (h : Par R (t.rename ρ) x) :
    ∃ t', x = t'.rename ρ ∧ Par R t t' := by
  generalize hs : t.rename ρ = s at h
  induction h generalizing t ρ with
  | var i =>
    exact ⟨t, hs.symm, .refl t⟩
  | atom a =>
    exact ⟨t, hs.symm, .refl t⟩
  | lam _ ih =>
    cases t <;> simp only [Bare.rename, reduceCtorEq] at hs
    obtain ⟨b', rfl, hb⟩ := ih (lam.inj hs)
    exact ⟨.lam b', rfl, .lam hb⟩
  | app _ _ ihf iha =>
    cases t <;> simp only [Bare.rename, reduceCtorEq] at hs
    obtain ⟨f', rfl, hf⟩ := ihf (app.inj hs).1
    obtain ⟨a', rfl, ha⟩ := iha (app.inj hs).2
    exact ⟨.app f' a', rfl, .app hf ha⟩
  | beta _ _ ihf iha =>
    cases t <;> simp only [Bare.rename, reduceCtorEq] at hs
    obtain ⟨f', hf', hf⟩ := ihf (app.inj hs).1
    obtain ⟨a', rfl, ha⟩ := iha (app.inj hs).2
    cases f' <;> simp only [Bare.rename, reduceCtorEq] at hf'
    obtain rfl := lam.inj hf'
    exact ⟨_, (rename_inst _ _ _).symm, .beta hf ha⟩
  | eta _ ih =>
    cases t <;> simp only [Bare.rename, reduceCtorEq] at hs
    rename_i t
    cases t <;> simp only [Bare.rename, reduceCtorEq, lam.injEq] at hs
    rename_i g w
    obtain ⟨hg, hw⟩ := app.inj hs
    cases w <;> simp only [Bare.rename, reduceCtorEq] at hw
    rename_i j
    cases j with
    | succ j => cases hw
    | zero =>
      obtain ⟨g', rfl, rfl⟩ := (Pullback.succ ρ).term hg
      obtain ⟨f', rfl, hf⟩ := ih rfl
      exact ⟨f', rfl, .eta hf⟩
  | delta hr =>
    cases t <;> simp only [Bare.rename, reduceCtorEq] at hs
    obtain rfl := atom.inj hs
    exact ⟨_, by rw [rename_eq_subst, R.closed hr], .delta hr⟩
  | iota hB _ _ hl hm ihf iha =>
    cases t <;> simp only [Bare.rename, reduceCtorEq] at hs
    obtain ⟨f', hf', hf⟩ := ihf (app.inj hs).1
    obtain ⟨a', ha', ha⟩ := iha (app.inj hs).2
    obtain ⟨motive, methods, rfl, rfl, rfl⟩ := elimHead_eq_rename hf'.symm
    obtain ⟨args, rfl, rfl⟩ := spine_atom_eq_rename ha'.symm
    rw [List.length_map] at hl
    rw [List.getElem?_map, Option.map_eq_some_iff] at hm
    obtain ⟨m, hm, rfl⟩ := hm
    exact ⟨_, (Branch.rename_contract ..).symm, .iota hB hf ha hl hm⟩

/-! ### Spines without a rule -/

/-- Is there no rule for an atom with `n` arguments?  Constants may unfold, and an
elimination computes once it has its target. -/
def Atom.inert (n : Nat) : Atom → Prop
  | .const _ => False
  | .elim k => n ≤ k + 1
  | _ => True

theorem Atom.inert.mono {a : Atom} {n m : Nat} (h : a.inert n) (hm : m ≤ n) : a.inert m := by
  cases a <;> simp only [Atom.inert] at h ⊢
  omega

namespace Par

theorem var_inv {i : Nat} {t : Bare} (h : Par R (.var i) t) : t = .var i := by
  cases h
  rfl

/-- **A spine without a rule reduces argument by argument.** -/
theorem spine_inv {a : Atom} {args : List Bare} (ha : a.inert args.length) {t : Bare}
    (h : Par R (Bare.spine (.atom a) args) t) :
    ∃ args', t = Bare.spine (.atom a) args' ∧ List.Forall₂ (Par R) args args' := by
  induction args using List.reverseRecOn generalizing t with
  | nil =>
    cases h with
    | atom => exact ⟨[], rfl, .nil⟩
    | delta => exact ha.elim
  | append_singleton args x ih =>
    rw [List.length_append, List.length_singleton] at ha
    have ih := fun {t} => @ih (ha.mono (Nat.le_succ _)) t
    rw [spine_concat] at h
    cases h with
    | app hf hx =>
      obtain ⟨args', rfl, h⟩ := ih hf
      exact ⟨args' ++ [_], (spine_concat _ _ _).symm, List.rel_append h (.cons hx .nil)⟩
    | beta hf _ =>
      obtain ⟨args', hl, _⟩ := ih hf
      exact (spine_atom_ne_lam _ _ _ hl.symm).elim
    | iota _ hf _ _ _ =>
      obtain ⟨args', hl, h⟩ := ih hf
      obtain ⟨rfl, he⟩ := spine_atom_inj hl
      have hn := h.length_eq
      rw [← he, List.length_cons] at hn
      simp only [Atom.inert] at ha
      omega

theorem elimHead_inv {m : Bare} {ms : List Bare} {t : Bare} (h : Par R (Bare.elimHead m ms) t) :
    ∃ m' ms', t = Bare.elimHead m' ms' ∧ Par R m m' ∧ List.Forall₂ (Par R) ms ms' := by
  obtain ⟨args, rfl, hargs⟩ := spine_inv (by simp [Atom.inert]) h
  cases hargs with
  | cons hm hms => exact ⟨_, _, by rw [Bare.elimHead, hms.length_eq], hm, hms⟩

end Par

end Constructions
