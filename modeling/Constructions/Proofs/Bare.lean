/-
# Bare terms

What is left of a term when its labels, the domains of its functions and its local
definitions are taken away, and every argument is applied one at a time.  Four
forms remain:

| bare term | meaning |
| --- | --- |
| `var` | a variable, counted from the innermost binder |
| `atom` | a universe, a constant, a former, a constructor, ... |
| `lam` | a function, of which only the body is kept |
| `app` | an application |

A function type is the atom `pi` applied to its domain and to its codomain as a
function.  An elimination is the atom `elim k` applied to the motive, to the `k`
methods and then to the target (`elimHead`, `spine`).

Substitutions are functions from variables to terms.  `subst_subst` and its
special cases are all that later modules use of them.
-/

import Constructions.Term
import Mathlib.Data.List.Induction

namespace Constructions

/-- What a term is built from besides variables, functions and applications.  The
atom `hole` stands for a variable that nothing binds. -/
inductive Atom where
  | type (level : Nat)
  | pi
  | const (name : Name)
  | former (id : FamilyId)
  | con (id : ConstructorId)
  | elim (methods : Nat)
  | hole
  deriving DecidableEq

/-- A renaming under one more binder. -/
def liftRen (ρ : Nat → Nat) : Nat → Nat
  | 0 => 0
  | i + 1 => ρ i + 1

/-- A term without labels, domains and local definitions. -/
inductive Bare where
  | var (index : Nat)
  | atom (a : Atom)
  | lam (body : Bare)
  | app (callee argument : Bare)

namespace Bare

/-- Renames the variables of a term. -/
def rename (ρ : Nat → Nat) : Bare → Bare
  | var i => var (ρ i)
  | atom a => atom a
  | lam b => lam (b.rename (liftRen ρ))
  | app f a => app (f.rename ρ) (a.rename ρ)

/-- A term under one more binder. -/
abbrev shift (t : Bare) : Bare := t.rename Nat.succ

/-- A substitution under one more binder. -/
def liftSub (σ : Nat → Bare) : Nat → Bare
  | 0 => var 0
  | i + 1 => (σ i).shift

/-- Substitutes for the variables of a term. -/
def subst (σ : Nat → Bare) : Bare → Bare
  | var i => σ i
  | atom a => atom a
  | lam b => lam (b.subst (liftSub σ))
  | app f a => app (f.subst σ) (a.subst σ)

/-- The substitution of `a` for the innermost variable and of `σ` for the others. -/
def consSub (a : Bare) (σ : Nat → Bare) : Nat → Bare
  | 0 => a
  | i + 1 => σ i

/-- Substitutes for the innermost variable. -/
def inst (b a : Bare) : Bare := b.subst (consSub a var)

theorem liftSub_var : liftSub var = var := by
  funext i
  cases i <;> rfl

@[simp] theorem subst_var (t : Bare) : t.subst var = t := by
  induction t with
  | var i => rfl
  | atom a => rfl
  | lam b ih => rw [subst, liftSub_var, ih]
  | app f a ihf iha => rw [subst, ihf, iha]

theorem rename_eq_subst (ρ : Nat → Nat) (t : Bare) : t.rename ρ = t.subst (fun i => var (ρ i)) := by
  induction t generalizing ρ with
  | var i => rfl
  | atom a => rfl
  | lam b ih =>
    have h : (fun i => var (liftRen ρ i)) = liftSub (fun i => var (ρ i)) := by
      funext i
      cases i <;> rfl
    rw [rename, subst, ih, h]
  | app f a ihf iha => rw [rename, subst, ihf, iha]

theorem subst_rename (ρ : Nat → Nat) (σ : Nat → Bare) (t : Bare) :
    (t.rename ρ).subst σ = t.subst (fun i => σ (ρ i)) := by
  induction t generalizing ρ σ with
  | var i => rfl
  | atom a => rfl
  | lam b ih =>
    have h : (fun i => liftSub σ (liftRen ρ i)) = liftSub (fun i => σ (ρ i)) := by
      funext i
      cases i <;> rfl
    rw [rename, subst, subst, ih, h]
  | app f a ihf iha => rw [rename, subst, subst, ihf, iha]

theorem rename_rename (ρ τ : Nat → Nat) (t : Bare) :
    (t.rename ρ).rename τ = t.rename (fun i => τ (ρ i)) := by
  rw [rename_eq_subst τ, subst_rename, ← rename_eq_subst]

theorem rename_subst (σ : Nat → Bare) (ρ : Nat → Nat) (t : Bare) :
    (t.subst σ).rename ρ = t.subst (fun i => (σ i).rename ρ) := by
  induction t generalizing ρ σ with
  | var i => rfl
  | atom a => rfl
  | lam b ih =>
    have h : (fun i => (liftSub σ i).rename (liftRen ρ)) = liftSub (fun i => (σ i).rename ρ) := by
      funext i
      cases i with
      | zero => rfl
      | succ i =>
        rw [liftSub, liftSub, shift, shift, rename_rename, rename_rename]
        rfl
    rw [subst, rename, subst, ih, h]
  | app f a ihf iha => rw [subst, rename, subst, ihf, iha]

/-- **Two substitutions one after the other are one.** -/
theorem subst_subst (σ τ : Nat → Bare) (t : Bare) :
    (t.subst σ).subst τ = t.subst (fun i => (σ i).subst τ) := by
  induction t generalizing σ τ with
  | var i => rfl
  | atom a => rfl
  | lam b ih =>
    have h : (fun i => (liftSub σ i).subst (liftSub τ)) = liftSub (fun i => (σ i).subst τ) := by
      funext i
      cases i with
      | zero => rfl
      | succ i => exact (subst_rename _ _ _).trans (rename_subst _ _ _).symm
    rw [subst, subst, subst, ih, h]
  | app f a ihf iha => rw [subst, subst, subst, ihf, iha]

theorem subst_consSub (σ : Nat → Bare) (b a : Bare) :
    (b.subst (liftSub σ)).inst a = b.subst (consSub a σ) := by
  rw [inst, subst_subst]
  congr 1
  funext i
  cases i with
  | zero => rfl
  | succ i => exact (subst_rename _ _ _).trans (subst_var _)

theorem subst_inst (σ : Nat → Bare) (b a : Bare) :
    (b.inst a).subst σ = (b.subst (liftSub σ)).inst (a.subst σ) := by
  rw [subst_consSub, inst, subst_subst]
  congr 1
  funext i
  cases i <;> rfl

theorem rename_inst (ρ : Nat → Nat) (b a : Bare) :
    (b.inst a).rename ρ = (b.rename (liftRen ρ)).inst (a.rename ρ) := by
  rw [inst, inst, rename_subst, subst_rename]
  congr 1
  funext i
  cases i <;> rfl

@[simp] theorem shift_inst (t a : Bare) : t.shift.inst a = t :=
  (subst_rename _ _ _).trans (subst_var t)

theorem shift_rename (ρ : Nat → Nat) (t : Bare) :
    t.shift.rename (liftRen ρ) = (t.rename ρ).shift := by
  rw [shift, shift, rename_rename, rename_rename]
  rfl

theorem shift_subst (σ : Nat → Bare) (t : Bare) :
    t.shift.subst (liftSub σ) = (t.subst σ).shift :=
  (subst_rename _ _ _).trans (rename_subst _ _ _).symm

/-- Opening a shifted body with the variable it was shifted over changes nothing. -/
theorem inst_lift_shift (b : Bare) : (b.rename (liftRen Nat.succ)).inst (var 0) = b := by
  rw [inst, subst_rename]
  refine Eq.trans ?_ (subst_var b)
  congr 1
  funext i
  cases i <;> rfl

/-- The number of nodes of a term. -/
def size : Bare → Nat
  | var _ => 1
  | atom _ => 1
  | lam b => b.size + 1
  | app f a => f.size + a.size + 1

@[simp] theorem size_rename (ρ : Nat → Nat) (t : Bare) : (t.rename ρ).size = t.size := by
  induction t generalizing ρ with
  | var i => rfl
  | atom a => rfl
  | lam b ih => rw [rename, size, size, ih]
  | app f a ihf iha => rw [rename, size, size, ihf, iha]

/-! ### Spines -/

/-- A term applied to arguments, the first one innermost. -/
def spine (f : Bare) (args : List Bare) : Bare := args.foldl app f

@[simp] theorem spine_nil (f : Bare) : spine f [] = f := rfl

@[simp] theorem spine_cons (f a : Bare) (args : List Bare) :
    spine f (a :: args) = spine (app f a) args := rfl

theorem spine_append (f : Bare) (as bs : List Bare) :
    spine f (as ++ bs) = spine (spine f as) bs := List.foldl_append

@[simp] theorem spine_concat (f a : Bare) (args : List Bare) :
    spine f (args ++ [a]) = app (spine f args) a := spine_append f args [a]

theorem rename_spine (ρ : Nat → Nat) (f : Bare) (args : List Bare) :
    (spine f args).rename ρ = spine (f.rename ρ) (args.map (rename ρ)) := by
  induction args generalizing f with
  | nil => rfl
  | cons a args ih => exact ih (app f a)

theorem subst_spine (σ : Nat → Bare) (f : Bare) (args : List Bare) :
    (spine f args).subst σ = spine (f.subst σ) (args.map (subst σ)) := by
  induction args generalizing f with
  | nil => rfl
  | cons a args ih => exact ih (app f a)

/-- **Spines on atoms can be taken apart.** -/
theorem spine_atom_inj {a b : Atom} {as bs : List Bare}
    (h : spine (atom a) as = spine (atom b) bs) : a = b ∧ as = bs := by
  induction as using List.reverseRecOn generalizing bs with
  | nil =>
    cases bs using List.reverseRecOn with
    | nil => exact ⟨atom.inj h, rfl⟩
    | append_singleton bs y => simp at h
  | append_singleton as x ih =>
    cases bs using List.reverseRecOn with
    | nil => simp at h
    | append_singleton bs y =>
      rw [spine_concat, spine_concat] at h
      obtain ⟨hf, rfl⟩ := app.inj h
      obtain ⟨rfl, rfl⟩ := ih hf
      exact ⟨rfl, rfl⟩

theorem spine_atom_ne_lam (a : Atom) (as : List Bare) (b : Bare) : spine (atom a) as ≠ lam b := by
  cases as using List.reverseRecOn with
  | nil => simp
  | append_singleton as x => simp

theorem spine_atom_ne_var (a : Atom) (as : List Bare) (i : Nat) : spine (atom a) as ≠ var i := by
  cases as using List.reverseRecOn with
  | nil => simp
  | append_singleton as x => simp

/-- A spine on an atom that is a renamed term was one before. -/
theorem spine_atom_eq_rename {ρ : Nat → Nat} {t : Bare} {a : Atom} {args : List Bare}
    (h : t.rename ρ = spine (atom a) args) :
    ∃ args', t = spine (atom a) args' ∧ args = args'.map (rename ρ) := by
  induction args using List.reverseRecOn generalizing t with
  | nil =>
    cases t <;> simp only [rename, spine_nil, reduceCtorEq] at h
    obtain rfl := atom.inj h
    exact ⟨[], rfl, rfl⟩
  | append_singleton args x ih =>
    rw [spine_concat] at h
    cases t <;> simp only [rename, reduceCtorEq] at h
    obtain ⟨hf, rfl⟩ := app.inj h
    obtain ⟨args', rfl, rfl⟩ := ih hf
    exact ⟨args' ++ [_], by rw [spine_concat], by rw [List.map_append]; rfl⟩

/-- An elimination that waits for its target. -/
def elimHead (motive : Bare) (methods : List Bare) : Bare :=
  spine (atom (.elim methods.length)) (motive :: methods)

theorem rename_elimHead (ρ : Nat → Nat) (m : Bare) (ms : List Bare) :
    (elimHead m ms).rename ρ = elimHead (m.rename ρ) (ms.map (rename ρ)) := by
  rw [elimHead, rename_spine, elimHead, List.length_map]
  rfl

theorem subst_elimHead (σ : Nat → Bare) (m : Bare) (ms : List Bare) :
    (elimHead m ms).subst σ = elimHead (m.subst σ) (ms.map (subst σ)) := by
  rw [elimHead, subst_spine, elimHead, List.length_map]
  rfl

theorem elimHead_inj {m m' : Bare} {ms ms' : List Bare} (h : elimHead m ms = elimHead m' ms') :
    m = m' ∧ ms = ms' := by
  obtain ⟨_, h⟩ := spine_atom_inj h
  exact List.cons.inj h

end Bare

end Constructions
