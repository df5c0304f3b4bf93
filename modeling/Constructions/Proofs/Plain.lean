/-
# Plain terms

Core terms without labels, in which a former or a constructor takes its arguments one
at a time.  Unlike bare terms they keep the domains of functions and the local
definitions, so they can be typed.

| plain term | bare term |
| --- | --- |
| `letIn A a b` | `b` with `a` for its variable |
| `pi A B` | the atom `pi` applied to `A` and to the function with body `B` |
| `lam A b` | the function with body `b` |

A list of terms is read as a substitution, the innermost variable first (`ofList`);
a variable beyond the list stands for the atom `hole`.  So what a list closes is
closed, and environments, telescopes and the arguments of a spine are all handled by
lists.
-/

import Constructions.Proofs.Bare
import Mathlib.Data.List.GetD

namespace Constructions

/-- A core term without labels, every argument applied one at a time. -/
inductive Plain where
  | var (index : Nat)
  | atom (a : Atom)
  | letIn (type argument body : Plain)
  | pi (domain codomain : Plain)
  | lam (domain body : Plain)
  | app (callee argument : Plain)

namespace Plain

/-- Renames the variables of a term. -/
def rename (ρ : Nat → Nat) : Plain → Plain
  | var i => var (ρ i)
  | atom a => atom a
  | letIn A a b => letIn (A.rename ρ) (a.rename ρ) (b.rename (liftRen ρ))
  | pi A B => pi (A.rename ρ) (B.rename (liftRen ρ))
  | lam A b => lam (A.rename ρ) (b.rename (liftRen ρ))
  | app f a => app (f.rename ρ) (a.rename ρ)

/-- A term under one more binder. -/
abbrev shift (t : Plain) : Plain := t.rename Nat.succ

/-- A substitution under one more binder. -/
def liftSub (σ : Nat → Plain) : Nat → Plain
  | 0 => var 0
  | i + 1 => (σ i).shift

/-- Substitutes for the variables of a term. -/
def subst (σ : Nat → Plain) : Plain → Plain
  | var i => σ i
  | atom a => atom a
  | letIn A a b => letIn (A.subst σ) (a.subst σ) (b.subst (liftSub σ))
  | pi A B => pi (A.subst σ) (B.subst (liftSub σ))
  | lam A b => lam (A.subst σ) (b.subst (liftSub σ))
  | app f a => app (f.subst σ) (a.subst σ)

/-- The substitution of `a` for the innermost variable and of `σ` for the others. -/
def consSub (a : Plain) (σ : Nat → Plain) : Nat → Plain
  | 0 => a
  | i + 1 => σ i

/-- Substitutes for the innermost variable. -/
def inst (b a : Plain) : Plain := b.subst (consSub a var)

theorem liftSub_var : liftSub var = var := by
  funext i
  cases i <;> rfl

@[simp] theorem subst_var (t : Plain) : t.subst var = t := by
  induction t with
  | var i => rfl
  | atom a => rfl
  | letIn A a b ihA iha ihb => rw [subst, liftSub_var, ihA, iha, ihb]
  | pi A B ihA ihB => rw [subst, liftSub_var, ihA, ihB]
  | lam A b ihA ihb => rw [subst, liftSub_var, ihA, ihb]
  | app f a ihf iha => rw [subst, ihf, iha]

theorem rename_eq_subst (ρ : Nat → Nat) (t : Plain) :
    t.rename ρ = t.subst (fun i => var (ρ i)) := by
  induction t generalizing ρ with
  | var i => rfl
  | atom a => rfl
  | letIn A a b ihA iha ihb => rw [rename, subst, ihA, iha, ihb, lift]
  | pi A B ihA ihB => rw [rename, subst, ihA, ihB, lift]
  | lam A b ihA ihb => rw [rename, subst, ihA, ihb, lift]
  | app f a ihf iha => rw [rename, subst, ihf, iha]
where
  lift {ρ : Nat → Nat} : (fun i => var (liftRen ρ i)) = liftSub (fun i => var (ρ i)) := by
    funext i
    cases i <;> rfl

theorem subst_rename (ρ : Nat → Nat) (σ : Nat → Plain) (t : Plain) :
    (t.rename ρ).subst σ = t.subst (fun i => σ (ρ i)) := by
  induction t generalizing ρ σ with
  | var i => rfl
  | atom a => rfl
  | letIn A a b ihA iha ihb => rw [rename, subst, subst, ihA, iha, ihb, lift]
  | pi A B ihA ihB => rw [rename, subst, subst, ihA, ihB, lift]
  | lam A b ihA ihb => rw [rename, subst, subst, ihA, ihb, lift]
  | app f a ihf iha => rw [rename, subst, subst, ihf, iha]
where
  lift {ρ : Nat → Nat} {σ : Nat → Plain} :
      (fun i => liftSub σ (liftRen ρ i)) = liftSub (fun i => σ (ρ i)) := by
    funext i
    cases i <;> rfl

theorem rename_rename (ρ τ : Nat → Nat) (t : Plain) :
    (t.rename ρ).rename τ = t.rename (fun i => τ (ρ i)) := by
  rw [rename_eq_subst τ, subst_rename, ← rename_eq_subst]

theorem shift_rename (ρ : Nat → Nat) (t : Plain) :
    t.shift.rename (liftRen ρ) = (t.rename ρ).shift := by
  rw [shift, shift, rename_rename, rename_rename]
  rfl

theorem rename_subst (σ : Nat → Plain) (ρ : Nat → Nat) (t : Plain) :
    (t.subst σ).rename ρ = t.subst (fun i => (σ i).rename ρ) := by
  induction t generalizing ρ σ with
  | var i => rfl
  | atom a => rfl
  | letIn A a b ihA iha ihb => rw [subst, rename, subst, ihA, iha, ihb, lift]
  | pi A B ihA ihB => rw [subst, rename, subst, ihA, ihB, lift]
  | lam A b ihA ihb => rw [subst, rename, subst, ihA, ihb, lift]
  | app f a ihf iha => rw [subst, rename, subst, ihf, iha]
where
  lift {ρ : Nat → Nat} {σ : Nat → Plain} :
      (fun i => (liftSub σ i).rename (liftRen ρ)) = liftSub (fun i => (σ i).rename ρ) := by
    funext i
    cases i with
    | zero => rfl
    | succ i => exact shift_rename ρ (σ i)

theorem shift_subst (σ : Nat → Plain) (t : Plain) :
    t.shift.subst (liftSub σ) = (t.subst σ).shift :=
  (subst_rename _ _ _).trans (rename_subst _ _ _).symm

/-- **Two substitutions one after the other are one.** -/
theorem subst_subst (σ τ : Nat → Plain) (t : Plain) :
    (t.subst σ).subst τ = t.subst (fun i => (σ i).subst τ) := by
  induction t generalizing σ τ with
  | var i => rfl
  | atom a => rfl
  | letIn A a b ihA iha ihb => rw [subst, subst, subst, ihA, iha, ihb, lift]
  | pi A B ihA ihB => rw [subst, subst, subst, ihA, ihB, lift]
  | lam A b ihA ihb => rw [subst, subst, subst, ihA, ihb, lift]
  | app f a ihf iha => rw [subst, subst, subst, ihf, iha]
where
  lift {σ τ : Nat → Plain} :
      (fun i => (liftSub σ i).subst (liftSub τ)) = liftSub (fun i => (σ i).subst τ) := by
    funext i
    cases i with
    | zero => rfl
    | succ i => exact shift_subst τ (σ i)

theorem subst_consSub (σ : Nat → Plain) (b a : Plain) :
    (b.subst (liftSub σ)).inst a = b.subst (consSub a σ) := by
  rw [inst, subst_subst]
  congr 1
  funext i
  cases i with
  | zero => rfl
  | succ i => exact (subst_rename _ _ _).trans (subst_var _)

theorem subst_inst (σ : Nat → Plain) (b a : Plain) :
    (b.inst a).subst σ = (b.subst (liftSub σ)).inst (a.subst σ) := by
  rw [subst_consSub, inst, subst_subst]
  congr 1
  funext i
  cases i <;> rfl

theorem rename_inst (ρ : Nat → Nat) (b a : Plain) :
    (b.inst a).rename ρ = (b.rename (liftRen ρ)).inst (a.rename ρ) := by
  rw [inst, inst, rename_subst, subst_rename]
  congr 1
  funext i
  cases i <;> rfl

@[simp] theorem shift_inst (t a : Plain) : t.shift.inst a = t :=
  (subst_rename _ _ _).trans (subst_var t)

/-- Opening a shifted body with the variable it was shifted over changes nothing. -/
theorem inst_lift_shift (b : Plain) : (b.rename (liftRen Nat.succ)).inst (var 0) = b := by
  rw [inst, subst_rename]
  refine Eq.trans ?_ (subst_var b)
  congr 1
  funext i
  cases i <;> rfl

/-- Nothing in the term depends on its surroundings. -/
def Closed (t : Plain) : Prop := ∀ σ, t.subst σ = t

theorem Closed.rename {t : Plain} (h : t.Closed) (ρ : Nat → Nat) : t.rename ρ = t := by
  rw [rename_eq_subst, h]

/-! ### Lists as substitutions -/

/-- A list as a substitution, the innermost variable first. -/
def ofList (e : List Plain) : Nat → Plain := fun i => e.getD i (atom .hole)

theorem ofList_cons (a : Plain) (e : List Plain) : ofList (a :: e) = consSub a (ofList e) := by
  funext i
  cases i <;> rfl

theorem ofList_subst (σ : Nat → Plain) (e : List Plain) (i : Nat) :
    (ofList e i).subst σ = ofList (e.map (subst σ)) i :=
  (List.getD_map _ _ (subst σ)).symm

theorem ofList_rename (ρ : Nat → Nat) (e : List Plain) (i : Nat) :
    (ofList e i).rename ρ = ofList (e.map (rename ρ)) i :=
  (List.getD_map _ _ (rename ρ)).symm

/-- **What a list closes is instantiated by instantiating the list.** -/
theorem subst_ofList (σ : Nat → Plain) (e : List Plain) (t : Plain) :
    (t.subst (ofList e)).subst σ = t.subst (ofList (e.map (subst σ))) := by
  rw [subst_subst]
  congr 1
  funext i
  exact ofList_subst σ e i

theorem rename_ofList (ρ : Nat → Nat) (e : List Plain) (t : Plain) :
    (t.subst (ofList e)).rename ρ = t.subst (ofList (e.map (rename ρ))) := by
  rw [rename_subst]
  congr 1
  funext i
  exact ofList_rename ρ e i

theorem liftSub_ofList (e : List Plain) : liftSub (ofList e) = ofList (var 0 :: e.map shift) := by
  funext i
  cases i with
  | zero => rfl
  | succ i => exact ofList_rename Nat.succ e i

theorem inst_ofList (e : List Plain) (b a : Plain) :
    (b.subst (liftSub (ofList e))).inst a = b.subst (ofList (a :: e)) := by
  rw [subst_consSub, ofList_cons]

/-! ### Spines -/

/-- A term applied to arguments, the first one innermost. -/
def spine (f : Plain) (args : List Plain) : Plain := args.foldl app f

@[simp] theorem spine_nil (f : Plain) : spine f [] = f := rfl

@[simp] theorem spine_cons (f a : Plain) (args : List Plain) :
    spine f (a :: args) = spine (app f a) args := rfl

theorem spine_append (f : Plain) (as bs : List Plain) :
    spine f (as ++ bs) = spine (spine f as) bs := List.foldl_append

@[simp] theorem spine_concat (f a : Plain) (args : List Plain) :
    spine f (args ++ [a]) = app (spine f args) a := spine_append f args [a]

theorem rename_spine (ρ : Nat → Nat) (f : Plain) (args : List Plain) :
    (spine f args).rename ρ = spine (f.rename ρ) (args.map (rename ρ)) := by
  induction args generalizing f with
  | nil => rfl
  | cons a args ih => exact ih (app f a)

theorem subst_spine (σ : Nat → Plain) (f : Plain) (args : List Plain) :
    (spine f args).subst σ = spine (f.subst σ) (args.map (subst σ)) := by
  induction args generalizing f with
  | nil => rfl
  | cons a args ih => exact ih (app f a)

/-- **A spine that ends on an atom is a longer spine on that atom.** -/
theorem spine_eq_spine_atom {f : Plain} {a : Atom} {as bs : List Plain}
    (h : spine f as = spine (atom a) bs) (hf : ∀ g x, f ≠ app g x) : f = atom a ∧ as = bs := by
  induction as using List.reverseRecOn generalizing bs with
  | nil =>
    cases bs using List.reverseRecOn with
    | nil => exact ⟨h, rfl⟩
    | append_singleton bs y => exact (hf _ _ (h.trans (spine_concat _ _ _))).elim
  | append_singleton as x ih =>
    cases bs using List.reverseRecOn with
    | nil => simp at h
    | append_singleton bs y =>
      rw [spine_concat, spine_concat] at h
      obtain ⟨hf', rfl⟩ := app.inj h
      obtain ⟨rfl, rfl⟩ := ih hf'
      exact ⟨rfl, rfl⟩

theorem spine_atom_inj {a b : Atom} {as bs : List Plain}
    (h : spine (atom a) as = spine (atom b) bs) : a = b ∧ as = bs := by
  obtain ⟨ha, has⟩ := spine_eq_spine_atom h (by simp)
  exact ⟨atom.inj ha, has⟩

theorem spine_atom_ne_lam (a : Atom) (as : List Plain) (A b : Plain) :
    spine (atom a) as ≠ lam A b := by
  cases as using List.reverseRecOn with
  | nil => simp
  | append_singleton as x => simp

/-- An elimination that waits for its target. -/
def elimHead (motive : Plain) (methods : List Plain) : Plain :=
  spine (atom (.elim methods.length)) (motive :: methods)

/-- An elimination. -/
abbrev elim (motive : Plain) (methods : List Plain) (target : Plain) : Plain :=
  app (elimHead motive methods) target

theorem rename_elimHead (ρ : Nat → Nat) (m : Plain) (ms : List Plain) :
    (elimHead m ms).rename ρ = elimHead (m.rename ρ) (ms.map (rename ρ)) := by
  rw [elimHead, rename_spine, elimHead, List.length_map]
  rfl

theorem subst_elimHead (σ : Nat → Plain) (m : Plain) (ms : List Plain) :
    (elimHead m ms).subst σ = elimHead (m.subst σ) (ms.map (subst σ)) := by
  rw [elimHead, subst_spine, elimHead, List.length_map]
  rfl

theorem elimHead_inj {m m' : Plain} {ms ms' : List Plain} (h : elimHead m ms = elimHead m' ms') :
    m = m' ∧ ms = ms' := by
  obtain ⟨_, h⟩ := spine_atom_inj h
  exact List.cons.inj h

/-! ### Telescopes -/

/-- Function types over a telescope, the first domain outermost. -/
def pis (telescope : List Plain) (body : Plain) : Plain := telescope.foldr pi body

@[simp] theorem pis_nil (B : Plain) : pis [] B = B := rfl

@[simp] theorem pis_cons (A : Plain) (Φ : List Plain) (B : Plain) :
    pis (A :: Φ) B = pi A (pis Φ B) := rfl

theorem pis_append (Φ Ψ : List Plain) (B : Plain) : pis (Φ ++ Ψ) B = pis Φ (pis Ψ B) :=
  List.foldr_append

/-- Function types over domains that do not depend on each other. -/
def arrows : List Plain → Plain → Plain
  | [], B => B
  | A :: As, B => pi A (arrows As B).shift

theorem arrows_subst (σ : Nat → Plain) (As : List Plain) (B : Plain) :
    (arrows As B).subst σ = arrows (As.map (subst σ)) (B.subst σ) := by
  induction As with
  | nil => rfl
  | cons A As ih => rw [arrows, subst, shift_subst, ih]; rfl

theorem arrows_shift (As : List Plain) (B : Plain) :
    (arrows As B).shift = arrows (As.map shift) B.shift := by
  rw [shift, rename_eq_subst, arrows_subst, ← rename_eq_subst]
  congr 1
  exact List.map_congr_left fun A _ => (rename_eq_subst Nat.succ A).symm

/-- Renames a telescope: each domain is under the binders before it. -/
def renameTele (ρ : Nat → Nat) : List Plain → List Plain
  | [] => []
  | A :: Φ => A.rename ρ :: renameTele (liftRen ρ) Φ

@[simp] theorem length_renameTele (ρ : Nat → Nat) (Φ : List Plain) :
    (renameTele ρ Φ).length = Φ.length := by
  induction Φ generalizing ρ with
  | nil => rfl
  | cons A Φ ih => rw [renameTele, List.length_cons, ih, List.length_cons]

/-- Substitutes in a telescope: each domain is under the binders before it. -/
def substTele (σ : Nat → Plain) : List Plain → List Plain
  | [] => []
  | A :: Φ => A.subst σ :: substTele (liftSub σ) Φ

/-- A substitution under `n` more binders. -/
def liftSubs (σ : Nat → Plain) : Nat → Nat → Plain
  | 0 => σ
  | n + 1 => liftSubs (liftSub σ) n

@[simp] theorem length_substTele (σ : Nat → Plain) (Φ : List Plain) :
    (substTele σ Φ).length = Φ.length := by
  induction Φ generalizing σ with
  | nil => rfl
  | cons A Φ ih => rw [substTele, List.length_cons, ih, List.length_cons]

theorem pis_subst (σ : Nat → Plain) (Φ : List Plain) (B : Plain) :
    (pis Φ B).subst σ = pis (substTele σ Φ) (B.subst (liftSubs σ Φ.length)) := by
  induction Φ generalizing σ with
  | nil => rfl
  | cons A Φ ih => exact congrArg (pi _) (ih (liftSub σ))

/-- Substituting in a renamed telescope. -/
theorem substTele_renameTele (ρ : Nat → Nat) (σ : Nat → Plain) (Φ : List Plain) :
    substTele σ (renameTele ρ Φ) = substTele (fun i => σ (ρ i)) Φ := by
  induction Φ generalizing ρ σ with
  | nil => rfl
  | cons A Φ ih => rw [renameTele, substTele, substTele, subst_rename, ih, subst_rename.lift]

/-- The variables of a scope with `n` binders, the outermost first. -/
def vars (n : Nat) : List Plain := (List.range n).reverse.map var

@[simp] theorem length_vars (n : Nat) : (vars n).length = n := by simp [vars]

theorem vars_succ (n : Nat) : vars (n + 1) = var n :: vars n := by
  rw [vars, List.range_succ, List.reverse_append, List.map_append]
  rfl

theorem getElem?_vars {n i : Nat} (h : i < n) : (vars n)[i]? = some (var (n - 1 - i)) := by
  rw [vars, List.getElem?_map, List.getElem?_reverse (by simpa using h), List.length_range,
    List.getElem?_range (by omega)]
  rfl

/-- **A list substitution under binders keeps the variables of the binders.** -/
theorem liftSubs_ofList (e : List Plain) (n : Nat) :
    liftSubs (ofList e) n = ofList ((vars n).reverse ++ e.map (rename (· + n))) := by
  induction n generalizing e with
  | zero =>
    rw [liftSubs, vars]
    congr 1
    exact (List.map_id' e).symm.trans (List.map_congr_left fun t _ =>
      ((rename_eq_subst _ t).trans (subst_var t)).symm)
  | succ n ih =>
    rw [liftSubs, liftSub_ofList, ih, vars_succ, List.reverse_cons, List.append_assoc,
      List.map_cons, List.map_map]
    congr 3
    · rw [rename, Nat.zero_add]
    · exact List.map_congr_left fun t _ => (rename_rename _ _ t).trans
        (congrArg (fun ρ => t.rename ρ) (funext fun i => by omega))

/-- **The variables of a scope stand for what the scope is closed with.** -/
theorem vars_subst (e : List Plain) :
    (vars e.length).map (subst (ofList e)) = e.reverse := by
  rw [vars, List.map_map, List.map_reverse]
  congr 1
  refine List.ext_getElem (by simp) fun i h _ => ?_
  have hi : i < e.length := by simpa using h
  simp [subst, ofList, List.getElem?_eq_getElem hi]

/-! ### Erasure -/

/-- A plain term without its domains and local definitions. -/
def bare : Plain → Bare
  | var i => .var i
  | atom a => .atom a
  | letIn _ a b => b.bare.inst a.bare
  | pi A B => .app (.app (.atom .pi) A.bare) (.lam B.bare)
  | lam _ b => .lam b.bare
  | app f a => .app f.bare a.bare

theorem bare_rename (ρ : Nat → Nat) (t : Plain) : (t.rename ρ).bare = t.bare.rename ρ := by
  induction t generalizing ρ with
  | var i => rfl
  | atom a => rfl
  | letIn A a b _ iha ihb => rw [rename, bare, iha, ihb, bare, Bare.rename_inst]
  | pi A B ihA ihB => rw [rename, bare, ihA, ihB]; rfl
  | lam A b _ ihb => rw [rename, bare, ihb]; rfl
  | app f a ihf iha => rw [rename, bare, ihf, iha]; rfl

theorem bare_subst (σ : Nat → Plain) (t : Plain) :
    (t.subst σ).bare = t.bare.subst (fun i => (σ i).bare) := by
  induction t generalizing σ with
  | var i => rfl
  | atom a => rfl
  | letIn A a b _ iha ihb => rw [subst, bare, iha, ihb, bare, Bare.subst_inst, lift]
  | pi A B ihA ihB => rw [subst, bare, ihA, ihB, lift]; rfl
  | lam A b _ ihb => rw [subst, bare, ihb, lift]; rfl
  | app f a ihf iha => rw [subst, bare, ihf, iha]; rfl
where
  lift {σ : Nat → Plain} :
      (fun i => (liftSub σ i).bare) = Bare.liftSub (fun i => (σ i).bare) := by
    funext i
    cases i with
    | zero => rfl
    | succ i => exact bare_rename _ _

theorem bare_inst (b a : Plain) : (b.inst a).bare = b.bare.inst a.bare := by
  rw [inst, bare_subst, Bare.inst]
  congr 1
  funext i
  cases i <;> rfl

theorem bare_spine (f : Plain) (args : List Plain) :
    (spine f args).bare = f.bare.spine (args.map bare) := by
  induction args generalizing f with
  | nil => rfl
  | cons a args ih => exact ih (app f a)

theorem bare_elimHead (m : Plain) (ms : List Plain) :
    (elimHead m ms).bare = Bare.elimHead m.bare (ms.map bare) := by
  rw [elimHead, bare_spine, Bare.elimHead, List.length_map]
  rfl

end Plain

end Constructions
