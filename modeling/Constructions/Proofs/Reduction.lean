/-
# Reduction of core terms

The rules by which core terms compute, said with substitution and indices, and without
environments, closures and levels:

| rule | from | to |
| --- | --- | --- |
| `beta` | a function applied to an argument | its body with the argument in it |
| `zeta` | a local definition | its body with the definition in it |
| `delta` | a defined constant | the term it was declared with |
| `former`, `con` | a former or constructor, applied | the same with the argument in its list |
| `iota` | an elimination of a construction | its method at the fields and the recursive results |

A step (`Term.Step`) takes one rule at one place of a term, anywhere (`Term.Frame`).  What
constants were declared with is not in the signature, so it is a parameter `δ` of the
rules.
-/

import Constructions.Proofs.Growth

namespace Constructions

/-! ### Substitution -/

namespace Term

mutual

/-- Renames the variables of a term. -/
def rename (ρ : Nat → Nat) : Term → Term
  | .var label i => .var label (ρ i)
  | .const c => .const c
  | .letIn label A a b => .letIn label (A.rename ρ) (a.rename ρ) (b.rename (liftRen ρ))
  | .type l => .type l
  | .pi label A B => .pi label (A.rename ρ) (B.rename (liftRen ρ))
  | .lam label A b => .lam label (A.rename ρ) (b.rename (liftRen ρ))
  | .app f a => .app (f.rename ρ) (a.rename ρ)
  | .former F as => .former F (renames ρ as)
  | .con c as => .con c (renames ρ as)
  | .elim t M ms => .elim (t.rename ρ) (M.rename ρ) (renames ρ ms)

/-- Renames the variables of terms. -/
def renames (ρ : Nat → Nat) : List Term → List Term
  | [] => []
  | t :: ts => t.rename ρ :: renames ρ ts

end

/-- A substitution under one more binder.  Variables that are kept keep their labels, so a
substitution takes the label of a variable along with its index. -/
def liftSub (σ : Label → Nat → Term) : Label → Nat → Term
  | label, 0 => .var label 0
  | label, i + 1 => (σ label i).rename Nat.succ

mutual

/-- Substitutes for the variables of a term. -/
def subst (σ : Label → Nat → Term) : Term → Term
  | .var label i => σ label i
  | .const c => .const c
  | .letIn label A a b => .letIn label (A.subst σ) (a.subst σ) (b.subst (liftSub σ))
  | .type l => .type l
  | .pi label A B => .pi label (A.subst σ) (B.subst (liftSub σ))
  | .lam label A b => .lam label (A.subst σ) (b.subst (liftSub σ))
  | .app f a => .app (f.subst σ) (a.subst σ)
  | .former F as => .former F (substs σ as)
  | .con c as => .con c (substs σ as)
  | .elim t M ms => .elim (t.subst σ) (M.subst σ) (substs σ ms)

/-- Substitutes for the variables of terms. -/
def substs (σ : Label → Nat → Term) : List Term → List Term
  | [] => []
  | t :: ts => t.subst σ :: substs σ ts

end

/-- The substitution of `a` for the innermost variable and of `σ` for the others. -/
def consSub (a : Term) (σ : Label → Nat → Term) : Label → Nat → Term
  | _, 0 => a
  | label, i + 1 => σ label i

/-- Substitutes for the innermost variable. -/
def inst (b a : Term) : Term := b.subst (consSub a .var)

/-- A term applied to arguments, one after the other. -/
def apps (f : Term) (as : List Term) : Term := as.foldl .app f

theorem substs_eq_map (σ : Label → Nat → Term) (ts : List Term) :
    substs σ ts = ts.map (subst σ) := by
  induction ts with
  | nil => rfl
  | cons t ts ih => rw [substs, ih, List.map_cons]

theorem liftSub_var : liftSub .var = .var := by
  funext label i
  cases i <;> rfl

mutual

theorem subst_var : ∀ t : Term, t.subst .var = t
  | .var _ _ => rfl
  | .const _ => rfl
  | .letIn _ A a b => by rw [subst, liftSub_var, subst_var A, subst_var a, subst_var b]
  | .type _ => rfl
  | .pi _ A B => by rw [subst, liftSub_var, subst_var A, subst_var B]
  | .lam _ A b => by rw [subst, liftSub_var, subst_var A, subst_var b]
  | .app f a => by rw [subst, subst_var f, subst_var a]
  | .former _ as => by rw [subst, substs_var as]
  | .con _ as => by rw [subst, substs_var as]
  | .elim t M ms => by rw [subst, subst_var t, subst_var M, substs_var ms]

theorem substs_var : ∀ ts : List Term, substs .var ts = ts
  | [] => rfl
  | t :: ts => by rw [substs, subst_var t, substs_var ts]

end

theorem liftSub_liftRen (ρ : Nat → Nat) (σ : Label → Nat → Term) :
    (fun label i => liftSub σ label (liftRen ρ i)) = liftSub fun label i => σ label (ρ i) := by
  funext label i
  cases i <;> rfl

mutual

theorem subst_rename (ρ : Nat → Nat) (σ : Label → Nat → Term) :
    ∀ t : Term, (t.rename ρ).subst σ = t.subst fun label i => σ label (ρ i)
  | .var _ _ => rfl
  | .const _ => rfl
  | .letIn _ A a b => by
    rw [rename, subst, subst, subst_rename ρ σ A, subst_rename ρ σ a, subst_rename _ _ b,
      liftSub_liftRen]
  | .type _ => rfl
  | .pi _ A B => by
    rw [rename, subst, subst, subst_rename ρ σ A, subst_rename _ _ B, liftSub_liftRen]
  | .lam _ A b => by
    rw [rename, subst, subst, subst_rename ρ σ A, subst_rename _ _ b, liftSub_liftRen]
  | .app f a => by rw [rename, subst, subst, subst_rename ρ σ f, subst_rename ρ σ a]
  | .former _ as => by rw [rename, subst, subst, substs_renames ρ σ as]
  | .con _ as => by rw [rename, subst, subst, substs_renames ρ σ as]
  | .elim t M ms => by
    rw [rename, subst, subst, subst_rename ρ σ t, subst_rename ρ σ M, substs_renames ρ σ ms]

theorem substs_renames (ρ : Nat → Nat) (σ : Label → Nat → Term) :
    ∀ ts : List Term, substs σ (renames ρ ts) = substs (fun label i => σ label (ρ i)) ts
  | [] => rfl
  | t :: ts => by rw [renames, substs, substs, subst_rename ρ σ t, substs_renames ρ σ ts]

end

theorem liftSub_ren (ρ : Nat → Nat) :
    liftSub (fun label i => .var label (ρ i)) = fun label i => .var label (liftRen ρ i) := by
  funext label i
  cases i <;> rfl

mutual

theorem rename_eq_subst (ρ : Nat → Nat) :
    ∀ t : Term, t.rename ρ = t.subst fun label i => .var label (ρ i)
  | .var _ _ => rfl
  | .const _ => rfl
  | .letIn _ A a b => by
    rw [rename, subst, rename_eq_subst ρ A, rename_eq_subst ρ a, rename_eq_subst _ b, liftSub_ren]
  | .type _ => rfl
  | .pi _ A B => by rw [rename, subst, rename_eq_subst ρ A, rename_eq_subst _ B, liftSub_ren]
  | .lam _ A b => by rw [rename, subst, rename_eq_subst ρ A, rename_eq_subst _ b, liftSub_ren]
  | .app f a => by rw [rename, subst, rename_eq_subst ρ f, rename_eq_subst ρ a]
  | .former _ as => by rw [rename, subst, renames_eq_substs ρ as]
  | .con _ as => by rw [rename, subst, renames_eq_substs ρ as]
  | .elim t M ms => by
    rw [rename, subst, rename_eq_subst ρ t, rename_eq_subst ρ M, renames_eq_substs ρ ms]

theorem renames_eq_substs (ρ : Nat → Nat) :
    ∀ ts : List Term, renames ρ ts = substs (fun label i => .var label (ρ i)) ts
  | [] => rfl
  | t :: ts => by rw [renames, substs, rename_eq_subst ρ t, renames_eq_substs ρ ts]

end

theorem rename_rename (ρ τ : Nat → Nat) (t : Term) :
    (t.rename ρ).rename τ = t.rename fun i => τ (ρ i) := by
  rw [rename_eq_subst τ, subst_rename, ← rename_eq_subst]

theorem liftSub_rename (σ : Label → Nat → Term) (ρ : Nat → Nat) :
    (fun label i => (liftSub σ label i).rename (liftRen ρ)) =
      liftSub fun label i => (σ label i).rename ρ := by
  funext label i
  cases i with
  | zero => rfl
  | succ i =>
    rw [liftSub, liftSub, rename_rename, rename_rename]
    rfl

mutual

theorem rename_subst (σ : Label → Nat → Term) (ρ : Nat → Nat) :
    ∀ t : Term, (t.subst σ).rename ρ = t.subst fun label i => (σ label i).rename ρ
  | .var _ _ => rfl
  | .const _ => rfl
  | .letIn _ A a b => by
    rw [subst, rename, subst, rename_subst σ ρ A, rename_subst σ ρ a, rename_subst _ _ b,
      liftSub_rename]
  | .type _ => rfl
  | .pi _ A B => by
    rw [subst, rename, subst, rename_subst σ ρ A, rename_subst _ _ B, liftSub_rename]
  | .lam _ A b => by
    rw [subst, rename, subst, rename_subst σ ρ A, rename_subst _ _ b, liftSub_rename]
  | .app f a => by rw [subst, rename, subst, rename_subst σ ρ f, rename_subst σ ρ a]
  | .former _ as => by rw [subst, rename, subst, renames_substs σ ρ as]
  | .con _ as => by rw [subst, rename, subst, renames_substs σ ρ as]
  | .elim t M ms => by
    rw [subst, rename, subst, rename_subst σ ρ t, rename_subst σ ρ M, renames_substs σ ρ ms]

theorem renames_substs (σ : Label → Nat → Term) (ρ : Nat → Nat) :
    ∀ ts : List Term, renames ρ (substs σ ts) = substs (fun label i => (σ label i).rename ρ) ts
  | [] => rfl
  | t :: ts => by rw [substs, renames, substs, rename_subst σ ρ t, renames_substs σ ρ ts]

end

theorem liftSub_subst (σ τ : Label → Nat → Term) :
    (fun label i => (liftSub σ label i).subst (liftSub τ)) =
      liftSub fun label i => (σ label i).subst τ := by
  funext label i
  cases i with
  | zero => rfl
  | succ i =>
    rw [liftSub, liftSub, subst_rename, rename_subst]
    rfl

mutual

/-- **Two substitutions one after the other are one.** -/
theorem subst_subst (σ τ : Label → Nat → Term) :
    ∀ t : Term, (t.subst σ).subst τ = t.subst fun label i => (σ label i).subst τ
  | .var _ _ => rfl
  | .const _ => rfl
  | .letIn _ A a b => by
    rw [subst, subst, subst, subst_subst σ τ A, subst_subst σ τ a, subst_subst _ _ b,
      liftSub_subst]
  | .type _ => rfl
  | .pi _ A B => by
    rw [subst, subst, subst, subst_subst σ τ A, subst_subst _ _ B, liftSub_subst]
  | .lam _ A b => by
    rw [subst, subst, subst, subst_subst σ τ A, subst_subst _ _ b, liftSub_subst]
  | .app f a => by rw [subst, subst, subst, subst_subst σ τ f, subst_subst σ τ a]
  | .former _ as => by rw [subst, subst, subst, substs_substs σ τ as]
  | .con _ as => by rw [subst, subst, subst, substs_substs σ τ as]
  | .elim t M ms => by
    rw [subst, subst, subst, subst_subst σ τ t, subst_subst σ τ M, substs_substs σ τ ms]

theorem substs_substs (σ τ : Label → Nat → Term) :
    ∀ ts : List Term, substs τ (substs σ ts) = substs (fun label i => (σ label i).subst τ) ts
  | [] => rfl
  | t :: ts => by rw [substs, substs, substs, subst_subst σ τ t, substs_substs σ τ ts]

end

/-- **Substituting in a body under its binder, and then for the binder, is one substitution.** -/
theorem inst_subst (σ : Label → Nat → Term) (b a : Term) :
    (b.subst (liftSub σ)).inst a = b.subst (consSub a σ) := by
  rw [inst, subst_subst]
  congr 1
  funext label i
  cases i with
  | zero => rfl
  | succ i => exact (subst_rename _ _ _).trans (subst_var _)

/-! ### Steps -/

/-- The rules of computation. -/
inductive Contracts (S : Signature) (δ : Name → Option Term) : Term → Term → Prop where
  | beta (label : Label) (A b a : Term) : Contracts S δ (.app (.lam label A b) a) (b.inst a)
  | zeta (label : Label) (A a b : Term) : Contracts S δ (.letIn label A a b) (b.inst a)
  | delta {c : Name} {t : Term} : δ c = some t → Contracts S δ (.const c) t
  | former (F : FamilyId) (as : List Term) (a : Term) :
      Contracts S δ (.app (.former F as) a) (.former F (as ++ [a]))
  | con (c : ConstructorId) (as : List Term) (a : Term) :
      Contracts S δ (.app (.con c as) a) (.con c (as ++ [a]))
  | iota {c : ConstructorId} {K : Constructor} {F : Family} {table : Dispatch}
      {as ms rs : List Term} {M m : Term} :
      S.constructor? c = some K → as.length = K.arity → S.family? K.family = some F →
      F.dispatch? = some table → table.select? c ms = some m →
      List.Forall₂ (fun i r => ∃ a, as[i]? = some a ∧ r = .elim a M ms) K.recursiveFields rs →
      Contracts S δ (.elim (.con c as) M ms) (m.apps (as.drop K.parameterCount ++ rs))

/-- A term with one place left open. -/
inductive Frame where
  | letType (label : Label) (argument body : Term)
  | letArgument (label : Label) (type body : Term)
  | letBody (label : Label) (type argument : Term)
  | piDomain (label : Label) (codomain : Term)
  | piCodomain (label : Label) (domain : Term)
  | lamDomain (label : Label) (body : Term)
  | lamBody (label : Label) (domain : Term)
  | callee (argument : Term)
  | argument (callee : Term)
  | former (family : FamilyId) (before after : List Term)
  | con (constructor : ConstructorId) (before after : List Term)
  | target (motive : Term) (methods : List Term)
  | motive (target : Term) (methods : List Term)
  | method (target motive : Term) (before after : List Term)

/-- The term with the open place filled. -/
def Frame.plug : Frame → Term → Term
  | .letType label a b, t => .letIn label t a b
  | .letArgument label A b, t => .letIn label A t b
  | .letBody label A a, t => .letIn label A a t
  | .piDomain label B, t => .pi label t B
  | .piCodomain label A, t => .pi label A t
  | .lamDomain label b, t => .lam label t b
  | .lamBody label A, t => .lam label A t
  | .callee a, t => .app t a
  | .argument f, t => .app f t
  | .former F as bs, t => .former F (as ++ t :: bs)
  | .con c as bs, t => .con c (as ++ t :: bs)
  | .target M ms, t => .elim t M ms
  | .motive u ms, t => .elim u t ms
  | .method u M as bs, t => .elim u M (as ++ t :: bs)

/-- One rule, taken at one place of a term. -/
inductive Step (S : Signature) (δ : Name → Option Term) : Term → Term → Prop where
  | contract {t u : Term} : Contracts S δ t u → Step S δ t u
  | plug (C : Frame) {t u : Term} : Step S δ t u → Step S δ (C.plug t) (C.plug u)

/-- Any number of steps. -/
abbrev Steps (S : Signature) (δ : Name → Option Term) : Term → Term → Prop :=
  Relation.ReflTransGen (Step S δ)

namespace Steps

variable {S S' : Signature} {δ δ' : Name → Option Term}

theorem contract {t u : Term} (h : Contracts S δ t u) : Steps S δ t u := .single (.contract h)

/-- **Steps may be taken at any place.** -/
theorem plug (C : Frame) {t u : Term} (h : Steps S δ t u) : Steps S δ (C.plug t) (C.plug u) :=
  h.lift C.plug fun _ _ e => .plug C e

theorem letIn (label : Label) {A A' a a' b b' : Term} (hA : Steps S δ A A')
    (ha : Steps S δ a a') (hb : Steps S δ b b') :
    Steps S δ (.letIn label A a b) (.letIn label A' a' b') :=
  (hA.plug (.letType label a b)).trans
    ((ha.plug (.letArgument label A' b)).trans (hb.plug (.letBody label A' a')))

theorem pi (label : Label) {A A' B B' : Term} (hA : Steps S δ A A') (hB : Steps S δ B B') :
    Steps S δ (.pi label A B) (.pi label A' B') :=
  (hA.plug (.piDomain label B)).trans (hB.plug (.piCodomain label A'))

theorem lam (label : Label) {A A' b b' : Term} (hA : Steps S δ A A') (hb : Steps S δ b b') :
    Steps S δ (.lam label A b) (.lam label A' b') :=
  (hA.plug (.lamDomain label b)).trans (hb.plug (.lamBody label A'))

theorem app {f f' a a' : Term} (hf : Steps S δ f f') (ha : Steps S δ a a') :
    Steps S δ (.app f a) (.app f' a') :=
  (hf.plug (.callee a)).trans (ha.plug (.argument f'))

theorem apps {f f' : Term} (h : Steps S δ f f') (as : List Term) :
    Steps S δ (f.apps as) (f'.apps as) := by
  induction as generalizing f f' with
  | nil => exact h
  | cons a as ih => exact ih (h.app .refl)

/-- Steps in the elements of a list, the first element first. -/
theorem list {g : List Term → Term} (C : List Term → List Term → Frame)
    (hC : ∀ as bs t, (C as bs).plug t = g (as ++ t :: bs)) {as bs : List Term}
    (h : List.Forall₂ (Steps S δ) as bs) : Steps S δ (g as) (g bs) := by
  suffices hs : ∀ cs, Steps S δ (g (cs ++ as)) (g (cs ++ bs)) from hs []
  induction h with
  | nil => exact fun _ => .refl
  | @cons a b as bs hab _ ih =>
    intro cs
    have hhead := hab.plug (C cs as)
    have htail := ih (cs ++ [b])
    rw [hC, hC] at hhead
    rw [List.append_assoc, List.append_assoc] at htail
    exact hhead.trans htail

theorem former (F : FamilyId) {as bs : List Term} (h : List.Forall₂ (Steps S δ) as bs) :
    Steps S δ (.former F as) (.former F bs) := list (.former F) (fun _ _ _ => rfl) h

theorem con (c : ConstructorId) {as bs : List Term} (h : List.Forall₂ (Steps S δ) as bs) :
    Steps S δ (.con c as) (.con c bs) := list (.con c) (fun _ _ _ => rfl) h

theorem elim {t t' M M' : Term} {ms ms' : List Term} (ht : Steps S δ t t') (hM : Steps S δ M M')
    (hms : List.Forall₂ (Steps S δ) ms ms') : Steps S δ (.elim t M ms) (.elim t' M' ms') :=
  (ht.plug (.target M ms)).trans ((hM.plug (.motive t' ms)).trans
    (list (.method t' M') (fun _ _ _ => rfl) hms))

/-! ### More declarations -/

/-- **Steps are kept by declarations.** -/
theorem mono (hle : S.Le S') (hδ : ∀ {c a}, δ c = some a → δ' c = some a) {t u : Term}
    (h : Steps S δ t u) : Steps S' δ' t u := by
  refine Relation.ReflTransGen.mono (fun t u e => ?_) _ _ h
  induction e with
  | plug C _ ih => exact .plug C ih
  | contract e =>
    refine .contract ?_
    cases e with
    | beta label A b a => exact .beta label A b a
    | zeta label A a b => exact .zeta label A a b
    | delta hc => exact .delta (hδ hc)
    | former F as a => exact .former F as a
    | con c as a => exact .con c as a
    | @iota c K F table as ms rs M m hK hl hF htable hm hrs =>
      obtain ⟨state, hF', hfin⟩ := hle.family hF
      refine .iota (hle.constructor hK) hl hF' ?_ hm hrs
      cases hs : F.isFinalized with
      | true =>
        obtain rfl := hfin hs
        exact htable
      | false => cases (Family.dispatch?_eq_none hs).symm.trans htable

end Steps

end Term

end Constructions
