/-
# Equality of plain terms

`Θ.Equal` is conversion of the bare terms, so it inherits everything from there: it is
an equivalence, kept by every way to build terms, and function types, universes and
families can be taken apart.
-/

import Constructions.Proofs.Theory

namespace Constructions

open Plain

namespace Theory.Equal

variable {Θ : Theory}

theorem refl (A : Plain) : Θ.Equal A A := Conv.refl _

theorem symm {A B : Plain} (h : Θ.Equal A B) : Θ.Equal B A := Conv.symm h

theorem trans {A B C : Plain} (h : Θ.Equal A B) (h' : Θ.Equal B C) : Θ.Equal A C :=
  Conv.trans h h'

theorem of_eq {A B : Plain} (h : A = B) : Θ.Equal A B := h ▸ refl A

theorem rename {A B : Plain} (h : Θ.Equal A B) (ρ : Nat → Nat) :
    Θ.Equal (A.rename ρ) (B.rename ρ) := by
  rw [Equal, bare_rename, bare_rename]
  exact Conv.rename h ρ

theorem subst {A B : Plain} (h : Θ.Equal A B) (σ : Nat → Plain) :
    Θ.Equal (A.subst σ) (B.subst σ) := by
  rw [Equal, bare_subst, bare_subst]
  exact Conv.subst h _

theorem subst_right (A : Plain) {σ τ : Nat → Plain} (h : ∀ i, Θ.Equal (σ i) (τ i)) :
    Θ.Equal (A.subst σ) (A.subst τ) := by
  rw [Equal, bare_subst, bare_subst]
  exact Conv.subst_right _ h

theorem inst {B B' a a' : Plain} (hB : Θ.Equal B B') (ha : Θ.Equal a a') :
    Θ.Equal (B.inst a) (B'.inst a') := by
  rw [Equal, bare_inst, bare_inst]
  exact Conv.inst hB ha

theorem app {f f' a a' : Plain} (hf : Θ.Equal f f') (ha : Θ.Equal a a') :
    Θ.Equal (.app f a) (.app f' a') := Conv.app hf ha

theorem lam {A A' b b' : Plain} (h : Θ.Equal b b') : Θ.Equal (.lam A b) (.lam A' b') :=
  Conv.lam h

theorem pi {A A' B B' : Plain} (hA : Θ.Equal A A') (hB : Θ.Equal B B') :
    Θ.Equal (.pi A B) (.pi A' B') := ((Conv.refl _).app hA).app (Conv.lam hB)

theorem spine {f f' : Plain} {as as' : List Plain} (hf : Θ.Equal f f')
    (h : List.Forall₂ Θ.Equal as as') : Θ.Equal (spine f as) (Plain.spine f' as') := by
  induction h generalizing f f' with
  | nil => exact hf
  | cons ha _ ih => exact ih (hf.app ha)

theorem refls (as : List Plain) : List.Forall₂ Θ.Equal as as :=
  List.forall₂_same.2 fun a _ => refl a

theorem symms {as bs : List Plain} (h : List.Forall₂ Θ.Equal as bs) :
    List.Forall₂ Θ.Equal bs as := by
  induction h with
  | nil => exact .nil
  | cons h _ ih => exact .cons h.symm ih

theorem elim {M M' t t' : Plain} {ms ms' : List Plain} (hM : Θ.Equal M M')
    (hms : List.Forall₂ Θ.Equal ms ms') (ht : Θ.Equal t t') :
    Θ.Equal (Plain.elim M ms t) (Plain.elim M' ms' t') := by
  refine app ?_ ht
  rw [elimHead, elimHead, hms.length_eq]
  exact spine (refl _) (.cons hM hms)

/-- **Equal lists give equal substitutions.** -/
theorem ofList {e e' : List Plain} (h : List.Forall₂ Θ.Equal e e') (i : Nat) :
    Θ.Equal (ofList e i) (Plain.ofList e' i) := by
  induction h generalizing i with
  | nil => exact refl _
  | cons h _ ih =>
    cases i with
    | zero => exact h
    | succ i => exact ih i

theorem subst_ofList (A : Plain) {e e' : List Plain} (h : List.Forall₂ Θ.Equal e e') :
    Θ.Equal (A.subst (Plain.ofList e)) (A.subst (Plain.ofList e')) := subst_right A (ofList h)

theorem map_subst_ofList (as : List Plain) {e e' : List Plain} (h : List.Forall₂ Θ.Equal e e') :
    List.Forall₂ Θ.Equal (as.map (Plain.subst (Plain.ofList e)))
      (as.map (Plain.subst (Plain.ofList e'))) := by
  rw [List.forall₂_map_left_iff, List.forall₂_map_right_iff]
  exact List.forall₂_same.2 fun a _ => subst_ofList a h

/-! ### Taking equalities apart -/

/-- **Spines on atoms without a rule are equal only argument by argument.** -/
theorem spine_inj {a b : Atom} {as bs : List Plain} (ha : a.inert as.length)
    (hb : b.inert bs.length)
    (h : Θ.Equal (Plain.spine (.atom a) as) (Plain.spine (.atom b) bs)) :
    a = b ∧ List.Forall₂ Θ.Equal as bs := by
  rw [Equal, bare_spine, bare_spine] at h
  obtain ⟨hab, h⟩ := Conv.spine_inj (by simpa using ha) (by simpa using hb) h
  rw [List.forall₂_map_left_iff, List.forall₂_map_right_iff] at h
  exact ⟨hab, h⟩

theorem bare_pi (A B : Plain) : (Plain.pi A B).bare =
    Bare.spine (.atom .pi) [A.bare, .lam B.bare] := rfl

/-- **Function types are equal only domain by domain and codomain by codomain.** -/
theorem pi_inj {A A' B B' : Plain} (h : Θ.Equal (.pi A B) (.pi A' B')) :
    Θ.Equal A A' ∧ Θ.Equal B B' := by
  rw [Equal, bare_pi, bare_pi] at h
  obtain ⟨_, h⟩ := Conv.spine_inj (a := .pi) (b := .pi) trivial trivial h
  rcases h with _ | ⟨hA, _ | ⟨hB, _⟩⟩
  exact ⟨hA, Conv.lam_iff.1 hB⟩

theorem pi_ne_spine {A B : Plain} {a : Atom} {as : List Plain} (ha : a.inert as.length)
    (hpi : a ≠ .pi) : ¬ Θ.Equal (.pi A B) (Plain.spine (.atom a) as) := by
  intro h
  rw [Equal, bare_pi, bare_spine] at h
  exact hpi (Conv.spine_inj (a := .pi) trivial (by simpa using ha) h).1.symm

theorem type_inj {n m : Nat} (h : Θ.Equal (.atom (.type n)) (.atom (.type m))) : n = m := by
  rw [← spine_nil (.atom (.type n)), ← spine_nil (.atom (.type m))] at h
  exact Atom.type.inj (spine_inj (a := .type n) (b := .type m) trivial trivial h).1

theorem type_ne_pi {n : Nat} {A B : Plain} : ¬ Θ.Equal (.atom (.type n)) (.pi A B) := by
  rw [← spine_nil (.atom (.type n))]
  exact fun h => pi_ne_spine (a := .type n) trivial (by simp) h.symm

theorem type_ne_former {n : Nat} {F : FamilyId} {as : List Plain} :
    ¬ Θ.Equal (.atom (.type n)) (Plain.spine (.atom (.former F)) as) := by
  rw [← spine_nil (.atom (.type n))]
  intro h
  cases (spine_inj (a := .type n) (b := .former F) trivial trivial h).1

theorem pi_ne_former {A B : Plain} {F : FamilyId} {as : List Plain} :
    ¬ Θ.Equal (.pi A B) (Plain.spine (.atom (.former F)) as) :=
  pi_ne_spine (a := .former F) trivial (by simp)

theorem former_inj {F F' : FamilyId} {as bs : List Plain}
    (h : Θ.Equal (Plain.spine (.atom (.former F)) as) (Plain.spine (.atom (.former F')) bs)) :
    F = F' ∧ List.Forall₂ Θ.Equal as bs := by
  obtain ⟨h, has⟩ := spine_inj (a := .former F) (b := .former F') trivial trivial h
  exact ⟨Atom.former.inj h, has⟩

end Theory.Equal

end Constructions
