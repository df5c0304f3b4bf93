/-
# What equality says about values

* In a `Scope` the levels of variables stand for different variables, and constants that
  values wait for have no definition, so a neutral value waits (`Neutral.stuck`).
* Values that are built up differ if their heads do, and from values that wait
  (`Value.not_equal_of_atom?`, `Neutral.not_equal_of_atom?`).
* Values that wait are equal iff they wait for the same and their parts are equal
  (`Neutral.equal_iff`), and then their types are equal (`Neutral.types_equal`).

Types are `Similar` if they are equal, two universes, or two function types with equal
domains and similar codomains.
-/

import Constructions.Conversion
import Constructions.Proofs.ReadBack

namespace Constructions

open Plain

variable {Θ : Theory} {S : Signature} {L : Leaves} {ℓ : Nat → Plain} {level : Nat}

/-! ### Scopes -/

/-- The levels of a scope stand for different variables, and constants that values wait for
have no definition. -/
structure Scope (Θ : Theory) (S : Signature) (L : Leaves) (level : Nat) (ℓ : Nat → Plain) :
    Prop where
  closed : L.Closed S
  below : L.Below level
  levelMap : LevelMap ℓ
  var : ∀ {l}, L.level l → ∃ i, ℓ l = .var i
  injective : ∀ {l l'}, L.level l → L.level l' → ℓ l = ℓ l' → l = l'
  stuck : ∀ {c}, L.stuck c → Θ.definition c = none
  named : ∀ c, L.stuck c → L.name c

theorem Scope.bind (h : Scope Θ S L level ℓ) :
    Scope Θ S (L.bind level) (level + 1) (extend ℓ level) where
  closed := h.closed.bind level
  below := h.below.bind
  levelMap := h.levelMap.extend level
  stuck := h.stuck
  named := h.named
  var := by
    rintro l (hl | rfl)
    · obtain ⟨i, hi⟩ := h.var hl
      exact ⟨i + 1, by rw [extend_of_ne ℓ (Nat.ne_of_lt (h.below l hl)), hi]; rfl⟩
    · exact ⟨0, extend_self ℓ l⟩
  injective := by
    -- A variable from outside is moved one binder down, so it is not the new one.
    have hnew {l} (hl : L.level l) : extend ℓ level l ≠ .var 0 := by
      obtain ⟨i, hi⟩ := h.var hl
      rw [extend_of_ne ℓ (Nat.ne_of_lt (h.below l hl)), hi]
      simp [shift, rename]
    rintro l l' (hl | rfl) (hl' | rfl) e
    · rw [extend_of_ne ℓ (Nat.ne_of_lt (h.below l hl)),
        extend_of_ne ℓ (Nat.ne_of_lt (h.below l' hl'))] at e
      obtain ⟨i, hi⟩ := h.var hl
      obtain ⟨j, hj⟩ := h.var hl'
      refine h.injective hl hl' ?_
      rw [hi, hj] at e ⊢
      exact congrArg Plain.var (Nat.succ.inj (Plain.var.inj e))
    · exact (hnew hl (e.trans (extend_self ℓ _))).elim
    · exact (hnew hl' (e.symm.trans (extend_self ℓ _))).elim
    · rfl

/-- **A neutral value waits.** -/
theorem Neutral.stuck (h : Scope Θ S L level ℓ) :
    ∀ {m : Neutral}, m.All L → Stuck Θ.rules (m.plain ℓ).bare
  | .var _ l, hl => by
    obtain ⟨i, hi⟩ := h.var hl
    rw [Neutral.plain, hi]
    exact .var i
  | .const c, hc => .const (congrArg (Option.map bare) (h.stuck hc))
  | .app f a, ⟨hf, _⟩ => .app _ (Neutral.stuck h hf)
  | .elim t M ms, ⟨ht, _, _⟩ => by
    rw [Neutral.plain, Plain.elim, bare, bare_elimHead]
    exact .elim _ _ (Neutral.stuck h ht)

/-! ### Similar types -/

/-- Types whose values can be compared: equal types, universes, and function types with
equal domains and similar codomains. -/
inductive Similar (Θ : Theory) : Plain → Plain → Prop where
  | equal {A B : Plain} : Θ.Equal A B → Similar Θ A B
  | univ {A B : Plain} {n m : Nat} : Θ.Equal A (.atom (.type n)) → Θ.Equal B (.atom (.type m)) →
      Similar Θ A B
  | pi {A A' B B' C D : Plain} : Θ.Equal C (.pi A A') → Θ.Equal D (.pi B B') → Θ.Equal A B →
      Similar Θ A' B' → Similar Θ C D

namespace Similar

theorem symm {A B : Plain} (h : Similar Θ A B) : Similar Θ B A := by
  induction h with
  | equal h => exact .equal h.symm
  | univ hA hB => exact .univ hB hA
  | pi hC hD hA _ ih => exact .pi hD hC hA.symm ih

theorem congr {A A' B B' : Plain} (h : Similar Θ A B) (hA : Θ.Equal A' A) (hB : Θ.Equal B' B) :
    Similar Θ A' B' := by
  cases h with
  | equal h => exact .equal (hA.trans (h.trans hB.symm))
  | univ hn hm => exact .univ (hA.trans hn) (hB.trans hm)
  | pi hC hD hdom h => exact .pi (hA.trans hC) (hB.trans hD) hdom h

/-- **What is similar to a function type is a function type.** -/
theorem pi_left {A B T : Plain} (h : Similar Θ (.pi A B) T) :
    ∃ A' B', Θ.Equal T (.pi A' B') ∧ Θ.Equal A A' ∧ Similar Θ B B' := by
  cases h with
  | equal h => exact ⟨A, B, h.symm, .refl A, .equal (.refl B)⟩
  | univ hn _ => exact (hn.symm.type_ne_pi).elim
  | pi hC hD hdom h =>
    obtain ⟨e, e'⟩ := hC.pi_inj
    exact ⟨_, _, hD, e.trans hdom, h.congr e' (.refl _)⟩

theorem type (n m : Nat) : Similar Θ (.atom (.type n)) (.atom (.type m)) :=
  .univ (.refl _) (.refl _)

theorem pis {B B' : Plain} (h : ∀ {e e'}, List.Forall₂ Θ.Equal e e' →
      Similar Θ (B.subst (ofList e)) (B'.subst (ofList e'))) (Φ : List Plain)
    {e e' : List Plain} (he : List.Forall₂ Θ.Equal e e') :
    Similar Θ ((pis Φ B).subst (ofList e)) ((Plain.pis Φ B').subst (ofList e')) := by
  induction Φ generalizing e e' with
  | nil => exact h he
  | cons A Φ ih =>
    refine .pi (.refl _) (.refl _) (.subst_ofList A he) ?_
    rw [liftSub_ofList, liftSub_ofList]
    refine ih (.cons (.refl _) ?_)
    rw [List.forall₂_map_left_iff, List.forall₂_map_right_iff]
    exact he.imp fun _ _ h => h.rename _

/-- **The types of motives at equal parameters are similar.** -/
theorem motiveType (D : FamilyShape) (F : FamilyId) {ps ps' : List Plain}
    (h : List.Forall₂ Θ.Equal ps ps') (n m : Nat) :
    Similar Θ (D.motiveType F ps n) (D.motiveType F ps' m) := by
  refine pis (fun he => ?_) D.indices (List.rel_reverse h)
  exact .pi (.refl _) (.refl _) (.subst_ofList _ he) (.type n m)

end Similar

/-! ### Answers -/

/-- A test answers a question, or uses up what it was given. -/
def Decides (r : Except Halt Bool) (p : Prop) : Prop := Post r (fun b => b = true ↔ p) Halt.Resource

namespace Decides

variable {p q : Prop}

theorem exhausted : Decides (.error .exhausted) p := .inl rfl

theorem yes (h : p) : Decides (.ok true) p := iff_of_true rfl h

theorem no (h : ¬ p) : Decides (.ok false) p := iff_of_false Bool.false_ne_true h

theorem iff {r : Except Halt Bool} (h : Decides r p) (hpq : p ↔ q) : Decides r q :=
  h.mono (fun _ hb => hb.trans hpq) fun _ h => h

/-- One test, and if it succeeds another one. -/
theorem and {x y : Except Halt Bool} (hx : Decides x p) (hy : p → Decides y q) :
    Decides (do if ← x then y else .ok false) (p ∧ q) := by
  refine Post.bind hx fun b _ hb => ?_
  cases b with
  | true =>
    have hp := hb.1 rfl
    exact (hy hp).iff ⟨fun hq => ⟨hp, hq⟩, And.right⟩
  | false => exact no fun h => Bool.false_ne_true (hb.2 h.1)

theorem zip {α : Type} {compare : α → α → Except Halt Bool} {r : α → α → Prop} {as bs : List α}
    (hl : as.length = bs.length) (h : ∀ {i : Nat} {a b}, as[i]? = some a → bs[i]? = some b →
      Decides (compare a b) (r a b)) :
    Decides (convertZip compare as bs) (List.Forall₂ r as bs) := by
  induction as generalizing bs with
  | nil =>
    obtain rfl := List.length_eq_zero_iff.1 hl.symm
    exact yes .nil
  | cons a as ih =>
    cases bs with
    | nil => cases hl
    | cons b bs =>
      refine ((h (i := 0) rfl rfl).and fun _ => ih (Nat.succ.inj hl) fun {i} {_ _} ha hb => ?_).iff
        List.forall₂_cons.symm
      exact h (i := i + 1) ha hb

end Decides

/-! ### Values that differ -/

/-- The atom at the head of a value that is built up from arguments. -/
def Value.atom? : Value → Option Atom
  | .type l => some (.type l.toNat)
  | .pi _ _ => some .pi
  | .former F _ => some (.former F)
  | .con c _ => some (.con c)
  | _ => none

theorem Value.bare_of_atom? {v : Value} {a : Atom} (h : v.atom? = some a) (ℓ : Nat → Plain) :
    ∃ args, (v.plain ℓ).bare = Bare.spine (.atom a) args ∧ ∀ n, a.inert n := by
  cases v with
  | neutral m => cases h
  | type l =>
    cases h
    exact ⟨[], rfl, fun _ => trivial⟩
  | pi d c =>
    cases h
    exact ⟨_, Theory.Equal.bare_pi _ _, fun _ => trivial⟩
  | lam d c => cases h
  | former F as =>
    cases h
    exact ⟨_, bare_spine _ _, fun _ => trivial⟩
  | con c as =>
    cases h
    exact ⟨_, bare_spine _ _, fun _ => trivial⟩

/-- **Values with different heads differ.** -/
theorem Value.not_equal_of_atom? {v w : Value} {a b : Atom} (hv : v.atom? = some a)
    (hw : w.atom? = some b) (hab : a ≠ b) : ¬ Θ.Equal (v.plain ℓ) (w.plain ℓ) := by
  obtain ⟨as, ea, ha⟩ := Value.bare_of_atom? hv ℓ
  obtain ⟨bs, eb, hb⟩ := Value.bare_of_atom? hw ℓ
  intro h
  rw [Theory.Equal, ea, eb] at h
  exact hab (Conv.spine_inj (ha _) (hb _) h).1

/-- **A value that waits differs from one that is built up.** -/
theorem Neutral.not_equal_of_atom? (hs : Scope Θ S L level ℓ) {m : Neutral} (hm : m.All L)
    {w : Value} {b : Atom} (hw : w.atom? = some b) : ¬ Θ.Equal (m.plain ℓ) (w.plain ℓ) := by
  obtain ⟨bs, eb, hb⟩ := Value.bare_of_atom? hw ℓ
  intro h
  rw [Theory.Equal, eb] at h
  exact (Neutral.stuck hs hm).not_conv_spine (hb _) h

/-- What equality says about two values that wait. -/
def Neutral.Alike (Θ : Theory) (ℓ : Nat → Plain) : Neutral → Neutral → Prop
  | .var _ l, .var _ l' => l = l'
  | .const c, .const c' => c = c'
  | .app f a, .app f' a' => Θ.Equal (f.plain ℓ) (f'.plain ℓ) ∧ Θ.Equal (a.plain ℓ) (a'.plain ℓ)
  | .elim t M ms, .elim t' M' ms' => Θ.Equal (t.plain ℓ) (t'.plain ℓ) ∧
      Θ.Equal (M.plain ℓ) (M'.plain ℓ) ∧
      List.Forall₂ Θ.Equal (Value.plains ℓ ms) (Value.plains ℓ ms')
  | _, _ => False

/-- A bare term that is no application and does not reduce. -/
structure Leaf (R : Rules) (t : Bare) : Prop where
  pars : ∀ {u}, Pars R t u → u = t
  ne_app : ∀ f a, t ≠ .app f a

theorem Leaf.eq_of_conv {R : Rules} {t u : Bare} (ht : Leaf R t) (hu : Leaf R u)
    (h : Conv R t u) : t = u := by
  obtain ⟨s, hs, hs'⟩ := h
  exact (ht.pars hs).symm.trans (hu.pars hs')

theorem Neutral.leaf_var (hs : Scope Θ S L level ℓ) (label : Label) {l : Nat} (hl : L.level l) :
    ∃ i, (Neutral.var label l).plain ℓ = .var i ∧
      Leaf Θ.rules ((Neutral.var label l).plain ℓ).bare := by
  obtain ⟨i, hi⟩ := hs.var hl
  rw [Neutral.plain, hi]
  exact ⟨i, rfl, fun h => Pars.var_inv h, fun _ _ e => nomatch e⟩

theorem Neutral.leaf_const (hs : Scope Θ S L level ℓ) {c : Name} (hc : L.stuck c) :
    Leaf Θ.rules ((Neutral.const c).plain ℓ).bare :=
  ⟨fun h => Stuck.pars_const (congrArg (Option.map bare) (hs.stuck hc)) h, fun _ _ e => nomatch e⟩

/-- **Equal values wait for the same, and their parts are equal.** -/
theorem Neutral.alike_of_equal (hs : Scope Θ S L level ℓ) {m m' : Neutral} (hm : m.All L)
    (hm' : m'.All L) (h : Θ.Equal (m.plain ℓ) (m'.plain ℓ)) : m.Alike Θ ℓ m' := by
  have hst := Neutral.stuck hs hm
  have hst' := Neutral.stuck hs hm'
  cases m with
  | var label l =>
    obtain ⟨i, hi, leaf⟩ := Neutral.leaf_var hs label hm
    cases m' with
    | var label' l' =>
      obtain ⟨j, hj, leaf'⟩ := Neutral.leaf_var hs label' hm'
      have e := leaf.eq_of_conv leaf' h
      rw [hi, hj] at e
      refine hs.injective hm hm' (hi.trans (Eq.trans ?_ hj.symm))
      exact congrArg Plain.var (Bare.var.inj e)
    | const c =>
      have e := leaf.eq_of_conv (Neutral.leaf_const hs hm') h
      rw [hi] at e
      cases e
    | app f a => exact (Stuck.not_conv_leaf leaf.pars leaf.ne_app hst' h).elim
    | elim t M ms => exact (Stuck.not_conv_leaf leaf.pars leaf.ne_app hst' h).elim
  | const c =>
    have leaf := Neutral.leaf_const hs hm
    cases m' with
    | var label' l' =>
      obtain ⟨j, hj, leaf'⟩ := Neutral.leaf_var hs label' hm'
      have e := leaf.eq_of_conv leaf' h
      rw [hj] at e
      cases e
    | const c' =>
      cases leaf.eq_of_conv (Neutral.leaf_const hs hm') h
      rfl
    | app f a => exact (Stuck.not_conv_leaf leaf.pars leaf.ne_app hst' h).elim
    | elim t M ms => exact (Stuck.not_conv_leaf leaf.pars leaf.ne_app hst' h).elim
  | app f a =>
    have hf := Neutral.stuck hs hm.1
    cases m' with
    | var label' l' =>
      obtain ⟨j, hj, leaf'⟩ := Neutral.leaf_var hs label' hm'
      exact (Stuck.not_conv_leaf leaf'.pars leaf'.ne_app hst h.symm).elim
    | const c' =>
      have leaf' := Neutral.leaf_const hs hm'
      exact (Stuck.not_conv_leaf leaf'.pars leaf'.ne_app hst h.symm).elim
    | app f' a' => exact Stuck.conv_app hf (Neutral.stuck hs hm'.1) h
    | elim t M ms =>
      rw [Theory.Equal, Neutral.plain, Neutral.plain, bare, Plain.elim, bare, bare_elimHead] at h
      exact (Stuck.not_conv_app_elim hf (Neutral.stuck hs hm'.1) h).elim
  | elim t M ms =>
    have ht := Neutral.stuck hs hm.1
    cases m' with
    | var label' l' =>
      obtain ⟨j, hj, leaf'⟩ := Neutral.leaf_var hs label' hm'
      exact (Stuck.not_conv_leaf leaf'.pars leaf'.ne_app hst h.symm).elim
    | const c' =>
      have leaf' := Neutral.leaf_const hs hm'
      exact (Stuck.not_conv_leaf leaf'.pars leaf'.ne_app hst h.symm).elim
    | app f' a' =>
      have h := h.symm
      rw [Theory.Equal, Neutral.plain, Neutral.plain, bare, Plain.elim, bare, bare_elimHead] at h
      exact (Stuck.not_conv_app_elim (Neutral.stuck hs hm'.1) ht h).elim
    | elim t' M' ms' =>
      rw [Theory.Equal, Neutral.plain, Neutral.plain, Plain.elim, Plain.elim, bare, bare,
        bare_elimHead, bare_elimHead] at h
      obtain ⟨hM, hms, ht⟩ := Stuck.conv_elim ht (Neutral.stuck hs hm'.1) h
      rw [List.forall₂_map_left_iff, List.forall₂_map_right_iff] at hms
      exact ⟨ht, hM, hms⟩

theorem Neutral.equal_of_alike {m m' : Neutral} (h : m.Alike Θ ℓ m') :
    Θ.Equal (m.plain ℓ) (m'.plain ℓ) := by
  cases m <;> cases m' <;> try exact h.elim
  case var.var =>
    obtain rfl : _ = _ := h
    exact .refl _
  case const.const =>
    obtain rfl : _ = _ := h
    exact .refl _
  case app.app => exact .app h.1 h.2
  case elim.elim => exact .elim h.2.1 h.2.2 h.1

/-- **Values that wait are equal iff they wait for the same and their parts are equal.** -/
theorem Neutral.equal_iff (hs : Scope Θ S L level ℓ) {m m' : Neutral} (hm : m.All L)
    (hm' : m'.All L) : Θ.Equal (m.plain ℓ) (m'.plain ℓ) ↔ m.Alike Θ ℓ m' :=
  ⟨Neutral.alike_of_equal hs hm hm', Neutral.equal_of_alike⟩

variable {Γ : List Plain}

/-- **Equal values that wait have equal types.** -/
theorem Neutral.types_equal (hs : Scope Θ S L level ℓ) :
    ∀ {m m' : Neutral} {A B : Plain}, m.All L → m'.All L →
      Θ.Equal (m.plain ℓ) (m'.plain ℓ) → HasType Θ Γ (m.plain ℓ) A →
      HasType Θ Γ (m'.plain ℓ) B → Θ.Equal A B
  | .var _ l, m', A, B, hm, hm', e, h, h' => by
    have ha := Neutral.alike_of_equal hs hm hm' e
    cases m' <;> try exact ha.elim
    obtain rfl : l = _ := ha
    exact h.unique h'
  | .const c, m', A, B, hm, hm', e, h, h' => by
    have ha := Neutral.alike_of_equal hs hm hm' e
    cases m' <;> try exact ha.elim
    obtain rfl : c = _ := ha
    exact h.unique h'
  | .app f a, m', A, B, hm, hm', e, h, h' => by
    have ha := Neutral.alike_of_equal hs hm hm' e
    cases m' <;> try exact ha.elim
    obtain ⟨A₁, B₁, hf, _, e₁⟩ := h.app_inv_of_not_partial (f.not_partial hs.levelMap)
    obtain ⟨A₂, B₂, hf', _, e₂⟩ := h'.app_inv_of_not_partial (Neutral.not_partial hs.levelMap _)
    have hT := Neutral.types_equal hs hm.1 hm'.1 ha.1 hf hf'
    exact e₁.symm.trans ((hT.pi_inj.2.inst ha.2).trans e₂)
  | .elim t M ms, m', A, B, hm, hm', e, h, h' => by
    have ha := Neutral.alike_of_equal hs hm hm' e
    cases m' <;> try exact ha.elim
    obtain ⟨F, D, cs, ps, is, n, he, e₁⟩ := h.elim_inv
    obtain ⟨F', D', cs', ps', is', n', he', e₂⟩ := h'.elim_inv
    obtain ⟨rfl, hargs⟩ := (Neutral.types_equal hs hm.1 hm'.1 ha.1 he.target he'.target).former_inj
    obtain rfl := Option.some.inj (he.family.symm.trans he'.family)
    obtain ⟨_, his⟩ := forall₂_of_append hargs (he.parameters.trans he'.parameters.symm)
    refine e₁.symm.trans (Theory.Equal.trans (.spine ha.2.1 ?_) e₂)
    exact List.rel_append his (.cons ha.1 .nil)

end Constructions
