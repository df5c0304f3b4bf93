/-
# Reading back computes

Reading back goes below binders, so what variables stand for has to follow: `extend ℓ n`
sends a new variable at level `n` to the innermost variable and moves everything else one
binder down.  Entering a closure then reduces its body (`Closure.enter_reds`).

A value reduces to the term it is read back as (`Value.readBack_reds`), and reading back a
well-typed value does not go wrong (`Value.readBack_safe`).
-/

import Constructions.Proofs.Leaves
import Constructions.Proofs.Progress

namespace Constructions

open Plain

variable {Θ : Theory} {S : Signature} {L : Leaves} {ℓ : Nat → Plain}

/-! ### Below a binder -/

/-- A level map below a binder that is entered at level `n`. -/
def extend (ℓ : Nat → Plain) (n : Nat) : Nat → Plain :=
  fun l => if l = n then .var 0 else (ℓ l).shift

@[simp] theorem extend_self (ℓ : Nat → Plain) (n : Nat) : extend ℓ n n = .var 0 := if_pos rfl

theorem extend_of_ne (ℓ : Nat → Plain) {n l : Nat} (h : l ≠ n) : extend ℓ n l = (ℓ l).shift :=
  if_neg h

theorem LevelMap.extend (h : LevelMap ℓ) (n : Nat) : LevelMap (extend ℓ n) := by
  intro l
  by_cases hl : l = n
  · exact .inr ⟨0, by rw [hl, extend_self]⟩
  · rw [extend_of_ne ℓ hl]
    obtain e | ⟨i, e⟩ := h l <;> rw [e]
    · exact .inl rfl
    · exact .inr ⟨i + 1, rfl⟩

namespace Leaves

/-- Leaves below a binder that is entered at level `n`. -/
def bind (L : Leaves) (n : Nat) : Leaves := { L with level := fun l => L.level l ∨ l = n }

/-- All levels are below `n`. -/
def Below (L : Leaves) (n : Nat) : Prop := ∀ l, L.level l → l < n

theorem le_bind (L : Leaves) (n : Nat) : L.Le (L.bind n) :=
  ⟨.inl, fun h => h, fun h => h, fun h => h⟩

theorem Closed.bind (h : L.Closed S) (n : Nat) : (L.bind n).Closed S :=
  fun c hc => (h c hc).mono (L.le_bind n)

theorem Below.bind {n : Nat} (h : L.Below n) : (L.bind n).Below (n + 1) := by
  rintro l (hl | rfl)
  · exact Nat.lt_succ_of_lt (h l hl)
  · exact Nat.lt_succ_self l

end Leaves

theorem Value.plain_shift (ℓ : Nat → Plain) (v : Value) :
    v.plain (fun l => (ℓ l).shift) = (v.plain ℓ).shift := by
  rw [shift, rename_eq_subst, v.plain_subst]
  congr 1
  funext l
  exact rename_eq_subst _ _

/-- **A value from outside of a binder is moved below it.** -/
theorem Value.plain_extend {n : Nat} (hn : L.Below n) {v : Value} (hv : v.All L) :
    v.plain (extend ℓ n) = (v.plain ℓ).shift := by
  rw [← v.plain_shift]
  exact v.plain_congr (fun l hl => extend_of_ne ℓ (Nat.ne_of_lt (hn l hl))) hv

theorem Value.plains_extend {n : Nat} (hn : L.Below n) {vs : List Value} (hvs : Value.Alls L vs) :
    Value.plains (extend ℓ n) vs = (Value.plains ℓ vs).map shift := by
  rw [Value.plains_eq_map, Value.plains_eq_map, List.map_map]
  exact List.map_congr_left fun v hv => Value.plain_extend hn (Value.alls_iff.1 hvs v hv)

/-- **Entered with its own variable, a closure is its body.** -/
theorem Closure.plainIn_enter {n : Nat} (hn : L.Below n) {c : Closure} (hc : c.All L) :
    c.body.plainIn (extend ℓ n) (c.parameter n :: c.env) = c.plain ℓ := by
  obtain ⟨env, label, body⟩ := c
  rw [Closure.plain, liftSub_ofList, ← Value.plains_extend hn hc.1, ← extend_self ℓ n]
  rfl

/-- The variable of a binder stands for the innermost variable below it. -/
theorem Closure.plain_parameter (c : Closure) (ℓ : Nat → Plain) (n : Nat) :
    (c.parameter n).plain (extend ℓ n) = .var 0 := extend_self ℓ n

section

variable (hS : Θ.Describes S) {n level : Nat}

include hS

/-- **Entering a closure reduces its body.** -/
theorem Closure.enter_reds (hl : L.Below level) {c : Closure} {v : Value} (hc : c.All L)
    (h : c.enter S n level = .ok v) (ℓ : Nat → Plain) :
    Reds Θ (c.plain ℓ) (v.plain (extend ℓ level)) := by
  rw [← Closure.plainIn_enter hl hc]
  exact Term.eval_reds hS h _

theorem Closure.enter_safe (hΘ : Θ.Sound) (hℓ : LevelMap ℓ) (hl : L.Below level) {c : Closure}
    (hc : c.All L) {Γ : List Plain} {T : Plain} (h : HasType Θ Γ (c.plain ℓ) T) :
    Safe (c.enter S n level) := by
  rw [← Closure.plainIn_enter hl hc] at h
  exact Term.eval_safe hΘ hS (hℓ.extend level) h

end

theorem Closure.enter_all_bind (hL : L.Closed S) {n level : Nat} {c : Closure} {v : Value}
    (hc : c.All L) (h : c.enter S n level = .ok v) : v.All (L.bind level) :=
  Closure.instantiate_all (hL.bind level) (a := c.parameter level) (hc.mono (L.le_bind level))
    (.inr rfl) h

/-! ### Reading back -/

/-- The indices of a scope of `level` variables stand for what its levels stand for. -/
def Inverse (L : Leaves) (level : Nat) (ℓ σ : Nat → Plain) : Prop :=
  ∀ l, L.level l → σ (level - (l + 1)) = ℓ l

theorem Inverse.bind {level : Nat} {σ : Nat → Plain} (hl : L.Below level)
    (h : Inverse L level ℓ σ) :
    Inverse (L.bind level) (level + 1) (extend ℓ level) (liftSub σ) := by
  rintro l (hL | rfl)
  · have hlt := hl l hL
    rw [extend_of_ne ℓ (Nat.ne_of_lt hlt), ← h l hL,
      show level + 1 - (l + 1) = level - (l + 1) + 1 by omega]
    rfl
  · rw [extend_self, Nat.sub_self]
    rfl

theorem readBack_reds (hS : Θ.Describes S) (n : Nat) :
    (∀ {L : Leaves} {level : Nat} {v : Value} {t : Term} {ℓ σ : Nat → Plain}, L.Closed S →
      L.Below level → Inverse L level ℓ σ → v.All L → v.readBack S n level = .ok t →
      Reds Θ (v.plain ℓ) (t.plain.subst σ)) ∧
    (∀ {L : Leaves} {level : Nat} {m : Neutral} {t : Term} {ℓ σ : Nat → Plain}, L.Closed S →
      L.Below level → Inverse L level ℓ σ → m.All L → m.readBack S n level = .ok t →
      Reds Θ (m.plain ℓ) (t.plain.subst σ)) := by
  induction n with
  | zero => exact ⟨fun _ _ _ _ h => (nomatch h), fun _ _ _ _ h => (nomatch h)⟩
  | succ n ih =>
    obtain ⟨ihv, ihm⟩ := ih
    have ihvs {L : Leaves} {level : Nat} {vs : List Value} {ts : List Term} {ℓ σ : Nat → Plain}
        (hL : L.Closed S) (hl : L.Below level) (hσ : Inverse L level ℓ σ) (hvs : Value.Alls L vs)
        (h : vs.mapM (fun v => v.readBack S n level) = .ok ts) :
        List.Forall₂ (Reds Θ) (Value.plains ℓ vs) ((Term.plains ts).map (subst σ)) := by
      rw [Value.alls_iff] at hvs
      rw [Term.plains_subst, Value.plains_eq_map, List.forall₂_map_left_iff,
        List.forall₂_map_right_iff]
      exact forall₂_of_mem (mapM_eq_ok.1 h) fun v hv _ ht => ihv hL hl hσ (hvs v hv) ht
    refine ⟨?_, ?_⟩
    · intro L level v t ℓ σ hL hl hσ hv h
      have ihb {c : Closure} {w : Value} {inner : Nat} {b : Term} (hc : c.All L)
          (hw : c.enter S n level = .ok w) (hi : nextNumber level = .ok inner)
          (hb : w.readBack S n inner = .ok b) :
          Reds Θ (c.plain ℓ) (b.plain.subst (liftSub σ)) := by
        obtain rfl := eq_of_nextNumber hi
        exact (Closure.enter_reds hS hl hc hw ℓ).trans
          (ihv (hL.bind level) hl.bind (hσ.bind hl) (Closure.enter_all_bind hL hc hw) hb)
      cases v with
      | neutral m => exact ihm hL hl hσ hv h
      | type l =>
        cases h
        exact .refl
      | pi d c =>
        obtain ⟨d', hd, h⟩ := bind_eq_ok.1 h
        obtain ⟨w, hw, h⟩ := bind_eq_ok.1 h
        obtain ⟨inner, hi, h⟩ := bind_eq_ok.1 h
        obtain ⟨b, hb, h⟩ := bind_eq_ok.1 h
        cases h
        exact .pi (ihv hL hl hσ hv.1 hd) (ihb hv.2 hw hi hb)
      | lam d c =>
        obtain ⟨d', hd, h⟩ := bind_eq_ok.1 h
        obtain ⟨w, hw, h⟩ := bind_eq_ok.1 h
        obtain ⟨inner, hi, h⟩ := bind_eq_ok.1 h
        obtain ⟨b, hb, h⟩ := bind_eq_ok.1 h
        cases h
        exact .lam (ihv hL hl hσ hv.1 hd) (ihb hv.2 hw hi hb)
      | former F as =>
        obtain ⟨ts, hts, h⟩ := bind_eq_ok.1 h
        cases h
        rw [Term.plain, subst_spine]
        exact .spine .refl (ihvs hL hl hσ hv hts)
      | con c as =>
        obtain ⟨ts, hts, h⟩ := bind_eq_ok.1 h
        cases h
        rw [Term.plain, subst_spine]
        exact .spine .refl (ihvs hL hl hσ hv hts)
    · intro L level m t ℓ σ hL hl hσ hm h
      cases m with
      | var label l =>
        rw [Neutral.readBack, if_pos (hl l hm)] at h
        cases h
        rw [Term.plain, subst, hσ l hm]
        exact .refl
      | const c =>
        cases h
        exact .refl
      | app f a =>
        obtain ⟨g, hg, h⟩ := bind_eq_ok.1 h
        obtain ⟨b, hb, h⟩ := bind_eq_ok.1 h
        cases h
        exact .app (ihm hL hl hσ hm.1 hg) (ihv hL hl hσ hm.2 hb)
      | elim t M ms =>
        obtain ⟨u, hu, h⟩ := bind_eq_ok.1 h
        obtain ⟨N, hN, h⟩ := bind_eq_ok.1 h
        obtain ⟨ns, hns, h⟩ := bind_eq_ok.1 h
        cases h
        rw [Term.plain, Plain.elim, subst, subst_elimHead]
        exact .elim (ihv hL hl hσ hm.2.1 hN) (ihvs hL hl hσ hm.2.2 hns) (ihm hL hl hσ hm.1 hu)

/-- **A value reduces to the term it is read back as.** -/
theorem Value.readBack_reds (hS : Θ.Describes S) {n level : Nat} {v : Value} {t : Term}
    {σ : Nat → Plain} (hL : L.Closed S) (hl : L.Below level) (hσ : Inverse L level ℓ σ)
    (hv : v.All L) (h : v.readBack S n level = .ok t) : Reds Θ (v.plain ℓ) (t.plain.subst σ) :=
  (Constructions.readBack_reds hS n).1 hL hl hσ hv h

theorem readBack_safe (hΘ : Θ.Sound) (hS : Θ.Describes S) (n : Nat) :
    (∀ {L : Leaves} {level : Nat} {v : Value} {ℓ : Nat → Plain} {Γ : List Plain} {T : Plain},
      L.Closed S → L.Below level → LevelMap ℓ → v.All L → HasType Θ Γ (v.plain ℓ) T →
      Safe (v.readBack S n level)) ∧
    (∀ {L : Leaves} {level : Nat} {m : Neutral} {ℓ : Nat → Plain} {Γ : List Plain} {T : Plain},
      L.Closed S → L.Below level → LevelMap ℓ → m.All L → HasType Θ Γ (m.plain ℓ) T →
      Safe (m.readBack S n level)) := by
  induction n with
  | zero => exact ⟨fun _ _ _ _ _ => .exhausted, fun _ _ _ _ _ => .exhausted⟩
  | succ n ih =>
    obtain ⟨ihv, ihm⟩ := ih
    refine ⟨?_, ?_⟩
    · intro L level v ℓ Γ T hL hl hℓ hv h
      -- Below a binder the entered body has the type of the closure.
      have ihb {c : Closure} {A B : Plain} (hc : c.All L) (h : HasType Θ (A :: Γ) (c.plain ℓ) B)
          {g : Term → Term} : Safe (do
            let v ← c.enter S n level
            let inner ← nextNumber level
            let b ← v.readBack S n inner
            .ok (g b)) := by
        refine Post.bind (Closure.enter_safe hS hΘ hℓ hl hc h) fun w hw _ => ?_
        refine Post.bind (Safe.nextNumber level) fun inner hi _ => ?_
        obtain rfl := eq_of_nextNumber hi
        have hw' := h.reds hΘ (Closure.enter_reds hS hl hc hw ℓ)
        exact Post.bind (ihv (hL.bind level) hl.bind (hℓ.extend level)
          (Closure.enter_all_bind hL hc hw) hw') fun _ _ _ => trivial
      cases v with
      | neutral m => exact ihm hL hl hℓ hv h
      | type l => trivial
      | pi d c =>
        obtain ⟨_, _, hd, hc, _⟩ := h.pi_inv
        exact Post.bind (ihv hL hl hℓ hv.1 hd) fun d' _ _ => ihb hv.2 hc
      | lam d c =>
        obtain ⟨_, _, hd, hc, _⟩ := h.lam_inv
        exact Post.bind (ihv hL hl hℓ hv.1 hd) fun d' _ _ => ihb hv.2 hc
      | former F as =>
        refine Post.bind (Safe.mapM fun a ha => ?_) fun _ _ _ => trivial
        rw [Value.plain, Value.plains_eq_map] at h
        obtain ⟨A, hA⟩ := h.of_mem_spine (fun hp => nomatch hp.eq_atom) (List.mem_map_of_mem ha)
        exact ihv hL hl hℓ (Value.alls_iff.1 hv a ha) hA
      | con c as =>
        refine Post.bind (Safe.mapM fun a ha => ?_) fun _ _ _ => trivial
        rw [Value.plain, Value.plains_eq_map] at h
        obtain ⟨A, hA⟩ := h.of_mem_spine (fun hp => nomatch hp.eq_atom) (List.mem_map_of_mem ha)
        exact ihv hL hl hℓ (Value.alls_iff.1 hv a ha) hA
    · intro L level m ℓ Γ T hL hl hℓ hm h
      cases m with
      | var label l =>
        rw [Neutral.readBack, if_pos (hl l hm)]
        trivial
      | const c => trivial
      | app f a =>
        obtain ⟨A, B, hf, ha, _⟩ := h.app_inv_of_not_partial (f.not_partial hℓ)
        exact Post.bind (ihm hL hl hℓ hm.1 hf) fun _ _ _ =>
          Post.bind (ihv hL hl hℓ hm.2 ha) fun _ _ _ => trivial
      | elim t M ms =>
        obtain ⟨F, D, cs, ps, is, u, he, _⟩ := h.elim_inv
        refine Post.bind (ihm hL hl hℓ hm.1 he.target) fun _ _ _ => ?_
        refine Post.bind (ihv hL hl hℓ hm.2.1 he.motive) fun _ _ _ => ?_
        refine Post.bind (Safe.mapM fun a ha => ?_) fun _ _ _ => trivial
        obtain ⟨A, hA⟩ := he.of_mem_methods hΘ
          (Value.plains_eq_map ℓ ms ▸ List.mem_map_of_mem ha)
        exact ihv hL hl hℓ (Value.alls_iff.1 hm.2.2 a ha) hA

/-- **Reading back a well-typed value does not go wrong.** -/
theorem Value.readBack_safe (hΘ : Θ.Sound) (hS : Θ.Describes S) {n level : Nat} {v : Value}
    {Γ : List Plain} {T : Plain} (hL : L.Closed S) (hl : L.Below level) (hℓ : LevelMap ℓ)
    (hv : v.All L) (h : HasType Θ Γ (v.plain ℓ) T) : Safe (v.readBack S n level) :=
  (Constructions.readBack_safe hΘ hS n).1 hL hl hℓ hv h

end Constructions
