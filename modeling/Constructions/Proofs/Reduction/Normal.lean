/-
# Normal forms

A term is normal if it visibly has nothing left to compute: it has no local definition, no
constant in it has a definition, and what is applied or eliminated in it waits for a
variable or a constant.

| statement | theorem |
| --- | --- |
| reading back gives normal terms | `Value.readBack_normal` |
| no step can be taken in a normal term | `Term.Normal.not_step` |
-/

import Constructions.Proofs.Reduction

namespace Constructions

namespace Term

/-- The term is a variable, a constant, or something applied or eliminated. -/
def Waits : Term → Prop
  | .var _ _ => True
  | .const _ => True
  | .app _ _ => True
  | .elim _ _ _ => True
  | _ => False

mutual

/-- Nothing is left to compute, if constants of the kind `P` have no definition. -/
def Normal (P : Name → Prop) : Term → Prop
  | .var _ _ => True
  | .const c => P c
  | .letIn _ _ _ _ => False
  | .type _ => True
  | .pi _ A B => A.Normal P ∧ B.Normal P
  | .lam _ A b => A.Normal P ∧ b.Normal P
  | .app f a => f.Waits ∧ f.Normal P ∧ a.Normal P
  | .former _ as => Normals P as
  | .con _ as => Normals P as
  | .elim t M ms => t.Waits ∧ t.Normal P ∧ M.Normal P ∧ Normals P ms

/-- Nothing is left to compute in any of the terms. -/
def Normals (P : Name → Prop) : List Term → Prop
  | [] => True
  | t :: ts => t.Normal P ∧ Normals P ts

end

mutual

/-- The term without its labels. -/
def unlabel : Term → Term
  | .var _ i => .var none i
  | .const c => .const c
  | .letIn _ A a b => .letIn none A.unlabel a.unlabel b.unlabel
  | .type l => .type l
  | .pi _ A B => .pi none A.unlabel B.unlabel
  | .lam _ A b => .lam none A.unlabel b.unlabel
  | .app f a => .app f.unlabel a.unlabel
  | .former F as => .former F (unlabels as)
  | .con c as => .con c (unlabels as)
  | .elim t M ms => .elim t.unlabel M.unlabel (unlabels ms)

/-- The terms without their labels. -/
def unlabels : List Term → List Term
  | [] => []
  | t :: ts => t.unlabel :: unlabels ts

end

variable {S : Signature} {δ : Name → Option Term} {P : Name → Prop}

theorem normals_iff {ts : List Term} : Normals P ts ↔ ∀ t ∈ ts, t.Normal P := by
  induction ts with
  | nil => simp [Normals]
  | cons t ts ih => rw [Normals, ih, List.forall_mem_cons]

/-! ### No step can be taken -/

theorem Normal.of_plug {C : Frame} {t : Term} (h : (C.plug t).Normal P) : t.Normal P := by
  have hmem {as bs : List Term} (hs : Normals P (as ++ t :: bs)) : t.Normal P :=
    normals_iff.1 hs t (by simp)
  cases C with
  | letType | letArgument | letBody => exact h.elim
  | piDomain | lamDomain => exact h.1
  | piCodomain | lamBody => exact h.2
  | callee => exact h.2.1
  | argument => exact h.2.2
  | former | con => exact hmem h
  | target => exact h.2.1
  | motive => exact h.2.2.1
  | method => exact hmem h.2.2.2

theorem Normal.not_contracts (hδ : ∀ c, P c → δ c = none) {t u : Term} (h : t.Normal P) :
    ¬ Contracts S δ t u := by
  intro e
  cases e with
  | beta => exact h.1
  | zeta => exact h
  | delta hc => cases (hδ _ h).symm.trans hc
  | former => exact h.1
  | con => exact h.1
  | iota => exact h.1

/-- **No step can be taken in a normal term.** -/
theorem Normal.not_step (hδ : ∀ c, P c → δ c = none) {t : Term} (h : t.Normal P) (u : Term) :
    ¬ Step S δ t u := by
  intro e
  induction e with
  | contract e => exact h.not_contracts hδ e
  | plug C _ ih => exact ih h.of_plug

end Term

/-! ### Reading back -/

section

variable {S : Signature} {L : Leaves} (hS : L.Closed S)

include hS

theorem readBack_normal (hl : ∀ l, L.level l) (n : Nat) :
    (∀ {level : Nat} {v : Value} {t : Term}, v.All L → v.readBack S n level = .ok t →
      t.Normal L.stuck) ∧
    (∀ {level : Nat} {m : Neutral} {t : Term}, m.All L → m.readBack S n level = .ok t →
      t.Waits ∧ t.Normal L.stuck) := by
  induction n with
  | zero => exact ⟨fun _ h => (nomatch h), fun _ h => (nomatch h)⟩
  | succ n ih =>
    obtain ⟨ihv, ihm⟩ := ih
    have ihvs {level : Nat} {vs : List Value} {ts : List Term} (hvs : Value.Alls L vs)
        (h : vs.mapM (fun v => v.readBack S n level) = .ok ts) : Term.Normals L.stuck ts := by
      rw [Value.alls_iff] at hvs
      refine Term.normals_iff.2 (forall_mem_of_forall₂ (forall₂_of_mem (mapM_eq_ok.1 h) ?_))
      exact fun v hv _ ht => ihv (hvs v hv) ht
    have ihb {level : Nat} {d : Value} {c : Closure} {g : Label → Term → Term → Term} {t : Term}
        (hg : ∀ label d b, d.Normal L.stuck → b.Normal L.stuck → (g label d b).Normal L.stuck)
        (hd : d.All L) (hc : c.All L)
        (h : (do
          let d ← d.readBack S n level
          let v ← c.enter S n level
          let inner ← nextNumber level
          let b ← v.readBack S n inner
          .ok (g c.label d b)) = .ok t) : t.Normal L.stuck := by
      obtain ⟨d', hd', h⟩ := bind_eq_ok.1 h
      obtain ⟨w, hw, h⟩ := bind_eq_ok.1 h
      obtain ⟨inner, _, h⟩ := bind_eq_ok.1 h
      obtain ⟨b, hb, h⟩ := bind_eq_ok.1 h
      cases h
      exact hg _ _ _ (ihv hd hd') (ihv (Closure.enter_all hS hl hc hw) hb)
    refine ⟨?_, ?_⟩
    · intro level v t hv h
      cases v with
      | neutral m => exact (ihm hv h).2
      | type l =>
        cases h
        trivial
      | pi d c => exact ihb (g := Term.pi) (fun _ _ _ hd hb => ⟨hd, hb⟩) hv.1 hv.2 h
      | lam d c => exact ihb (g := Term.lam) (fun _ _ _ hd hb => ⟨hd, hb⟩) hv.1 hv.2 h
      | former F as =>
        obtain ⟨ts, hts, h⟩ := bind_eq_ok.1 h
        cases h
        exact ihvs hv hts
      | con c as =>
        obtain ⟨ts, hts, h⟩ := bind_eq_ok.1 h
        cases h
        exact ihvs hv hts
    · intro level m t hm h
      cases m with
      | var label l =>
        rw [Neutral.readBack] at h
        split at h
        · cases h
          exact ⟨trivial, trivial⟩
        · cases h
      | const c =>
        cases h
        exact ⟨trivial, hm⟩
      | app f a =>
        obtain ⟨g, hg, h⟩ := bind_eq_ok.1 h
        obtain ⟨b, hb, h⟩ := bind_eq_ok.1 h
        cases h
        obtain ⟨hw, hn⟩ := ihm hm.1 hg
        exact ⟨trivial, hw, hn, ihv hm.2 hb⟩
      | elim t M ms =>
        obtain ⟨u, hu, h⟩ := bind_eq_ok.1 h
        obtain ⟨N, hN, h⟩ := bind_eq_ok.1 h
        obtain ⟨ns, hns, h⟩ := bind_eq_ok.1 h
        cases h
        obtain ⟨hw, hn⟩ := ihm hm.1 hu
        exact ⟨trivial, hw, hn, ihv hm.2.1 hN, ihvs hm.2.2 hns⟩

/-- **Reading back leaves nothing to compute.** -/
theorem Value.readBack_normal {n level : Nat} {v : Value} {t : Term} (hv : v.All L)
    (h : v.readBack S n level = .ok t) : t.Normal L.stuck := by
  have hle : L.Le { L with level := fun _ => True } :=
    ⟨fun _ => trivial, fun h => h, fun h => h, fun h => h⟩
  have hS' : Leaves.Closed S { L with level := fun _ => True } := fun c hc => (hS c hc).mono hle
  exact (Constructions.readBack_normal hS' (fun _ => trivial) n).1 (hv.mono hle) h

end

end Constructions
