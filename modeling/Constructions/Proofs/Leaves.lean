/-
# What occurs in values

The leaves of a value are the levels of its variables, the constants it waits for, the
constants in the bodies of its closures and its universes.  Computing makes no new leaves:
if all leaves of a term and of its environment are of some kind, so are those of its value
(`Term.eval_all`), and those of the term it is read back as (`Value.readBack_all`).
-/

import Constructions.Proofs.Outcome
import Constructions.Proofs.Reading
import Constructions.ReadBack

namespace Constructions

open Plain

/-- Kinds of leaves. -/
structure Leaves where
  /-- Levels of variables. -/
  level : Nat → Prop
  /-- Constants that a value waits for. -/
  stuck : Name → Prop
  /-- Constants in terms. -/
  name : Name → Prop
  /-- Universes. -/
  univ : UInt64 → Prop

mutual

/-- All constants and universes of a term are of the given kind. -/
def Term.All (L : Leaves) : Term → Prop
  | .var _ _ => True
  | .const c => L.name c
  | .letIn _ A a b => A.All L ∧ a.All L ∧ b.All L
  | .type l => L.univ l
  | .pi _ A B => A.All L ∧ B.All L
  | .lam _ A b => A.All L ∧ b.All L
  | .app f a => f.All L ∧ a.All L
  | .former _ as => Term.Alls L as
  | .con _ as => Term.Alls L as
  | .elim t M ms => t.All L ∧ M.All L ∧ Term.Alls L ms

/-- All constants and universes of terms are of the given kind. -/
def Term.Alls (L : Leaves) : List Term → Prop
  | [] => True
  | t :: ts => t.All L ∧ Term.Alls L ts

end

mutual

/-- All leaves of a value are of the given kind. -/
def Value.All (L : Leaves) : Value → Prop
  | .neutral m => m.All L
  | .type l => L.univ l
  | .pi d c => d.All L ∧ c.All L
  | .lam d c => d.All L ∧ c.All L
  | .former _ as => Value.Alls L as
  | .con _ as => Value.Alls L as

/-- All leaves of a neutral value are of the given kind. -/
def Neutral.All (L : Leaves) : Neutral → Prop
  | .var _ l => L.level l
  | .const c => L.stuck c
  | .app f a => f.All L ∧ a.All L
  | .elim t M ms => t.All L ∧ M.All L ∧ Value.Alls L ms

/-- All leaves of a closure are of the given kind. -/
def Closure.All (L : Leaves) : Closure → Prop
  | .mk env _ body => Value.Alls L env ∧ body.All L

/-- All leaves of values are of the given kind. -/
def Value.Alls (L : Leaves) : List Value → Prop
  | [] => True
  | v :: vs => v.All L ∧ Value.Alls L vs

end

theorem Term.alls_iff {L : Leaves} {ts : List Term} : Term.Alls L ts ↔ ∀ t ∈ ts, t.All L := by
  induction ts with
  | nil => simp [Term.Alls]
  | cons t ts ih => rw [Term.Alls, ih, List.forall_mem_cons]

theorem Value.alls_iff {L : Leaves} {vs : List Value} : Value.Alls L vs ↔ ∀ v ∈ vs, v.All L := by
  induction vs with
  | nil => simp [Value.Alls]
  | cons v vs ih => rw [Value.Alls, ih, List.forall_mem_cons]

theorem Value.Alls.nil {L : Leaves} : Value.Alls L [] := trivial

theorem Value.Alls.cons {L : Leaves} {v : Value} {vs : List Value} (h : v.All L)
    (hs : Value.Alls L vs) : Value.Alls L (v :: vs) := ⟨h, hs⟩

theorem Value.alls_append {L : Leaves} {vs ws : List Value} :
    Value.Alls L (vs ++ ws) ↔ Value.Alls L vs ∧ Value.Alls L ws := by
  rw [alls_iff, alls_iff, alls_iff, List.forall_mem_append]

/-! ### Monotonicity -/

/-- One kind of leaves includes another. -/
structure Leaves.Le (L L' : Leaves) : Prop where
  level : ∀ {l}, L.level l → L'.level l
  stuck : ∀ {c}, L.stuck c → L'.stuck c
  name : ∀ {c}, L.name c → L'.name c
  univ : ∀ {l}, L.univ l → L'.univ l

mutual

theorem Term.All.mono {L L' : Leaves} (hn : ∀ c, L.name c → L'.name c)
    (hu : ∀ l, L.univ l → L'.univ l) : ∀ {t : Term}, t.All L → t.All L'
  | .var _ _, _ => trivial
  | .const _, ht => hn _ ht
  | .letIn _ _ _ _, ⟨hA, ha, hb⟩ =>
    ⟨Term.All.mono hn hu hA, Term.All.mono hn hu ha, Term.All.mono hn hu hb⟩
  | .type _, ht => hu _ ht
  | .pi _ _ _, ⟨hA, hB⟩ => ⟨Term.All.mono hn hu hA, Term.All.mono hn hu hB⟩
  | .lam _ _ _, ⟨hA, hb⟩ => ⟨Term.All.mono hn hu hA, Term.All.mono hn hu hb⟩
  | .app _ _, ⟨hf, ha⟩ => ⟨Term.All.mono hn hu hf, Term.All.mono hn hu ha⟩
  | .former _ _, has => Term.Alls.mono hn hu has
  | .con _ _, has => Term.Alls.mono hn hu has
  | .elim _ _ _, ⟨ht, hM, hms⟩ =>
    ⟨Term.All.mono hn hu ht, Term.All.mono hn hu hM, Term.Alls.mono hn hu hms⟩

theorem Term.Alls.mono {L L' : Leaves} (hn : ∀ c, L.name c → L'.name c)
    (hu : ∀ l, L.univ l → L'.univ l) : ∀ {ts : List Term}, Term.Alls L ts → Term.Alls L' ts
  | [], _ => trivial
  | _ :: _, ⟨ht, hts⟩ => ⟨Term.All.mono hn hu ht, Term.Alls.mono hn hu hts⟩

end

mutual

theorem Value.All.mono {L L' : Leaves} (h : L.Le L') : ∀ {v : Value}, v.All L → v.All L'
  | .neutral _, hm => Neutral.All.mono h hm
  | .type _, hl => h.univ hl
  | .pi _ _, ⟨hd, hc⟩ => ⟨Value.All.mono h hd, Closure.All.mono h hc⟩
  | .lam _ _, ⟨hd, hc⟩ => ⟨Value.All.mono h hd, Closure.All.mono h hc⟩
  | .former _ _, has => Value.Alls.mono h has
  | .con _ _, has => Value.Alls.mono h has

theorem Neutral.All.mono {L L' : Leaves} (h : L.Le L') : ∀ {m : Neutral}, m.All L → m.All L'
  | .var _ _, hl => h.level hl
  | .const _, hc => h.stuck hc
  | .app _ _, ⟨hf, ha⟩ => ⟨Neutral.All.mono h hf, Value.All.mono h ha⟩
  | .elim _ _ _, ⟨ht, hM, hms⟩ =>
    ⟨Neutral.All.mono h ht, Value.All.mono h hM, Value.Alls.mono h hms⟩

theorem Closure.All.mono {L L' : Leaves} (h : L.Le L') : ∀ {c : Closure}, c.All L → c.All L'
  | .mk _ _ _, ⟨he, hb⟩ =>
    ⟨Value.Alls.mono h he, Term.All.mono (fun _ => h.name) (fun _ => h.univ) hb⟩

theorem Value.Alls.mono {L L' : Leaves} (h : L.Le L') :
    ∀ {vs : List Value}, Value.Alls L vs → Value.Alls L' vs
  | [], _ => trivial
  | _ :: _, ⟨hv, hvs⟩ => ⟨Value.All.mono h hv, Value.Alls.mono h hvs⟩

end

/-! ### Level maps that agree -/

mutual

/-- **What a value stands for depends on its own variables only.** -/
theorem Value.plain_congr {L : Leaves} {ℓ ℓ' : Nat → Plain}
    (h : ∀ l, L.level l → ℓ l = ℓ' l) : ∀ {v : Value}, v.All L → v.plain ℓ = v.plain ℓ'
  | .neutral _, hm => Neutral.plain_congr h hm
  | .type _, _ => rfl
  | .pi _ _, ⟨hd, hc⟩ => congrArg₂ Plain.pi (Value.plain_congr h hd) (Closure.plain_congr h hc)
  | .lam _ _, ⟨hd, hc⟩ => congrArg₂ Plain.lam (Value.plain_congr h hd) (Closure.plain_congr h hc)
  | .former _ _, has => congrArg (spine _) (Value.plains_congr h has)
  | .con _ _, has => congrArg (spine _) (Value.plains_congr h has)

theorem Neutral.plain_congr {L : Leaves} {ℓ ℓ' : Nat → Plain}
    (h : ∀ l, L.level l → ℓ l = ℓ' l) : ∀ {m : Neutral}, m.All L → m.plain ℓ = m.plain ℓ'
  | .var _ l, hl => h l hl
  | .const _, _ => rfl
  | .app _ _, ⟨hf, ha⟩ => congrArg₂ Plain.app (Neutral.plain_congr h hf) (Value.plain_congr h ha)
  | .elim _ _ _, ⟨ht, hM, hms⟩ => by
    rw [Neutral.plain, Neutral.plain_congr h ht, Value.plain_congr h hM, Value.plains_congr h hms]
    rfl

theorem Closure.plain_congr {L : Leaves} {ℓ ℓ' : Nat → Plain}
    (h : ∀ l, L.level l → ℓ l = ℓ' l) : ∀ {c : Closure}, c.All L → c.plain ℓ = c.plain ℓ'
  | .mk _ _ _, ⟨he, _⟩ => by
    rw [Closure.plain, Value.plains_congr h he]
    rfl

theorem Value.plains_congr {L : Leaves} {ℓ ℓ' : Nat → Plain}
    (h : ∀ l, L.level l → ℓ l = ℓ' l) : ∀ {vs : List Value}, Value.Alls L vs →
    Value.plains ℓ vs = Value.plains ℓ' vs
  | [], _ => rfl
  | _ :: _, ⟨hv, hvs⟩ => congrArg₂ List.cons (Value.plain_congr h hv) (Value.plains_congr h hvs)

end

/-! ### Computing makes no new leaves -/

/-- What constants compute to has leaves of the given kind. -/
def Leaves.Closed (S : Signature) (L : Leaves) : Prop := ∀ c, L.name c → (S.unfold c).All L

theorem Value.applyAll_all {S : Signature} {n : Nat} {L : Leaves}
    (ih : ∀ {f a v : Value}, f.All L → a.All L → f.apply S n a = .ok v → v.All L)
    {as : List Value} {f v : Value} (hf : f.All L) (has : Value.Alls L as)
    (h : f.applyAll S n as = .ok v) : v.All L := by
  induction as generalizing f with
  | nil => exact Except.ok.inj h ▸ hf
  | cons a as ihas =>
    obtain ⟨g, hg, h⟩ := bind_eq_ok.1 h
    exact ihas (ih hf has.1 hg) has.2 h

theorem forall₂_of_mem {α β : Type} {r s : α → β → Prop} {as : List α} {bs : List β}
    (h : List.Forall₂ r as bs) (hs : ∀ a ∈ as, ∀ {b}, r a b → s a b) : List.Forall₂ s as bs := by
  induction h with
  | nil => exact .nil
  | cons h _ ih =>
    rw [List.forall_mem_cons] at hs
    exact .cons (hs.1 h) (ih hs.2)

/-- **Computing makes no new leaves.** -/
theorem eval_apply_eliminate_all {S : Signature} {L : Leaves} (hS : L.Closed S) (n : Nat) :
    (∀ {env : Env} {t : Term} {v : Value}, Value.Alls L env → t.All L → t.eval S n env = .ok v →
      v.All L) ∧
    (∀ {f a v : Value}, f.All L → a.All L → f.apply S n a = .ok v → v.All L) ∧
    (∀ {M t v : Value} {ms : List Value}, M.All L → Value.Alls L ms → t.All L →
      Value.eliminate S n M ms t = .ok v → v.All L) := by
  induction n with
  | zero => exact ⟨fun _ _ h => (nomatch h), fun _ _ h => (nomatch h), fun _ _ _ h => (nomatch h)⟩
  | succ n ih =>
    obtain ⟨ihe, iha, ihm⟩ := ih
    have ihes {env ts vs} (henv : Value.Alls L env) (hts : Term.Alls L ts)
        (h : ts.mapM (fun t => t.eval S n env) = .ok vs) : Value.Alls L vs := by
      rw [Term.alls_iff] at hts
      refine Value.alls_iff.2 (forall_mem_of_forall₂ (forall₂_of_mem (mapM_eq_ok.1 h) ?_))
      exact fun t ht _ hv => ihe henv (hts t ht) hv
    refine ⟨?_, ?_, ?_⟩
    · intro env t v henv ht h
      cases t with
      | var label i =>
        exact Value.alls_iff.1 henv v (List.mem_of_getElem? (orDangling_eq_ok.1 h))
      | const c =>
        cases h
        exact hS c ht
      | letIn label A a b =>
        obtain ⟨w, hw, h⟩ := bind_eq_ok.1 h
        exact ihe (.cons (ihe henv ht.2.1 hw) henv) ht.2.2 h
      | type l =>
        cases h
        exact ht
      | pi label A B =>
        obtain ⟨d, hd, h⟩ := bind_eq_ok.1 h
        cases h
        exact ⟨ihe henv ht.1 hd, henv, ht.2⟩
      | lam label A b =>
        obtain ⟨d, hd, h⟩ := bind_eq_ok.1 h
        cases h
        exact ⟨ihe henv ht.1 hd, henv, ht.2⟩
      | app f a =>
        obtain ⟨g, hg, h⟩ := bind_eq_ok.1 h
        obtain ⟨w, hw, h⟩ := bind_eq_ok.1 h
        exact iha (ihe henv ht.1 hg) (ihe henv ht.2 hw) h
      | former F as =>
        obtain ⟨vs, hvs, h⟩ := bind_eq_ok.1 h
        cases h
        exact ihes henv ht hvs
      | con c as =>
        obtain ⟨vs, hvs, h⟩ := bind_eq_ok.1 h
        cases h
        exact ihes henv ht hvs
      | elim t M ms =>
        obtain ⟨w, hw, h⟩ := bind_eq_ok.1 h
        obtain ⟨m, hm, h⟩ := bind_eq_ok.1 h
        obtain ⟨ns, hns, h⟩ := bind_eq_ok.1 h
        rw [mapError_eq_ok] at h
        exact ihm (ihe henv ht.2.1 hm) (ihes henv ht.2.2 hns) (ihe henv ht.1 hw) h
    · intro f a v hf ha h
      cases f with
      | neutral m =>
        cases h
        exact ⟨hf, ha⟩
      | type l => cases h
      | pi d c => cases h
      | lam d c =>
        obtain ⟨env, label, body⟩ := c
        exact ihe (.cons ha hf.2.1) hf.2.2 h
      | former F as =>
        cases h
        exact Value.alls_append.2 ⟨hf, ha, trivial⟩
      | con c as =>
        cases h
        exact Value.alls_append.2 ⟨hf, ha, trivial⟩
    · intro M t v ms hM hms ht h
      cases t with
      | neutral m =>
        cases h
        exact ⟨ht, hM, hms⟩
      | con c as =>
        obtain ⟨K, F, cs, m, rs, _, _, _, _, hm, hrs, h⟩ := eliminate_con_eq_ok h
        obtain ⟨i, _, hm⟩ := Dispatch.select?_eq_some hm
        have has := Value.alls_iff.1 ht
        have hrs : Value.Alls L rs := by
          refine Value.alls_iff.2 (forall_mem_of_forall₂ (hrs.imp fun i r ⟨a, ha, hr⟩ => ?_))
          exact ihm hM hms (has a (List.mem_of_getElem? ha)) hr
        have hfs : Value.Alls L (as.drop K.parameterCount) :=
          Value.alls_iff.2 fun a ha => has a (List.mem_of_mem_drop ha)
        exact Value.applyAll_all iha (Value.alls_iff.1 hms m (List.mem_of_getElem? hm))
          (Value.alls_append.2 ⟨hfs, hrs⟩) h
      | type l => cases h
      | pi d c => cases h
      | lam d c => cases h
      | former F as => cases h

section

variable {S : Signature} {L : Leaves} (hS : L.Closed S) {n : Nat}

include hS

theorem Term.eval_all {env : Env} {t : Term} {v : Value} (henv : Value.Alls L env) (ht : t.All L)
    (h : t.eval S n env = .ok v) : v.All L := (eval_apply_eliminate_all hS n).1 henv ht h

theorem Value.apply_all {f a v : Value} (hf : f.All L) (ha : a.All L)
    (h : f.apply S n a = .ok v) : v.All L := (eval_apply_eliminate_all hS n).2.1 hf ha h

theorem Closure.instantiate_all {c : Closure} {a v : Value} (hc : c.All L) (ha : a.All L)
    (h : c.instantiate S n a = .ok v) : v.All L := by
  obtain ⟨env, label, body⟩ := c
  exact Term.eval_all hS (.cons ha hc.1) hc.2 h

theorem Closure.enter_all (hl : ∀ l, L.level l) {level : Nat} {c : Closure} {v : Value}
    (hc : c.All L) (h : c.enter S n level = .ok v) : v.All L :=
  Closure.instantiate_all hS (a := c.parameter level) hc (hl level) h

/-- **Reading back makes no new leaves.** -/
theorem readBack_all (hl : ∀ l, L.level l) (hs : ∀ c, L.stuck c → L.name c) (n : Nat) :
    (∀ {level : Nat} {v : Value} {t : Term}, v.All L → v.readBack S n level = .ok t → t.All L) ∧
    (∀ {level : Nat} {m : Neutral} {t : Term}, m.All L → m.readBack S n level = .ok t →
      t.All L) := by
  induction n with
  | zero => exact ⟨fun _ h => (nomatch h), fun _ h => (nomatch h)⟩
  | succ n ih =>
    obtain ⟨ihv, ihm⟩ := ih
    have ihvs {level : Nat} {vs : List Value} {ts : List Term} (hvs : Value.Alls L vs)
        (h : vs.mapM (fun v => v.readBack S n level) = .ok ts) : Term.Alls L ts := by
      rw [Value.alls_iff] at hvs
      refine Term.alls_iff.2 (forall_mem_of_forall₂ (forall₂_of_mem (mapM_eq_ok.1 h) ?_))
      exact fun v hv _ ht => ihv (hvs v hv) ht
    have ihb {level : Nat} {d : Value} {c : Closure} {g : Label → Term → Term → Term} {t : Term}
        (hg : ∀ label d b, (g label d b).All L ↔ d.All L ∧ b.All L) (hd : d.All L) (hc : c.All L)
        (h : (do
          let d ← d.readBack S n level
          let v ← c.enter S n level
          let inner ← nextNumber level
          let b ← v.readBack S n inner
          .ok (g c.label d b)) = .ok t) : t.All L := by
      obtain ⟨d', hd', h⟩ := bind_eq_ok.1 h
      obtain ⟨w, hw, h⟩ := bind_eq_ok.1 h
      obtain ⟨inner, _, h⟩ := bind_eq_ok.1 h
      obtain ⟨b, hb, h⟩ := bind_eq_ok.1 h
      cases h
      exact (hg _ _ _).2 ⟨ihv hd hd', ihv (Closure.enter_all hS hl hc hw) hb⟩
    refine ⟨?_, ?_⟩
    · intro level v t hv h
      cases v with
      | neutral m => exact ihm hv h
      | type l =>
        cases h
        exact hv
      | pi d c => exact ihb (g := Term.pi) (fun _ _ _ => Iff.rfl) hv.1 hv.2 h
      | lam d c => exact ihb (g := Term.lam) (fun _ _ _ => Iff.rfl) hv.1 hv.2 h
      | former F as =>
        obtain ⟨ts, hts, h⟩ := bind_eq_ok.1 h
        cases h
        exact ihvs hv hts
      | con c as =>
        obtain ⟨ts, hts, h⟩ := bind_eq_ok.1 h
        cases h
        exact ihvs hv hts
    · intro level m t hm h
      cases m with
      | var label l =>
        rw [Neutral.readBack] at h
        split at h
        · cases h
          trivial
        · cases h
      | const c =>
        cases h
        exact hs c hm
      | app f a =>
        obtain ⟨g, hg, h⟩ := bind_eq_ok.1 h
        obtain ⟨b, hb, h⟩ := bind_eq_ok.1 h
        cases h
        exact ⟨ihm hm.1 hg, ihv hm.2 hb⟩
      | elim t M ms =>
        obtain ⟨u, hu, h⟩ := bind_eq_ok.1 h
        obtain ⟨N, hN, h⟩ := bind_eq_ok.1 h
        obtain ⟨ns, hns, h⟩ := bind_eq_ok.1 h
        cases h
        exact ⟨ihm hm.1 hu, ihv hm.2.1 hN, ihvs hm.2.2 hns⟩

theorem Value.readBack_all (hs : ∀ c, L.stuck c → L.name c) {level : Nat} {v : Value} {t : Term}
    (hv : v.All L) (h : v.readBack S n level = .ok t) : t.All L := by
  -- A term has no levels, so all of them may be allowed on the way.
  have hle : L.Le { L with level := fun _ => True } :=
    ⟨fun _ => trivial, fun h => h, fun h => h, fun h => h⟩
  have hS' : Leaves.Closed S { L with level := fun _ => True } := fun c hc => (hS c hc).mono hle
  have ht := (Constructions.readBack_all hS' (fun _ => trivial) hs n).1 (hv.mono hle) h
  refine Term.All.mono ?_ ?_ ht
  · exact fun _ h => h
  · exact fun _ h => h

end

end Constructions
