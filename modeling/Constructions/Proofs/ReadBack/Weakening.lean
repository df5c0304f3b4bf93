/-
# Reading back in a larger scope

A value keeps its meaning when a variable comes into scope, and the term that it is read back as
is renamed: `Value.Reads.weaken`.  Reading back is described by rules here, `Value.Reads`, and not
by the procedure, which also counts the variables with 64 bits: in the larger scope it may have to
give up where it did not before.

A closure is computed in the rules with any fuel that is enough (`Settles`).
-/

import Constructions.Proofs.Parametricity

namespace Constructions

/-! ### Enough fuel -/

section

variable {α β : Type}

/-- With enough fuel, the computation returns `a`. -/
def Settles (f : Nat → Except Halt α) (a : α) : Prop := ∃ N, ∀ m, N ≤ m → f m = .ok a

namespace Settles

theorem of_forall {f : Nat → Except Halt α} {a : α} (h : ∀ m, f m = .ok a) : Settles f a :=
  ⟨0, fun m _ => h m⟩

/-- A computation that uses one unit of fuel at once. -/
theorem succ {f : Nat → Except Halt α} {a : α} (h : Settles (fun m => f (m + 1)) a) :
    Settles f a := by
  obtain ⟨N, hN⟩ := h
  refine ⟨N + 1, fun m hm => ?_⟩
  obtain ⟨k, rfl⟩ : ∃ k, m = k + 1 := ⟨m - 1, by omega⟩
  exact hN k (by omega)

theorem bind {x : Nat → Except Halt α} {f : Nat → α → Except Halt β} {a : α} {b : β}
    (hx : Settles x a) (hf : Settles (fun m => f m a) b) : Settles (fun m => x m >>= f m) b := by
  obtain ⟨N, hN⟩ := hx
  obtain ⟨M, hM⟩ := hf
  refine ⟨max N M, fun m hm => bind_eq_ok.2 ⟨a, hN m (by omega), hM m (by omega)⟩⟩

theorem of_mends {f : Nat → Except Halt α} {Q : Halt → Prop}
    (h : ∀ {n m}, n ≤ m → Mends Q (f n) (f m)) {n : Nat} {a : α} (ha : f n = .ok a) :
    Settles f a :=
  ⟨n, fun _ hm => (h hm).eq_ok ha⟩

end Settles

end

variable {S : Signature}

theorem Closure.settles_enter {c : Closure} {n level : Nat} {v : Value}
    (h : c.enter S n level = .ok v) : Settles (fun m => c.enter S m level) v :=
  .of_mends (fun hnm => Closure.enter_mends (.refl (· = .exhausted) (Leaves.closed_any S))
    (fun _ => trivial) hnm (fun _ => rfl) c.all_any level) h

/-- **A closure of a scope is entered by a value of the larger scope.** -/
theorem Closure.InScope.enter (hS : S.DefinesInScope) {c : Closure} {n : Nat} (hc : c.InScope S n)
    {v : Value} (hv : Settles (fun m => c.enter S m n) v) : v.InScope S (n + 1) := by
  obtain ⟨N, hN⟩ := hv
  have hrelated : c.Related S (upTo (n + 1)) c := hc.related fun l hl => ⟨rfl, by omega⟩
  have hn : upTo (n + 1) n n := ⟨rfl, by omega⟩
  obtain ⟨v', _, hv'⟩ := Closure.enter_related (hS.defines _) hrelated hn N v (hN N (Nat.le_refl N))
  exact hv'.inScope fun _ _ hl => hl.2

/-! ### The rules of reading back -/

/-- A value is read back as a term in a scope of `n` variables. -/
inductive Value.Reads (S : Signature) : Nat → Value → Term → Prop where
  | var {n l : Nat} (label : Label) : l < n →
      Value.Reads S n (.neutral (.var label l)) (.var label (n - (l + 1)))
  | const (n : Nat) (c : Name) : Value.Reads S n (.neutral (.const c)) (.const c)
  | app {n : Nat} {f : Neutral} {a : Value} {F A : Term} : Value.Reads S n (.neutral f) F →
      Value.Reads S n a A → Value.Reads S n (.neutral (.app f a)) (.app F A)
  | elim {n : Nat} {t : Neutral} {m : Value} {ms : List Value} {T M : Term} {Ms : List Term} :
      Value.Reads S n (.neutral t) T → Value.Reads S n m M → ms.length = Ms.length →
      (∀ (i : Nat) (v V), ms[i]? = some v → Ms[i]? = some V → Value.Reads S n v V) →
      Value.Reads S n (.neutral (.elim t m ms)) (.elim T M Ms)
  | type (n : Nat) (l : UInt64) : Value.Reads S n (.type l) (.type l)
  | pi {n : Nat} {d v : Value} {c : Closure} {D B : Term} : Value.Reads S n d D →
      Settles (fun m => c.enter S m n) v → Value.Reads S (n + 1) v B →
      Value.Reads S n (.pi d c) (.pi c.label D B)
  | lam {n : Nat} {d v : Value} {c : Closure} {D B : Term} : Value.Reads S n d D →
      Settles (fun m => c.enter S m n) v → Value.Reads S (n + 1) v B →
      Value.Reads S n (.lam d c) (.lam c.label D B)
  | former {n : Nat} {F : FamilyId} {as : List Value} {As : List Term} :
      as.length = As.length →
      (∀ (i : Nat) (v V), as[i]? = some v → As[i]? = some V → Value.Reads S n v V) →
      Value.Reads S n (.former F as) (.former F As)
  | con {n : Nat} {c : ConstructorId} {as : List Value} {As : List Term} :
      as.length = As.length →
      (∀ (i : Nat) (v V), as[i]? = some v → As[i]? = some V → Value.Reads S n v V) →
      Value.Reads S n (.con c as) (.con c As)

/-- **What is read back is read back by the rules.** -/
theorem reads_of_readBack (n : Nat) :
    (∀ {level : Nat} {v : Value} {t : Term}, v.readBack S n level = .ok t → v.Reads S level t) ∧
    (∀ {level : Nat} {m : Neutral} {t : Term}, m.readBack S n level = .ok t →
      (Value.neutral m).Reads S level t) := by
  induction n with
  | zero => exact ⟨fun h => (nomatch h), fun h => (nomatch h)⟩
  | succ n ih =>
    obtain ⟨ihv, ihm⟩ := ih
    have ihvs {level : Nat} {vs : List Value} {ts : List Term}
        (h : vs.mapM (fun v => v.readBack S n level) = .ok ts) : vs.length = ts.length ∧
        ∀ (i : Nat) (v t), vs[i]? = some v → ts[i]? = some t → v.Reads S level t := by
      have h := mapM_eq_ok.1 h
      refine ⟨h.length_eq, fun i v t hv ht => ?_⟩
      obtain ⟨t', ht', hr⟩ := forall₂_getElem? h hv
      cases ht.symm.trans ht'
      exact ihv hr
    have ihb {level : Nat} {d : Value} {c : Closure} {g : Term → Term → Term} {t : Term}
        (h : (do
          let d ← d.readBack S n level
          let v ← c.enter S n level
          let inner ← nextNumber level
          let b ← v.readBack S n inner
          .ok (g d b)) = .ok t) :
        ∃ D v B, d.Reads S level D ∧ Settles (fun m => c.enter S m level) v ∧
          v.Reads S (level + 1) B ∧ t = g D B := by
      obtain ⟨D, hD, h⟩ := bind_eq_ok.1 h
      obtain ⟨v, hv, h⟩ := bind_eq_ok.1 h
      obtain ⟨inner, hinner, h⟩ := bind_eq_ok.1 h
      obtain ⟨B, hB, h⟩ := bind_eq_ok.1 h
      cases h
      rw [eq_of_nextNumber hinner] at hB
      exact ⟨D, v, B, ihv hD, Closure.settles_enter hv, ihv hB, rfl⟩
    refine ⟨?_, ?_⟩
    · intro level v t h
      cases v with
      | neutral m => exact ihm h
      | type l =>
        cases h
        exact .type level l
      | pi d c =>
        obtain ⟨D, v, B, hD, hv, hB, rfl⟩ := ihb (g := Term.pi c.label) h
        exact .pi hD hv hB
      | lam d c =>
        obtain ⟨D, v, B, hD, hv, hB, rfl⟩ := ihb (g := Term.lam c.label) h
        exact .lam hD hv hB
      | former F as =>
        obtain ⟨ts, hts, h⟩ := bind_eq_ok.1 h
        cases h
        exact .former (ihvs hts).1 (ihvs hts).2
      | con c as =>
        obtain ⟨ts, hts, h⟩ := bind_eq_ok.1 h
        cases h
        exact .con (ihvs hts).1 (ihvs hts).2
    · intro level m t h
      cases m with
      | var label l =>
        rw [Neutral.readBack] at h
        split at h
        · next hl =>
          cases h
          exact .var label hl
        · cases h
      | const c =>
        cases h
        exact .const level c
      | app f a =>
        obtain ⟨F, hF, h⟩ := bind_eq_ok.1 h
        obtain ⟨A, hA, h⟩ := bind_eq_ok.1 h
        cases h
        exact .app (ihm hF) (ihv hA)
      | elim t M ms =>
        obtain ⟨T, hT, h⟩ := bind_eq_ok.1 h
        obtain ⟨N, hN, h⟩ := bind_eq_ok.1 h
        obtain ⟨ns, hns, h⟩ := bind_eq_ok.1 h
        cases h
        exact .elim (ihm hT) (ihv hN) (ihvs hns).1 (ihvs hns).2

/-! ### One more variable -/

/-- Levels from `k` on make room for a variable at `k`. -/
def raise (k l l' : Nat) : Prop := l' = if l < k then l else l + 1

/-- The renaming for a new variable, under `k` binders. -/
def weakening : Nat → Nat → Nat
  | 0 => Nat.succ
  | k + 1 => liftRen (weakening k)

theorem weakening_eq (k i : Nat) : weakening k i = if i < k then i else i + 1 := by
  induction k generalizing i with
  | zero => rfl
  | succ k ih =>
    cases i with
    | zero => rfl
    | succ i =>
      rw [weakening, liftRen, ih]
      split <;> split <;> omega

theorem Term.getElem?_renames (ρ : Nat → Nat) (ts : List Term) (i : Nat) :
    (Term.renames ρ ts)[i]? = ts[i]?.map (Term.rename ρ) := by
  induction ts generalizing i with
  | nil => rfl
  | cons t ts ih =>
    cases i with
    | zero => rfl
    | succ i => exact ih i

theorem Term.length_renames (ρ : Nat → Nat) (ts : List Term) :
    (Term.renames ρ ts).length = ts.length := by
  induction ts with
  | nil => rfl
  | cons t ts ih => rw [Term.renames, List.length_cons, List.length_cons, ih]

theorem reads_renames {ρ : Nat → Nat → Prop} {θ : Nat → Nat} {n : Nat} {as as' : List Value}
    {As : List Term} (h : List.Forall₂ (Value.Related S ρ) as as') (hl : as.length = As.length)
    (ih : ∀ (i : Nat) (v V), as[i]? = some v → As[i]? = some V → ∀ {v'}, v.Related S ρ v' →
      v'.Reads S n (V.rename θ)) :
    as'.length = (Term.renames θ As).length ∧
      ∀ (i : Nat) (v V), as'[i]? = some v → (Term.renames θ As)[i]? = some V → v.Reads S n V := by
  refine ⟨by rw [Term.length_renames, ← hl, h.length_eq], fun i v' V hv' hV => ?_⟩
  rw [Term.getElem?_renames] at hV
  obtain ⟨U, hU, rfl⟩ := Option.map_eq_some_iff.1 hV
  obtain ⟨v, hv, hrel⟩ := forall₂_getElem? h.flip hv'
  exact ih i v U hv hU hrel

/-- **A value with a variable more is read back as the renamed term.** -/
theorem Value.Reads.raised {k n : Nat} (hS : S.Defines (raise k)) {v : Value} {t : Term}
    (h : v.Reads S n t) (hk : k ≤ n) {v' : Value} (hv : v.Related S (raise k) v') :
    v'.Reads S (n + 1) (t.rename (weakening (n - k))) := by
  -- A closure is entered at `n` on one side and at `n + 1` on the other, which is where `raise`
  -- takes `n`: levels at or above `k` are the binders below the new variable.
  have hbinder {n : Nat} (hk : k ≤ n) {c c' : Closure} (hc : c.Related S (raise k) c')
      {v : Value} (hv : Settles (fun m => c.enter S m n) v) :
      ∃ v', Settles (fun m => c'.enter S m (n + 1)) v' ∧
        v.Related S (raise k) v' := by
    have hn : raise k n (n + 1) := (if_neg (by omega)).symm
    obtain ⟨N, hN⟩ := hv
    obtain ⟨v', hv', hrel⟩ := Closure.enter_related hS hc hn N v (hN N (Nat.le_refl N))
    exact ⟨v', Closure.settles_enter hv', hrel⟩
  have hsub {n : Nat} (hk : k ≤ n) : n + 1 - k = n - k + 1 := by omega
  induction h generalizing v' with
  | @var n l label hl =>
    cases hv with
    | neutral hm =>
      cases hm with
      | @var _ l' _ hl' =>
        have hi : weakening (n - k) (n - (l + 1)) = n + 1 - (l' + 1) := by
          rw [weakening_eq, hl']
          split <;> split <;> omega
        have hlt : l' < n + 1 := by
          rw [hl']
          split <;> omega
        rw [Term.rename, hi]
        exact .var label hlt
  | const n c =>
    cases hv with
    | neutral hm =>
      cases hm
      exact .const (n + 1) c
  | app _ _ ihf iha =>
    cases hv with
    | neutral hm =>
      cases hm with
      | app hf ha => exact .app (ihf hk (.neutral hf)) (iha hk ha)
  | elim _ _ hl _ iht ihm ihms =>
    cases hv with
    | neutral hm =>
      cases hm with
      | elim ht hm hms =>
        obtain ⟨hlen, hreads⟩ := reads_renames hms hl fun i v V hv hV => ihms i v V hv hV hk
        exact .elim (iht hk (.neutral ht)) (ihm hk hm) hlen hreads
  | type n l =>
    cases hv
    exact .type (n + 1) l
  | @pi n d w c D B _ hw _ ihd ihb =>
    cases hv with
    | pi hd hc =>
      obtain ⟨w', hw', hrel⟩ := hbinder hk hc hw
      have hB := ihb (Nat.le_succ_of_le hk) hrel
      rw [hsub hk] at hB
      cases hc
      exact .pi (ihd hk hd) hw' hB
  | @lam n d w c D B _ hw _ ihd ihb =>
    cases hv with
    | lam hd hc =>
      obtain ⟨w', hw', hrel⟩ := hbinder hk hc hw
      have hB := ihb (Nat.le_succ_of_le hk) hrel
      rw [hsub hk] at hB
      cases hc
      exact .lam (ihd hk hd) hw' hB
  | former hl _ ih =>
    cases hv with
    | former _ has =>
      obtain ⟨hlen, hreads⟩ := reads_renames has hl fun i v V hv hV => ih i v V hv hV hk
      exact .former hlen hreads
  | con hl _ ih =>
    cases hv with
    | con _ has =>
      obtain ⟨hlen, hreads⟩ := reads_renames has hl fun i v V hv hV => ih i v V hv hV hk
      exact .con hlen hreads

/-- **A value of a scope is read back in the larger scope as the weakened term.** -/
theorem Value.Reads.weaken (hS : S.DefinesInScope) {n : Nat} {v : Value} {t : Term}
    (h : v.Reads S n t) (hv : v.InScope S n) : v.Reads S (n + 1) (t.rename Nat.succ) := by
  have hrel : v.Related S (raise n) v := hv.related fun l hl => (if_pos hl).symm
  have hr := h.raised (hS.defines _) (Nat.le_refl n) hrel
  rwa [Nat.sub_self] at hr

end Constructions
