/-
# Conversion compares normal forms

Two values of a scope that both can be read back are compared by conversion as the terms that
they are read back as: up to labels, and up to the domain of a function whose body applies
something to its variable (`Term.EtaEqual`).  Conversion always returns on such values, and
returns `true` on exactly those whose normal forms are equal in this sense
(`Signature.Reachable.convert_iff_etaEqual`).

| step of conversion | of equality |
| --- | --- |
| enters two closures at one level | congruence under a binder |
| applies a value to the variable of a function | weakens a term and applies it to the variable |

The second line is where values and terms differ: a value stays as it is when a variable comes
into scope, while a term is renamed.  The value is read back as the renamed term since computing
does not look at levels.
-/

import Constructions.Conversion
import Constructions.Proofs.ReadBack.Weakening

namespace Constructions

namespace Term

/-! ### Equality of normal forms -/

/-- The term waits for a variable or a constant. -/
def IsNeutral : Term → Prop
  | .var _ _ => True
  | .const _ => True
  | .app f _ => f.IsNeutral
  | .elim t _ _ => t.IsNeutral
  | _ => False

/-- The term is no function and takes one more argument: it is neutral, or a former or constructor
with fewer arguments than its arity. -/
def Applicable (S : Signature) : Term → Prop
  | .former F as => ∃ D, S.family? F = some D ∧ as.length < D.arity
  | .con c as => ∃ K, S.constructor? c = some K ∧ as.length < K.arity
  | t => t.IsNeutral

/-- Equality up to labels and eta: the least congruence that does not look at labels and equates a
function with a term that takes one more argument, in either order, if the body of the function
equals the term applied to the variable of the function. -/
inductive EtaEqual (S : Signature) : Term → Term → Prop where
  | var (label label' : Label) (i : Nat) : EtaEqual S (.var label i) (.var label' i)
  | const (c : Name) : EtaEqual S (.const c) (.const c)
  | letIn {label label' : Label} {A A' a a' b b' : Term} : EtaEqual S A A' → EtaEqual S a a' →
      EtaEqual S b b' → EtaEqual S (.letIn label A a b) (.letIn label' A' a' b')
  | type (l : UInt64) : EtaEqual S (.type l) (.type l)
  | pi {label label' : Label} {A A' B B' : Term} : EtaEqual S A A' → EtaEqual S B B' →
      EtaEqual S (.pi label A B) (.pi label' A' B')
  | lam {label label' : Label} {A A' b b' : Term} : EtaEqual S A A' → EtaEqual S b b' →
      EtaEqual S (.lam label A b) (.lam label' A' b')
  | app {f f' a a' : Term} : EtaEqual S f f' → EtaEqual S a a' →
      EtaEqual S (.app f a) (.app f' a')
  | former {F : FamilyId} {as as' : List Term} : List.Forall₂ (EtaEqual S) as as' →
      EtaEqual S (.former F as) (.former F as')
  | con {c : ConstructorId} {as as' : List Term} : List.Forall₂ (EtaEqual S) as as' →
      EtaEqual S (.con c as) (.con c as')
  | elim {t t' M M' : Term} {ms ms' : List Term} : EtaEqual S t t' → EtaEqual S M M' →
      List.Forall₂ (EtaEqual S) ms ms' → EtaEqual S (.elim t M ms) (.elim t' M' ms')
  | etaLeft {label : Label} {A b t : Term} : t.Applicable S →
      EtaEqual S b ((t.rename Nat.succ).apply (.var label 0)) → EtaEqual S (.lam label A b) t
  | etaRight {label : Label} {A b t : Term} : t.Applicable S →
      EtaEqual S b ((t.rename Nat.succ).apply (.var label 0)) → EtaEqual S t (.lam label A b)

/-! ### The weight of a term -/

mutual

/-- The size of a term, where a function weighs more than an application to a variable. -/
def weight : Term → Nat
  | .var _ _ => 1
  | .const _ => 1
  | .letIn _ A a b => 1 + A.weight + a.weight + b.weight
  | .type _ => 1
  | .pi _ A B => 1 + A.weight + B.weight
  | .lam _ A b => 3 + A.weight + b.weight
  | .app f a => 1 + f.weight + a.weight
  | .former _ as => 1 + weights as
  | .con _ as => 1 + weights as
  | .elim t M ms => 1 + t.weight + M.weight + weights ms

/-- The size of a list of terms. -/
def weights : List Term → Nat
  | [] => 0
  | t :: ts => t.weight + weights ts

end

theorem weight_pos (t : Term) : 0 < t.weight := by
  cases t <;> simp only [weight] <;> omega

theorem weights_append (ts us : List Term) : weights (ts ++ us) = weights ts + weights us := by
  induction ts with
  | nil => simp [weights]
  | cons t ts ih => rw [List.cons_append, weights, weights, ih, Nat.add_assoc]

mutual

@[simp] theorem weight_rename (ρ : Nat → Nat) : ∀ t : Term, (t.rename ρ).weight = t.weight
  | .var _ _ => rfl
  | .const _ => rfl
  | .letIn _ A a b => by
    simp only [rename, weight, weight_rename ρ A, weight_rename ρ a, weight_rename _ b]
  | .type _ => rfl
  | .pi _ A B => by simp only [rename, weight, weight_rename ρ A, weight_rename _ B]
  | .lam _ A b => by simp only [rename, weight, weight_rename ρ A, weight_rename _ b]
  | .app f a => by simp only [rename, weight, weight_rename ρ f, weight_rename ρ a]
  | .former _ as => by simp only [rename, weight, weights_renames ρ as]
  | .con _ as => by simp only [rename, weight, weights_renames ρ as]
  | .elim t M ms => by
    simp only [rename, weight, weight_rename ρ t, weight_rename ρ M, weights_renames ρ ms]

theorem weights_renames (ρ : Nat → Nat) : ∀ ts : List Term, weights (renames ρ ts) = weights ts
  | [] => rfl
  | t :: ts => by simp only [renames, weights, weight_rename ρ t, weights_renames ρ ts]

end

/-- An application to a variable weighs less than a function around it. -/
theorem weight_apply_var (t : Term) (label : Label) (i : Nat) :
    (t.apply (.var label i)).weight ≤ t.weight + 2 := by
  cases t <;> simp only [apply, weight, weights_append, weights] <;> omega

end Term

/-! ### Comparisons that return -/

/-- With enough fuel, the comparison returns, and it returns `true` if and only if `P` holds. -/
def Compares (f : Nat → Except Halt Bool) (P : Prop) : Prop := ∃ p, Settles f p ∧ (p = true ↔ P)

namespace Compares

variable {f g : Nat → Except Halt Bool} {P Q : Prop}

theorem of_decide [Decidable P] (h : ∀ m, f (m + 1) = .ok (decide P)) : Compares f P :=
  ⟨decide P, .succ (.of_forall h), decide_eq_true_iff⟩

theorem no (h : ∀ m, f (m + 1) = .ok false) (hP : ¬ P) : Compares f P :=
  ⟨false, .succ (.of_forall h), iff_of_false Bool.false_ne_true hP⟩

theorem succ (h : Compares (fun m => f (m + 1)) P) : Compares f P := by
  obtain ⟨p, hp, hpP⟩ := h
  exact ⟨p, hp.succ, hpP⟩

theorem iff (h : Compares f P) (hPQ : P ↔ Q) : Compares f Q := by
  obtain ⟨p, hp, hpP⟩ := h
  exact ⟨p, hp, hpP.trans hPQ⟩

theorem bind {α : Type} {x : Nat → Except Halt α} {k : Nat → α → Except Halt Bool} {a : α}
    (hx : Settles x a) (hk : Compares (fun m => k m a) P) : Compares (fun m => x m >>= k m) P := by
  obtain ⟨p, hp, hpP⟩ := hk
  exact ⟨p, hx.bind hp, hpP⟩

/-- The second comparison is made only if the first one succeeds. -/
theorem and (hf : Compares f P) (hg : P → Compares g Q) :
    Compares (fun m => do if ← f m then g m else .ok false) (P ∧ Q) := by
  obtain ⟨p, hp, hpP⟩ := hf
  cases p with
  | true =>
    have hP : P := hpP.1 rfl
    exact (bind hp (hg hP)).iff (and_iff_right hP).symm
  | false =>
    have hP : ¬ P := fun hP => Bool.false_ne_true (hpP.2 hP)
    exact ⟨false, hp.bind (.of_forall fun _ => rfl), iff_of_false Bool.false_ne_true fun h => hP h.1⟩

end Compares

/-! ### Values with a normal form -/

variable {S : Signature} {n : Nat}

namespace Value

/-- A value of a scope of `n` variables, and the term that it is read back as. -/
structure HasNormal (S : Signature) (n : Nat) (v : Value) (t : Term) : Prop where
  inScope : v.InScope S n
  reads : v.Reads S n t

theorem allInScope_iff {vs : List Value} :
    Value.AllInScope S n vs ↔ ∀ v ∈ vs, v.InScope S n := by
  induction vs with
  | nil => simp [Value.AllInScope]
  | cons v vs ih => rw [Value.AllInScope, ih, List.forall_mem_cons]

theorem hasNormals_iff {as : List Value} {As : List Term} :
    List.Forall₂ (HasNormal S n) as As ↔ Value.AllInScope S n as ∧ as.length = As.length ∧
      ∀ (i : Nat) (v V), as[i]? = some v → As[i]? = some V → v.Reads S n V := by
  constructor
  · intro h
    refine ⟨allInScope_iff.2 fun v hv => ?_, h.length_eq, fun i v V hv hV => ?_⟩
    · obtain ⟨i, hi⟩ := List.getElem?_of_mem hv
      obtain ⟨V, _, hV⟩ := forall₂_getElem? h hi
      exact hV.inScope
    · obtain ⟨V', hV', hr⟩ := forall₂_getElem? h hv
      cases hV.symm.trans hV'
      exact hr.reads
  · rintro ⟨hscope, hl, hr⟩
    refine List.forall₂_iff_get.2 ⟨hl, fun i hi hi' => ⟨?_, ?_⟩⟩
    · exact allInScope_iff.1 hscope _ (List.get_mem _ _)
    · exact hr i _ _ (List.getElem?_eq_getElem hi) (List.getElem?_eq_getElem hi')

theorem hasNormal_former {F : FamilyId} {as : List Value} {t : Term} :
    (Value.former F as).HasNormal S n t ↔
      ∃ D As, S.family? F = some D ∧ t = .former F As ∧ List.Forall₂ (HasNormal S n) as As := by
  constructor
  · rintro ⟨⟨⟨D, hD⟩, hscope⟩, hreads⟩
    cases hreads with
    | former hl hr => exact ⟨D, _, hD, rfl, hasNormals_iff.2 ⟨hscope, hl, hr⟩⟩
  · rintro ⟨D, As, hD, rfl, has⟩
    obtain ⟨hscope, hl, hr⟩ := hasNormals_iff.1 has
    exact ⟨⟨⟨D, hD⟩, hscope⟩, .former hl hr⟩

theorem hasNormal_con {c : ConstructorId} {as : List Value} {t : Term} :
    (Value.con c as).HasNormal S n t ↔
      ∃ K As, S.constructor? c = some K ∧ t = .con c As ∧ List.Forall₂ (HasNormal S n) as As := by
  constructor
  · rintro ⟨⟨⟨K, hK⟩, hscope⟩, hreads⟩
    cases hreads with
    | con hl hr => exact ⟨K, _, hK, rfl, hasNormals_iff.2 ⟨hscope, hl, hr⟩⟩
  · rintro ⟨K, As, hK, rfl, has⟩
    obtain ⟨hscope, hl, hr⟩ := hasNormals_iff.1 has
    exact ⟨⟨⟨K, hK⟩, hscope⟩, .con hl hr⟩

theorem HasNormal.pi_inv (hS : S.DefinesInScope) {d : Value} {c : Closure} {t : Term}
    (h : (Value.pi d c).HasNormal S n t) :
    ∃ D v B, t = .pi c.label D B ∧ d.HasNormal S n D ∧ Settles (fun m => c.enter S m n) v ∧
      v.HasNormal S (n + 1) B := by
  obtain ⟨⟨hd, hc⟩, hreads⟩ := h
  cases hreads with
  | pi hD hv hB => exact ⟨_, _, _, rfl, ⟨hd, hD⟩, hv, hc.enter hS hv, hB⟩

theorem HasNormal.lam_inv (hS : S.DefinesInScope) {d : Value} {c : Closure} {t : Term}
    (h : (Value.lam d c).HasNormal S n t) :
    ∃ D v B, t = .lam c.label D B ∧ d.HasNormal S n D ∧ Settles (fun m => c.enter S m n) v ∧
      v.HasNormal S (n + 1) B := by
  obtain ⟨⟨hd, hc⟩, hreads⟩ := h
  cases hreads with
  | lam hD hv hB => exact ⟨_, _, _, rfl, ⟨hd, hD⟩, hv, hc.enter hS hv, hB⟩

theorem HasNormal.weaken (hS : S.DefinesInScope) {v : Value} {t : Term} (h : v.HasNormal S n t) :
    v.HasNormal S (n + 1) (t.rename Nat.succ) := by
  refine ⟨?_, h.reads.weaken hS h.inScope⟩
  exact (h.inScope.related (ρ := upTo (n + 1)) fun l hl => ⟨rfl, by omega⟩).inScope
    fun _ _ hl => hl.2

theorem hasNormal_var (label : Label) :
    (Value.var label n).HasNormal S (n + 1) (.var label 0) := by
  have h := Reads.var (S := S) label (Nat.lt_succ_self n)
  rw [Nat.sub_self] at h
  exact ⟨Nat.lt_succ_self n, h⟩

/-- The kinds of values and of their normal forms. -/
inductive Kind where
  | neutral
  | type
  | pi
  | lam
  | former
  | con
  deriving DecidableEq

def kind : Value → Kind
  | .neutral _ => .neutral
  | .type _ => .type
  | .pi _ _ => .pi
  | .lam _ _ => .lam
  | .former _ _ => .former
  | .con _ _ => .con

end Value

namespace Term

/-- The kind of a normal form; local definitions are none. -/
def kind : Term → Option Value.Kind
  | .var _ _ => some .neutral
  | .const _ => some .neutral
  | .letIn _ _ _ _ => none
  | .type _ => some .type
  | .pi _ _ _ => some .pi
  | .lam _ _ _ => some .lam
  | .app _ _ => some .neutral
  | .former _ _ => some .former
  | .con _ _ => some .con
  | .elim _ _ _ => some .neutral

theorem apply_eq_app {t : Term} (h : t.kind = some .neutral) (a : Term) : t.apply a = .app t a := by
  cases t with
  | var | const | app | elim => rfl
  | letIn | type | pi | lam | former | con => cases h

theorem applicable_of_isNeutral : ∀ {t : Term}, t.IsNeutral → t.Applicable S := by
  intro t h
  cases t with
  | var | const | app | elim => exact h
  | letIn | type | pi | lam | former | con => exact h.elim

/-- **Only functions are equal to terms of another kind.** -/
theorem EtaEqual.kind_eq {t u : Term} (h : EtaEqual S t u) (ht : t.kind ≠ some .lam)
    (hu : u.kind ≠ some .lam) : t.kind = u.kind := by
  cases h with
  | etaLeft => exact (ht rfl).elim
  | etaRight => exact (hu rfl).elim
  | var | const | letIn | type | pi | lam | app | former | con | elim => rfl

/-- **A function equals a term of another kind only by eta.** -/
theorem etaEqual_lam_left {label : Label} {A b t : Term} (ht : t.kind ≠ some .lam) :
    EtaEqual S (.lam label A b) t ↔
      t.Applicable S ∧ EtaEqual S b ((t.rename Nat.succ).apply (.var label 0)) := by
  constructor
  · intro h
    cases h with
    | lam => exact (ht rfl).elim
    | etaLeft happ hb => exact ⟨happ, hb⟩
    | etaRight => exact (ht rfl).elim
  · rintro ⟨happ, hb⟩
    exact .etaLeft happ hb

theorem etaEqual_lam_right {label : Label} {A b t : Term} (ht : t.kind ≠ some .lam) :
    EtaEqual S t (.lam label A b) ↔
      t.Applicable S ∧ EtaEqual S b ((t.rename Nat.succ).apply (.var label 0)) := by
  constructor
  · intro h
    cases h with
    | lam => exact (ht rfl).elim
    | etaLeft => exact (ht rfl).elim
    | etaRight happ hb => exact ⟨happ, hb⟩
  · rintro ⟨happ, hb⟩
    exact .etaRight happ hb

end Term

namespace Value

theorem Reads.kind_eq {v : Value} {t : Term} (h : v.Reads S n t) : t.kind = some v.kind := by
  cases h <;> rfl

theorem Reads.isNeutral {v : Value} {t : Term} (h : v.Reads S n t) (hv : v.kind = .neutral) :
    t.IsNeutral := by
  induction h with
  | var | const => trivial
  | app _ _ ihf => exact ihf rfl
  | elim _ _ _ _ iht => exact iht rfl
  | type | pi | lam | former | con => cases hv

/-- **A value that takes one more argument is applied to a new variable.** -/
theorem HasNormal.exists_apply (hS : S.DefinesInScope) {v : Value} {t : Term} (h : v.HasNormal S n t)
    (ht : t.Applicable S) (label : Label) :
    ∃ v', Settles (fun m => v.apply S m (.var label n)) v' ∧
      v'.HasNormal S (n + 1) ((t.rename Nat.succ).apply (.var label 0)) := by
  have hvar := hasNormal_var (S := S) (n := n) label
  have hw := h.weaken hS
  cases v with
  | neutral m =>
    refine ⟨.neutral (.app m (.var label n)), .succ (.of_forall fun _ => rfl), ?_⟩
    rw [Term.apply_eq_app hw.reads.kind_eq]
    exact ⟨⟨hw.inScope, hvar.inScope⟩, .app hw.reads hvar.reads⟩
  | former F as =>
    obtain ⟨D, As, hD, e, has⟩ := hasNormal_former.1 hw
    refine ⟨.former F (as ++ [.var label n]), .succ (.of_forall fun _ => rfl), ?_⟩
    rw [e]
    exact hasNormal_former.2 ⟨D, _, hD, rfl, List.rel_append has (.cons hvar .nil)⟩
  | con c as =>
    obtain ⟨K, As, hK, e, has⟩ := hasNormal_con.1 hw
    refine ⟨.con c (as ++ [.var label n]), .succ (.of_forall fun _ => rfl), ?_⟩
    rw [e]
    exact hasNormal_con.2 ⟨K, _, hK, rfl, List.rel_append has (.cons hvar .nil)⟩
  | type | pi | lam =>
    cases h.reads
    exact ht.elim

/-- **Whether a value takes one more argument is seen from its normal form.** -/
theorem HasNormal.exists_applicable {v : Value} {t : Term} (h : v.HasNormal S n t) :
    ∃ p, v.applicable S = .ok p ∧ (p = true ↔ t.Applicable S) := by
  cases v with
  | neutral m =>
    have ht : t.Applicable S := Term.applicable_of_isNeutral (h.reads.isNeutral rfl)
    exact ⟨true, rfl, iff_of_true rfl ht⟩
  | former F as =>
    obtain ⟨D, As, hD, rfl, has⟩ := hasNormal_former.1 h
    refine ⟨decide (as.length < D.arity), by rw [applicable, hD]; rfl, ?_⟩
    rw [decide_eq_true_iff, has.length_eq]
    constructor
    · exact fun hlt => ⟨D, hD, hlt⟩
    · rintro ⟨D', hD', hlt⟩
      rwa [Option.some.inj (hD.symm.trans hD')]
  | con c as =>
    obtain ⟨K, As, hK, rfl, has⟩ := hasNormal_con.1 h
    refine ⟨decide (as.length < K.arity), by rw [applicable, hK]; rfl, ?_⟩
    rw [decide_eq_true_iff, has.length_eq]
    constructor
    · exact fun hlt => ⟨K, hK, hlt⟩
    · rintro ⟨K', hK', hlt⟩
      rwa [Option.some.inj (hK.symm.trans hK')]
  | type | pi | lam =>
    cases h.reads
    exact ⟨false, rfl, iff_of_false Bool.false_ne_true fun ht => ht⟩

theorem convert_of_kind_ne {l r : Value} (h : l.kind ≠ r.kind) (hl : l.kind ≠ .lam)
    (hr : r.kind ≠ .lam) {m : Nat} : l.convert S (m + 1) n r = .ok false := by
  cases l with
  | lam => exact absurd rfl hl
  | neutral =>
    cases r with
    | neutral => exact absurd rfl h
    | lam => exact absurd rfl hr
    | type | pi | former | con => rfl
  | type =>
    cases r with
    | type => exact absurd rfl h
    | lam => exact absurd rfl hr
    | neutral | pi | former | con => rfl
  | pi =>
    cases r with
    | pi => exact absurd rfl h
    | lam => exact absurd rfl hr
    | neutral | type | former | con => rfl
  | former =>
    cases r with
    | former => exact absurd rfl h
    | lam => exact absurd rfl hr
    | neutral | type | pi | con => rfl
  | con =>
    cases r with
    | con => exact absurd rfl h
    | lam => exact absurd rfl hr
    | neutral | type | pi | former => rfl

end Value

/-! ### One step of conversion -/

/-- Conversion decides equality of normal forms that weigh at most `w` together. -/
structure Decided (S : Signature) (w : Nat) : Prop where
  neutral : ∀ {n : Nat} {l r : Neutral} {tl tr : Term}, (Value.neutral l).HasNormal S n tl →
    (Value.neutral r).HasNormal S n tr → tl.weight + tr.weight ≤ w →
    Compares (fun m => l.convert S m n r) (Term.EtaEqual S tl tr)
  value : ∀ {n : Nat} {l r : Value} {tl tr : Term}, l.HasNormal S n tl → r.HasNormal S n tr →
    tl.weight + tr.weight ≤ w → Compares (fun m => l.convert S m n r) (Term.EtaEqual S tl tr)

namespace Decided

variable {w : Nat} (ih : Decided S w)

include ih

theorem zip {as bs : List Value} {As Bs : List Term}
    (has : List.Forall₂ (Value.HasNormal S n) as As)
    (hbs : List.Forall₂ (Value.HasNormal S n) bs Bs) (hl : as.length = bs.length)
    (hw : Term.weights As + Term.weights Bs ≤ w) :
    Compares (fun m => convertZip (fun a b => Value.convert S m n a b) as bs)
      (List.Forall₂ (Term.EtaEqual S) As Bs) := by
  induction has generalizing bs Bs with
  | nil =>
    cases hbs with
    | nil => exact ⟨true, .of_forall fun _ => rfl, iff_of_true rfl .nil⟩
    | cons => cases hl
  | cons ha _ ihas =>
    cases hbs with
    | nil => cases hl
    | cons hb hbs =>
      simp only [Term.weights] at hw
      rw [List.forall₂_cons]
      exact .and (ih.value ha hb (by omega)) fun _ => ihas hbs (Nat.succ.inj hl) (by omega)

theorem list {as bs : List Value} {As Bs : List Term}
    (has : List.Forall₂ (Value.HasNormal S n) as As)
    (hbs : List.Forall₂ (Value.HasNormal S n) bs Bs)
    (hw : Term.weights As + Term.weights Bs ≤ w) :
    Compares (fun m => convertList (fun a b => Value.convert S m n a b) as bs)
      (List.Forall₂ (Term.EtaEqual S) As Bs) := by
  by_cases hl : as.length = bs.length
  · simp only [convertList, if_pos hl]
    exact ih.zip has hbs hl hw
  · simp only [convertList, if_neg hl]
    refine .no (fun _ => rfl) fun h => hl ?_
    rw [has.length_eq, hbs.length_eq, h.length_eq]

theorem neutral_step {l r : Neutral} {tl tr : Term} (hl : (Value.neutral l).HasNormal S n tl)
    (hr : (Value.neutral r).HasNormal S n tr) (hw : tl.weight + tr.weight ≤ w + 1) :
    Compares (fun m => l.convert S m n r) (Term.EtaEqual S tl tr) := by
  obtain ⟨hls, hlr⟩ := hl
  obtain ⟨hrs, hrr⟩ := hr
  cases hlr with
  | @var _ i label hi =>
    cases hrr with
    | @var _ j label' hj =>
      refine .iff (P := i = j) (.of_decide fun _ => rfl) ⟨?_, fun h => ?_⟩
      · rintro rfl
        exact .var label label' _
      · generalize hx : n - (i + 1) = x at h
        generalize hy : n - (j + 1) = y at h
        cases h
        omega
    | const | app | elim => exact .no (fun _ => rfl) (by rintro ⟨⟩)
  | const _ c =>
    cases hrr with
    | const _ c' =>
      refine .iff (P := c = c') (.of_decide fun _ => rfl) ⟨?_, ?_⟩
      · rintro rfl
        exact .const c
      · rintro ⟨⟩
        rfl
    | var | app | elim => exact .no (fun _ => rfl) (by rintro ⟨⟩)
  | app hf ha =>
    cases hrr with
    | app hf' ha' =>
      simp only [Term.weight] at hw
      refine .succ (.iff (.and (ih.neutral ⟨hls.1, hf⟩ ⟨hrs.1, hf'⟩ (by omega)) fun _ =>
        ih.value ⟨hls.2, ha⟩ ⟨hrs.2, ha'⟩ (by omega)) ⟨?_, ?_⟩)
      · rintro ⟨hf, ha⟩
        exact .app hf ha
      · rintro ⟨⟩
        exact ⟨‹_›, ‹_›⟩
    | var | const | elim => exact .no (fun _ => rfl) (by rintro ⟨⟩)
  | elim ht hm hlen hms =>
    cases hrr with
    | elim ht' hm' hlen' hms' =>
      simp only [Term.weight] at hw
      have hns := Value.hasNormals_iff.2 ⟨hls.2.2, hlen, hms⟩
      have hns' := Value.hasNormals_iff.2 ⟨hrs.2.2, hlen', hms'⟩
      refine .succ (.iff (.and (ih.neutral ⟨hls.1, ht⟩ ⟨hrs.1, ht'⟩ (by omega)) fun _ =>
        .and (ih.value ⟨hls.2.1, hm⟩ ⟨hrs.2.1, hm'⟩ (by omega)) fun _ =>
          ih.list hns hns' (by omega)) ⟨?_, ?_⟩)
      · rintro ⟨ht, hm, hms⟩
        exact .elim ht hm hms
      · rintro ⟨⟩
        exact ⟨‹_›, ‹_›, ‹_›⟩
    | var | const | app => exact .no (fun _ => rfl) (by rintro ⟨⟩)

/-- Two binders: first their domains are compared, and then their bodies for one variable. -/
theorem binder {d d' v v' : Value} {c c' : Closure} {D D' B B' : Term} (hd : d.HasNormal S n D)
    (hd' : d'.HasNormal S n D') (hc : Settles (fun m => c.enter S m n) v)
    (hc' : Settles (fun m => c'.enter S m n) v') (hv : v.HasNormal S (n + 1) B)
    (hv' : v'.HasNormal S (n + 1) B')
    (hw : D.weight + B.weight + (D'.weight + B'.weight) ≤ w) :
    Compares (fun m => do
      if ← d.convert S m n d' then
        let v ← c.enter S m n
        let v' ← c'.enter S m n
        v.convert S m (n + 1) v'
      else .ok false) (Term.EtaEqual S D D' ∧ Term.EtaEqual S B B') :=
  .and (ih.value hd hd' (by omega)) fun _ => .bind hc (.bind hc' (ih.value hv hv' (by omega)))

/-- A function and a value of another kind: both are applied to the variable of the function. -/
theorem eta (hS : S.DefinesInScope) {r v : Value} {c : Closure} {tr B : Term}
    (hr : r.HasNormal S n tr) (hc : Settles (fun m => c.enter S m n) v)
    (hv : v.HasNormal S (n + 1) B) (hw : B.weight + tr.weight + 2 ≤ w) :
    Compares (fun m => do
      if ← r.applicable S then
        let v ← c.enter S m n
        let v' ← r.apply S m (c.parameter n)
        v.convert S m (n + 1) v'
      else .ok false)
      (tr.Applicable S ∧
        Term.EtaEqual S B ((tr.rename Nat.succ).apply (.var c.label 0))) := by
  obtain ⟨p, hp, hpr⟩ := hr.exists_applicable
  refine .and ⟨p, .of_forall fun _ => hp, hpr⟩ fun happ => ?_
  obtain ⟨v', hv', hn⟩ := hr.exists_apply hS happ c.label
  have hweight := Term.weight_apply_var (tr.rename Nat.succ) c.label 0
  rw [Term.weight_rename] at hweight
  exact .bind hc (.bind hv' (ih.value hv hn (by omega)))

theorem lam_right (hS : S.DefinesInScope) {l d : Value} {c : Closure} {tl tr : Term}
    (hl : l.HasNormal S n tl) (hlam : l.kind ≠ .lam) (hr : (Value.lam d c).HasNormal S n tr)
    (hw : tl.weight + tr.weight ≤ w + 1) :
    Compares (fun m => l.convert S m n (.lam d c)) (Term.EtaEqual S tl tr) := by
  obtain ⟨D, v, B, rfl, hd, hc, hv⟩ := hr.lam_inv hS
  simp only [Term.weight] at hw
  have hkind : tl.kind ≠ some .lam := by
    rw [hl.reads.kind_eq]
    exact fun h => hlam (Option.some.inj h)
  have heta := (ih.eta hS hl hc hv (by omega)).iff
    (Term.etaEqual_lam_right (A := D) hkind).symm
  cases l with
  | lam => exact (hlam rfl).elim
  | neutral | type | pi | former | con => exact .succ heta

theorem lam_left (hS : S.DefinesInScope) {r d : Value} {c : Closure} {tl tr : Term}
    (hl : (Value.lam d c).HasNormal S n tl) (hr : r.HasNormal S n tr) (hlam : r.kind ≠ .lam)
    (hw : tl.weight + tr.weight ≤ w + 1) :
    Compares (fun m => (Value.lam d c).convert S m n r) (Term.EtaEqual S tl tr) := by
  obtain ⟨D, v, B, rfl, hd, hc, hv⟩ := hl.lam_inv hS
  simp only [Term.weight] at hw
  have hkind : tr.kind ≠ some .lam := by
    rw [hr.reads.kind_eq]
    exact fun h => hlam (Option.some.inj h)
  have heta := (ih.eta hS hr hc hv (by omega)).iff
    (Term.etaEqual_lam_left (A := D) hkind).symm
  cases r with
  | lam => exact (hlam rfl).elim
  | neutral | type | pi | former | con => exact .succ heta

theorem lam_lam (hS : S.DefinesInScope) {d d' : Value} {c c' : Closure} {tl tr : Term}
    (hl : (Value.lam d c).HasNormal S n tl) (hr : (Value.lam d' c').HasNormal S n tr)
    (hw : tl.weight + tr.weight ≤ w + 1) :
    Compares (fun m => (Value.lam d c).convert S m n (.lam d' c')) (Term.EtaEqual S tl tr) := by
  obtain ⟨D, v, B, rfl, hd, hc, hv⟩ := hl.lam_inv hS
  obtain ⟨D', v', B', rfl, hd', hc', hv'⟩ := hr.lam_inv hS
  simp only [Term.weight] at hw
  refine .succ (.iff (ih.binder hd hd' hc hc' hv hv' (by omega)) ⟨?_, fun h => ?_⟩)
  · rintro ⟨hD, hB⟩
    exact .lam hD hB
  · cases h with
    | lam hD hB => exact ⟨hD, hB⟩
    | etaLeft happ => exact happ.elim
    | etaRight happ => exact happ.elim

/-- Two values of one kind, but not two functions. -/
theorem same_kind (hS : S.DefinesInScope) {l r : Value} {tl tr : Term} (hl : l.HasNormal S n tl)
    (hr : r.HasNormal S n tr) (hk : l.kind = r.kind) (hlam : l.kind ≠ .lam)
    (hw : tl.weight + tr.weight ≤ w + 1) :
    Compares (fun m => l.convert S m n r) (Term.EtaEqual S tl tr) := by
  cases l with
  | lam => exact (hlam rfl).elim
  | neutral m =>
    cases r with
    | neutral m' => exact .succ (ih.neutral_step hl hr hw)
    | type | pi | lam | former | con => cases hk
  | type a =>
    cases r with
    | type b =>
      cases hl.reads
      cases hr.reads
      refine .iff (P := a = b) (.of_decide fun _ => rfl) ⟨?_, ?_⟩
      · rintro rfl
        exact .type a
      · rintro ⟨⟩
        rfl
    | neutral | pi | lam | former | con => cases hk
  | pi d c =>
    cases r with
    | pi d' c' =>
      obtain ⟨D, v, B, rfl, hd, hc, hv⟩ := hl.pi_inv hS
      obtain ⟨D', v', B', rfl, hd', hc', hv'⟩ := hr.pi_inv hS
      simp only [Term.weight] at hw
      refine .succ (.iff (ih.binder hd hd' hc hc' hv hv' (by omega)) ⟨?_, ?_⟩)
      · rintro ⟨hD, hB⟩
        exact .pi hD hB
      · rintro ⟨⟩
        exact ⟨‹_›, ‹_›⟩
    | neutral | type | lam | former | con => cases hk
  | former F as =>
    cases r with
    | former F' as' =>
      obtain ⟨_, As, _, rfl, has⟩ := Value.hasNormal_former.1 hl
      obtain ⟨_, As', _, rfl, has'⟩ := Value.hasNormal_former.1 hr
      simp only [Term.weight] at hw
      by_cases hF : F = F'
      · subst hF
        refine .succ ?_
        simp only [Value.convert, if_pos]
        refine (ih.list has has' (by omega)).iff ⟨.former, ?_⟩
        rintro ⟨⟩
        assumption
      · refine .no (fun m => by rw [Value.convert, if_neg hF]) ?_
        rintro ⟨⟩
        exact hF rfl
    | neutral | type | pi | lam | con => cases hk
  | con c as =>
    cases r with
    | con c' as' =>
      obtain ⟨_, As, _, rfl, has⟩ := Value.hasNormal_con.1 hl
      obtain ⟨_, As', _, rfl, has'⟩ := Value.hasNormal_con.1 hr
      simp only [Term.weight] at hw
      by_cases hc : c = c'
      · subst hc
        refine .succ ?_
        simp only [Value.convert, if_pos]
        refine (ih.list has has' (by omega)).iff ⟨.con, ?_⟩
        rintro ⟨⟩
        assumption
      · refine .no (fun m => by rw [Value.convert, if_neg hc]) ?_
        rintro ⟨⟩
        exact hc rfl
    | neutral | type | pi | lam | former => cases hk

theorem value_step (hS : S.DefinesInScope) {l r : Value} {tl tr : Term} (hl : l.HasNormal S n tl)
    (hr : r.HasNormal S n tr) (hw : tl.weight + tr.weight ≤ w + 1) :
    Compares (fun m => l.convert S m n r) (Term.EtaEqual S tl tr) := by
  by_cases hkl : l.kind = .lam
  · cases l with
    | lam d c =>
      by_cases hkr : r.kind = .lam
      · cases r with
        | lam d' c' => exact ih.lam_lam hS hl hr hw
        | neutral | type | pi | former | con => cases hkr
      · exact ih.lam_left hS hl hr hkr hw
    | neutral | type | pi | former | con => cases hkl
  by_cases hkr : r.kind = .lam
  · cases r with
    | lam d' c' => exact ih.lam_right hS hl hkl hr hw
    | neutral | type | pi | former | con => cases hkr
  by_cases hk : l.kind = r.kind
  · exact ih.same_kind hS hl hr hk hkl hw
  · refine .no (fun m => Value.convert_of_kind_ne hk hkl hkr) fun h => hk ?_
    have htl := hl.reads.kind_eq
    have htr := hr.reads.kind_eq
    have hkind := h.kind_eq (by simpa [htl] using hkl) (by simpa [htr] using hkr)
    rw [htl, htr] at hkind
    exact Option.some.inj hkind

end Decided

/-- **Conversion decides equality of normal forms of any weight.** -/
theorem decided (hS : S.DefinesInScope) (w : Nat) : Decided S w := by
  induction w with
  | zero =>
    refine ⟨fun {n l r tl tr} _ _ hw => ?_, fun {n l r tl tr} _ _ hw => ?_⟩
    all_goals
      have hpos := tl.weight_pos
      omega
  | succ w ih => exact ⟨ih.neutral_step, ih.value_step hS⟩

/-- **Conversion decides equality of normal forms up to labels and eta.**  Two values of a scope
that are read back in it are compared: conversion returns with enough fuel, and it returns `true`
if and only if the terms are equal. -/
theorem Signature.Reachable.convert_iff_etaEqual (h : S.Reachable) {l r : Value}
    (hl : l.InScope S n) (hr : r.InScope S n) {k k' : Nat} {tl tr : Term}
    (htl : l.readBack S k n = .ok tl) (htr : r.readBack S k' n = .ok tr) :
    ∃ N p, (∀ m, N ≤ m → l.convert S m n r = .ok p) ∧ (p = true ↔ Term.EtaEqual S tl tr) := by
  have hnl : l.HasNormal S n tl := ⟨hl, (reads_of_readBack k).1 htl⟩
  have hnr : r.HasNormal S n tr := ⟨hr, (reads_of_readBack k').1 htr⟩
  have hdecided := decided h.definesInScope (tl.weight + tr.weight)
  obtain ⟨p, ⟨N, hN⟩, hp⟩ := hdecided.value hnl hnr (Nat.le_refl _)
  exact ⟨N, p, hN, hp⟩

/-- A variable applied to a function whose closure keeps the variable at level 1. -/
def captor : Value :=
  .neutral (.app (.var none 0) (.lam (.type 0) (.mk [.var none 1] none (.var none 1))))

/-- The function that hands its argument over to the same variable, applied to the function that
returns this argument. -/
def returner : Value :=
  .lam (.type 0) (.mk [.var none 0] none
    (.app (.app (.var none 1) (.lam none (.type 0) (.var none 1))) (.var none 0)))

/-- **The variables in the environment of a closure count for the scope.**  The variable that
`captor` keeps is not in a scope of one variable: it is read back as the variable of the closure's
own binder, but it is compared as the variable that `returner` binds.  So the two values are read
back and convert, and their normal forms differ. -/
theorem captured_convert_not_etaEqual :
    Signature.empty.Reachable ∧ ¬ captor.InScope .empty 1 ∧
    captor.readBack .empty 9 1 = .ok (.app (.var none 0) (.lam none (.type 0) (.var none 0))) ∧
    returner.readBack .empty 9 1 = .ok (.lam none (.type 0)
      (.app (.app (.var none 1) (.lam none (.type 0) (.var none 1))) (.var none 0))) ∧
    returner.convert .empty 9 1 captor = .ok true ∧
    ¬ Term.EtaEqual .empty
      (.lam none (.type 0)
        (.app (.app (.var none 1) (.lam none (.type 0) (.var none 1))) (.var none 0)))
      (.app (.var none 0) (.lam none (.type 0) (.var none 0))) := by
  refine ⟨.refl, fun h => absurd h.2.2.1.1 (Nat.lt_irrefl 1), rfl, rfl, rfl, fun h => ?_⟩
  cases h with
  | etaLeft _ h =>
    cases h with
    | app h _ =>
      cases h with
      | app _ h =>
        cases h with
        | lam _ h => cases h
        | etaLeft happ => exact happ.elim
        | etaRight happ => exact happ.elim

/-- A function variable on the numbers, and the function that hands its argument over to it. -/
theorem expanded_convert_iff_etaEqual :
    let x : Value := .var (some "f") 0
    let l : Value := .lam (.former ⟨0⟩ [])
      (.mk [x] (some "n") (.app (.var (some "f") 1) (.var (some "n") 0)))
    let tl : Term := .lam (some "n") (.former ⟨0⟩ []) (.app (.var (some "f") 1) (.var (some "n") 0))
    naturals.Reachable ∧ l.InScope naturals 1 ∧ x.InScope naturals 1 ∧
    l.readBack naturals 9 1 = .ok tl ∧ x.readBack naturals 9 1 = .ok (.var (some "f") 0) ∧
    Term.EtaEqual naturals tl (.var (some "f") 0) ∧
    ∃ N, ∀ m, N ≤ m → l.convert naturals m 1 x = .ok true := by
  intro x l tl
  have hl : l.InScope naturals 1 :=
    ⟨⟨⟨_, rfl⟩, trivial⟩, ⟨Nat.zero_lt_one, trivial⟩, trivial, trivial⟩
  have hx : x.InScope naturals 1 := Nat.zero_lt_one
  have heq : Term.EtaEqual naturals tl (.var (some "f") 0) :=
    .etaLeft trivial (.app (.var _ _ 1) (.var _ _ 0))
  have htl : l.readBack naturals 9 1 = .ok tl := rfl
  have htx : x.readBack naturals 9 1 = .ok (.var (some "f") 0) := rfl
  obtain ⟨N, p, hN, hp⟩ := reachable_naturals.convert_iff_etaEqual hl hx htl htx
  obtain rfl := hp.2 heq
  exact ⟨reachable_naturals, hl, hx, htl, htx, heq, N, hN⟩

end Constructions
