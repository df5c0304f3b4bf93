/-
# Replacing variables is reading back and computing again

A value with variables for all of an environment can be given the values of the environment in
two ways.  It is read back as a term, and the term is computed in the environment; or its
variables are replaced while it is computed (`Value.Becomes`).  Both ways reduce what the value
stands for (`Value.readBack_reds`, `Value.Becomes.reds`), and a plain term has one normal form.
So both results are read back as one term, up to labels (`Value.Becomes.readsAlike`).
-/

import Constructions.Proofs.Reduction.Confluence
import Constructions.Proofs.Scope

namespace Constructions

open Plain

variable {Θ : Theory} {S : Signature} {env : Env} {level : Nat}

/-! ### Values in scope -/

namespace Signature

/-- Leaves of values with variables at the given levels that wait for no constant that has a
definition. -/
def waitingAt (S : Signature) (L : Levels) : Leaves := { S.waiting with level := L }

theorem waiting_le (S : Signature) (L : Levels) : S.waiting.Le (S.waitingAt L) :=
  ⟨fun hl => False.elim hl, fun h => h, fun h => h, fun h => h⟩

theorem waitingAt_le {L L' : Levels} (h : ∀ l, L l → L' l) : (S.waitingAt L).Le (S.waitingAt L') :=
  ⟨fun {l} => h l, fun h => h, fun h => h, fun h => h⟩

theorem waitingAt_closed (hS : S.waiting.Closed S) (L : Levels) : (S.waitingAt L).Closed S :=
  fun c _ => (hS c trivial).mono (S.waiting_le L)

theorem waitingAt_bind (S : Signature) (level : Nat) :
    ((S.waitingAt (.below level)).bind level).Le (S.waitingAt (.below (level + 1))) := by
  refine ⟨?_, fun h => h, fun h => h, fun h => h⟩
  rintro l (hl | rfl)
  · exact Nat.lt_succ_of_lt hl
  · exact Nat.lt_succ_self l

theorem all_waitingAt (S : Signature) (L : Levels) (t : Term) : t.All (S.waitingAt L) :=
  t.all_any.mono (fun _ _ => trivial) fun _ _ => trivial

end Signature

/-- The levels at which an environment has the variable of that level. -/
def Env.fixed (env : Env) : Levels := fun l => ∃ label, env.reverse[l]? = some (.var label l)

theorem Env.fixed_below {l : Nat} (h : Env.fixed env l) : Levels.below env.length l := by
  obtain ⟨label, h⟩ := h
  have hlt := (List.getElem?_eq_some_iff.1 h).1
  rwa [List.length_reverse] at hlt

theorem Env.fixed_cons {l : Nat} (v : Value) (h : Env.fixed env l) : Env.fixed (v :: env) l := by
  have hlt := Env.fixed_below h
  obtain ⟨label, h⟩ := h
  refine ⟨label, ?_⟩
  rw [List.reverse_cons, List.getElem?_append_left (by rwa [List.length_reverse]), h]

theorem Env.fixed_var (label : Label) (env : Env) :
    Env.fixed (.var label env.length :: env) env.length := by
  refine ⟨label, ?_⟩
  rw [List.reverse_cons, List.getElem?_append_right (Nat.le_of_eq List.length_reverse),
    List.length_reverse, Nat.sub_self]
  rfl

/-- An environment has, at a level, a value that stands for the same as `w`. -/
def Env.Gives (env : Env) (l : Nat) (w : Value) : Prop :=
  ∃ v, env.reverse[l]? = some v ∧ ∀ ℓ, v.plain ℓ = w.plain ℓ

section

variable {as args : List Value}

theorem Env.length_arguments (env : Env) (args : List Value) :
    (args.reverse ++ env).length = env.length + args.length := by
  rw [List.length_append, List.length_reverse, Nat.add_comm]

/-- Variables that stand for themselves are kept below arguments. -/
theorem Env.gives_fixed (label : Label) {l : Nat} (h : Env.fixed env l) :
    Env.Gives (args.reverse ++ env) l (.var label l) := by
  have hlt := Env.fixed_below h
  obtain ⟨label', h⟩ := h
  refine ⟨.var label' l, ?_, fun ℓ => rfl⟩
  rw [List.reverse_append, List.getElem?_append_left (by rwa [List.length_reverse]), h]

/-- Arguments take the levels behind the environment. -/
theorem Env.gives_argument (hargs : as <+: args) {i : Nat} {a : Value} (h : as[i]? = some a) :
    Env.Gives (args.reverse ++ env) (env.length + i) a := by
  obtain ⟨bs, rfl⟩ := hargs
  refine ⟨a, ?_, fun ℓ => rfl⟩
  have hle : env.reverse.length ≤ env.length + i := by
    rw [List.length_reverse]
    exact Nat.le_add_right _ _
  rw [List.reverse_append, List.reverse_reverse, List.getElem?_append_right hle,
    List.length_reverse, Nat.add_sub_cancel_left,
    List.getElem?_append_left (List.getElem?_eq_some_iff.1 h).1, h]

end

/-! ### Replacing variables reduces -/

section

variable {σ : Nat → Value → Prop} {ℓ ℓ' : Nat → Plain}

mutual

/-- **Replacing variables reduces,** where each variable stands for what replaces it. -/
theorem Value.Becomes.reds (hS : Θ.Describes S) (hσ : ∀ l w, σ l w → ℓ l = w.plain ℓ') :
    ∀ {v w : Value}, v.Becomes S σ w → Reds Θ (v.plain ℓ) (w.plain ℓ')
  | .neutral _, _, .neutral h => Neutral.Becomes.reds hS hσ h
  | .type _, _, .type _ => .refl
  | .pi _ _, _, .pi hd hc => .pi (Value.Becomes.reds hS hσ hd) (Closure.Becomes.reds hS hσ hc)
  | .lam _ _, _, .lam hd hc => .lam (Value.Becomes.reds hS hσ hd) (Closure.Becomes.reds hS hσ hc)
  | .former _ _, _, .former _ has => .spine .refl (Value.becomes_reds hS hσ has)
  | .con _ _, _, .con _ has => .spine .refl (Value.becomes_reds hS hσ has)

theorem Neutral.Becomes.reds (hS : Θ.Describes S) (hσ : ∀ l w, σ l w → ℓ l = w.plain ℓ') :
    ∀ {m : Neutral} {w : Value}, m.Becomes S σ w → Reds Θ (m.plain ℓ) (w.plain ℓ')
  | .var _ l, w, .var _ h => by
    rw [Neutral.plain, hσ l w h]
  | .const _, _, .const _ => .refl
  | .app _ _, _, .app hf ha hw =>
    (Reds.app (Neutral.Becomes.reds hS hσ hf) (Value.Becomes.reds hS hσ ha)).trans
      (Value.apply_reds hS hw ℓ')
  | .elim _ _ _, _, .elim ht hM hms hw =>
    (Reds.elim (Value.Becomes.reds hS hσ hM) (Value.becomes_reds hS hσ hms)
      (Neutral.Becomes.reds hS hσ ht)).trans (Value.eliminate_reds hS hw ℓ')

theorem Closure.Becomes.reds (hS : Θ.Describes S) (hσ : ∀ l w, σ l w → ℓ l = w.plain ℓ') :
    ∀ {c c' : Closure}, c.Becomes S σ c' → Reds Θ (c.plain ℓ) (c'.plain ℓ')
  | .mk _ _ body, _, .mk _ _ henv => by
    refine Reds.subst_right body.plain fun i => ?_
    cases i with
    | zero => exact .refl
    | succ i => exact (Reds.ofList (Value.becomes_reds hS hσ henv) i).rename _

theorem Value.becomes_reds (hS : Θ.Describes S) (hσ : ∀ l w, σ l w → ℓ l = w.plain ℓ') :
    ∀ {vs ws : List Value}, List.Forall₂ (Value.Becomes S σ) vs ws →
      List.Forall₂ (Reds Θ) (Value.plains ℓ vs) (Value.plains ℓ' ws)
  | [], _, .nil => .nil
  | _ :: _, _, .cons hv hvs =>
    .cons (Value.Becomes.reds hS hσ hv) (Value.becomes_reds hS hσ hvs)

end

end

/-! ### Reading back and computing again -/

/-- Two values are read back as terms that differ in labels only, whenever both are read back. -/
def Value.ReadsAlike (S : Signature) (level : Nat) (v w : Value) : Prop :=
  ∀ n m q r, v.readBack S n level = .ok q → w.readBack S m level = .ok r → q.unlabel = r.unlabel

/-- The normal form of a value, as a plain term in a scope of `level` variables. -/
theorem Value.readBack_plain (hM : Θ.Models S) {n : Nat} {v : Value} {q : Term}
    (hv : v.All (S.waitingAt (.below level))) (h : v.readBack S n level = .ok q) :
    Reds Θ (v.plain fun l => .var (level - (l + 1))) q.plain ∧
      q.Normal fun c => S.definition? c = none := by
  have hclosed := Signature.waitingAt_closed (Signature.waiting_closed hM) (.below level)
  refine ⟨?_, Value.readBack_normal hclosed hv h⟩
  have hreds := Value.readBack_reds (σ := Plain.var) hM.describes hclosed (fun l hl => hl)
    (fun l _ => rfl) hv h
  rwa [subst_var] at hreds

/-- **Replacing variables is reading back and computing again.**  A value with variables for all
of an environment is read back and computed in the environment, and its variables are replaced by
the values of the environment: both results have one normal form. -/
theorem Value.Becomes.readsAlike (hM : Θ.Models S)
    (henv : Value.Alls (S.waitingAt (.below level)) env) {V W X : Value} {n e : Nat} {t : Term}
    (hV : V.All (S.waitingAt (.below env.length))) (hW : W.All (S.waitingAt (.below level)))
    (hVW : V.Becomes S (Env.Gives env) W) (ht : V.readBack S n env.length = .ok t)
    (hX : t.eval S e env = .ok X) : X.ReadsAlike S level W := by
  intro m k q r hq hr
  have hclosed := Signature.waiting_closed hM
  let ℓ : Nat → Plain := fun l => .var (level - (l + 1))
  let ℓV : Nat → Plain := ofList (Value.plains ℓ env.reverse)
  have hread : Reds Θ (V.plain ℓV) (t.plainIn ℓ env) := by
    refine Value.readBack_reds hM.describes (Signature.waitingAt_closed hclosed _)
      (fun l hl => hl) (fun l hl => ?_) hV ht
    show ofList (Value.plains ℓ env) (env.length - (l + 1)) = ofList (Value.plains ℓ env.reverse) l
    rw [ofList, ofList, List.getD_eq_getElem?_getD, List.getD_eq_getElem?_getD,
      Value.plains_eq_map, Value.plains_eq_map, List.getElem?_map, List.getElem?_map,
      List.getElem?_reverse hl, Nat.sub_sub, Nat.add_comm 1 l]
  have hreplace : Reds Θ (V.plain ℓV) (W.plain ℓ) := by
    refine hVW.reds hM.describes fun l w hw => ?_
    obtain ⟨v, hv, e⟩ := hw
    exact (ofList_eq (Value.getElem?_plains hv)).trans (e ℓ)
  have hXall := Term.eval_all (Signature.waitingAt_closed hclosed _) henv (S.all_waitingAt _ t) hX
  obtain ⟨hXq, hqnormal⟩ := Value.readBack_plain hM hXall hq
  obtain ⟨hWr, hrnormal⟩ := Value.readBack_plain hM hW hr
  refine hqnormal.unique (Θ := Θ) (fun c hc => ?_) hrnormal
    (hread.trans ((Term.eval_reds hM.describes hX ℓ).trans hXq)) (hreplace.trans hWr)
  rw [hM.describes.definition c ℓ]
  exact congrArg (Option.map _) hc

end Constructions
