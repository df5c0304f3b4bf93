/-
# Normalization is reduction

A term is normalized by computing it in an environment and reading its value back.  The
rules of `Term.Step` know neither environments nor values.  For every run of declarations,
so in every reachable signature (`Signature.reachable_iff_run`), and for every term, typed or
not, the normal form is nevertheless reached by these rules, up to the labels of variables, and
none of them applies to it (`Signature.run_normalize_reduces`).

| part | where |
| --- | --- |
| computing and reading back take steps | `Term.eval_steps`, `Value.readBack_steps` |
| a signature stores values, but constants unfold to terms | `Signature.Traces` |
| no step is left | `Term.Normal` |

A constant is unfolded to the term it was declared with, which no table of the signature
holds.  It is taken from the run (`Signature.declaredWith`), and every declaration keeps that
it steps to the value in the table (`Signature.Traces.after`).
-/

import Constructions.Proofs.Reduction.Evaluation
import Constructions.Proofs.Reduction.Normal
import Constructions.Proofs.Registry.Runs
import Constructions.Proofs.Safety

namespace Constructions

namespace Signature

/-! ### What constants were declared with -/

/-- What constants were declared with, after a request. -/
def note (S : Signature) (n : Nat) (δ : Name → Option Term) (r : Request) : Name → Option Term :=
  match S.answer n r, r with
  | .ok _, .define name _ value => fun c => if c = name then some value else δ c
  | _, _ => δ

/-- What constants were declared with, after requests. -/
def notes (S : Signature) (δ : Name → Option Term) : List (Nat × Request) → Name → Option Term
  | [] => δ
  | r :: rs => (S.after r.1 r.2).notes (S.note r.1 δ r.2) rs

/-- What constants were declared with, in a run of declarations. -/
def declaredWith (rs : List (Nat × Request)) : Name → Option Term := empty.notes (fun _ => none) rs

/-- What constants were declared with steps to what they are defined as. -/
structure Traces (S : Signature) (δ : Name → Option Term) : Prop where
  unfolds : S.Unfolds δ
  undefined : ∀ {c}, S.definition? c = none → δ c = none

variable {S S' : Signature} {δ : Name → Option Term} {Θ : Theory}

theorem traces_empty : empty.Traces fun _ => none := ⟨fun h => (nomatch h), fun _ => rfl⟩

theorem definition?_addGlobal {name : Name} {g : Global} (c : Name) :
    (S.addGlobal name g).definition? c = if c = name then g.definition else S.definition? c := by
  rw [definition?, global?_addGlobal]
  split <;> rfl

theorem Coherent.definition?_eq_none (h : S.Coherent Θ) {name : Name}
    (hname : S.entry? name = none) : S.definition? name = none := by
  cases hg : S.global? name with
  | none => rw [definition?, hg, Option.bind_none]
  | some g => exact (h.entry hg hname).elim

namespace Traces

/-- Declarations that define nothing change nothing. -/
theorem mono (h : S.Traces δ) (hle : S.Le S')
    (hdef : ∀ c, S'.definition? c = S.definition? c) : S'.Traces δ where
  unfolds {c v} hv := by
    obtain ⟨a, ha, hreach⟩ := h.unfolds (hdef c ▸ hv)
    exact ⟨a, ha, fun k => (hreach k).mono hle fun h => h⟩
  undefined {c} hc := h.undefined (hdef c ▸ hc)

/-- **A definition is traced to the term it is declared with.** -/
theorem define (h : S.Traces δ) (hS : S.Reachable) {n : Nat} {name : Name} {type value : Term}
    (e : S.define n name type value = .ok S') :
    S'.Traces fun c => if c = name then some value else δ c := by
  obtain ⟨Θ, hΘ⟩ := hS.coherent
  have hle := (Step.define n name type value e).le hΘ
  obtain ⟨A, v, hname, hA, hc, hv, rfl⟩ := define_eq_ok e
  have hfresh : δ name = none := h.undefined (hΘ.definition?_eq_none hname)
  have hkeep {c : Name} {a : Term} (ha : δ c = some a) :
      (if c = name then some value else δ c) = some a := by
    rw [if_neg, ha]
    rintro rfl
    cases hfresh.symm.trans ha
  refine ⟨fun {c w} hw => ?_, fun {c} hw => ?_⟩
  · rw [definition?_addGlobal] at hw
    by_cases hcn : c = name
    · rw [if_pos hcn] at hw
      cases hw
      exact ⟨value, if_pos hcn, fun k => (Term.eval_nil_steps h.unfolds hv).mono hle hkeep⟩
    · rw [if_neg hcn] at hw
      obtain ⟨a, ha, hreach⟩ := h.unfolds hw
      exact ⟨a, hkeep ha, fun k => (hreach k).mono hle hkeep⟩
  · rw [definition?_addGlobal] at hw
    by_cases hcn : c = name
    · rw [if_pos hcn] at hw
      cases hw
    · rw [if_neg hcn] at hw
      rw [if_neg hcn]
      exact h.undefined hw

/-- **A request keeps the traces**, whether it is admitted or refused. -/
theorem after (h : S.Traces δ) (hS : S.Reachable) (n : Nat) (r : Request) :
    (S.after n r).Traces (S.note n δ r) := by
  obtain ⟨Θ, hΘ⟩ := hS.coherent
  rw [after_eq]
  unfold note
  cases hr : S.answer n r with
  | error e => exact h
  | ok S' =>
    have hle := (answer_step hr).le hΘ
    cases r with
    | define name type value => exact h.define hS hr
    | postulate name type =>
      obtain ⟨A, hname, _, rfl⟩ := postulate_eq_ok hr
      refine h.mono hle fun c => ?_
      rw [definition?_addGlobal]
      by_cases hc : c = name
      · rw [if_pos hc, hc, hΘ.definition?_eq_none hname]
      · rw [if_neg hc]
    | openFamily name p type =>
      obtain ⟨⟨S₁, id⟩, e, hr⟩ := bind_eq_ok.1 hr
      cases hr
      obtain ⟨A, T, l, _, _, _, _, _, rfl⟩ := openFamily_eq_ok e
      exact h.mono hle fun _ => rfl
    | declareConstructor family name type =>
      obtain ⟨⟨S₁, id⟩, e, hr⟩ := bind_eq_ok.1 hr
      cases hr
      obtain ⟨id, F, A, P, E, T, r, _, _, rfl⟩ := declareConstructor_eq_ok e
      exact h.mono hle fun _ => rfl
    | closeFamily family =>
      obtain ⟨⟨S₁, id⟩, e, hr⟩ := bind_eq_ok.1 hr
      cases hr
      obtain ⟨id, F, _, _, _, rfl⟩ := closeFamily_eq_ok e
      exact h.mono hle fun _ => rfl

/-- **A run keeps the traces.** -/
theorem run (h : S.Traces δ) (hS : S.Reachable) (rs : List (Nat × Request)) :
    (S.run rs).Traces (S.notes δ rs) := by
  induction rs generalizing S δ with
  | nil => exact h
  | cons r rs ih =>
    have hafter : (S.after r.1 r.2).Reachable := by
      obtain e | e := S.after_eq_or_step r.1 r.2
      · rwa [e]
      · exact hS.tail e
    exact ih (h.after hS r.1 r.2) hafter

end Traces

/-! ### Normal forms -/

/-- Leaves of the values of closed terms, typed or not: no variables, and no constant that has
a definition waits for anything. -/
def waiting (S : Signature) : Leaves :=
  ⟨fun _ => False, fun c => S.definition? c = none, fun _ => True, fun _ => True⟩

theorem leaves_le_waiting (S : Signature) : S.leaves.Le S.waiting := by
  refine ⟨fun h => h, ?_, fun _ => trivial, fun _ => trivial⟩
  rintro c ⟨g, hg, hd⟩
  show S.definition? c = none
  rw [definition?, hg, Option.bind_some, hd]

theorem waiting_closed (hΘ : Θ.Models S) : S.waiting.Closed S := by
  intro c _
  cases hc : S.definition? c with
  | none =>
    rw [unfold, ← definition?, hc]
    exact hc
  | some v =>
    rw [unfold, ← definition?, hc]
    obtain ⟨g, hg, hd⟩ := Option.bind_eq_some_iff.1 hc
    exact (hΘ.grounded.definition hg hd).mono S.leaves_le_waiting

theorem all_waiting (S : Signature) (t : Term) : t.All S.waiting :=
  t.all_any.mono (fun _ _ => trivial) fun _ _ => trivial

/-- **Normal forms are reached by the rules of computation, and are final.**  After any run of
declarations, a term steps to its normal form, up to the labels of variables, and no step can be
taken in the normal form.  The term need not be typed. -/
theorem run_normalize_reduces (rs : List (Nat × Request)) {t q : Term} {n : Nat}
    (hq : t.normalize (empty.run rs) n = .ok q) :
    (∃ q', Term.Steps (empty.run rs) (declaredWith rs) t q' ∧ q'.unlabelVars = q.unlabelVars) ∧
      ∀ u, ¬ Term.Step (empty.run rs) (declaredWith rs) q u := by
  have hS : (empty.run rs).Reachable := steps_run empty rs
  have hδ : (empty.run rs).Traces (declaredWith rs) := traces_empty.run .refl rs
  obtain ⟨Θ, hΘ⟩ := hS.coherent
  obtain ⟨v, hv, hq⟩ := bind_eq_ok.1 hq
  have hclosed := waiting_closed hΘ.models
  have hall : v.All (empty.run rs).waiting := Term.eval_all hclosed .nil (all_waiting _ t) hv
  refine ⟨?_, (Value.readBack_normal hclosed hall hq).not_step fun _ hc => hδ.undefined hc⟩
  -- What the value denotes is reached first, then what is read back from it.
  obtain ⟨u, hu, hvu⟩ := Term.eval_nil_steps hδ.unfolds hv
  exact Term.Ends.of_steps hu (Value.readBack_steps hδ.unfolds hvu hq)

/-- The natural numbers, and a constant that is defined as twice one. -/
def two : List (Nat × Request) :=
  [(5, .openFamily "Nat" 0 (.type 0)), (5, .declareConstructor "Nat" "zero" (.former ⟨0⟩ [])),
    (9, .declareConstructor "Nat" "succ" (.pi none (.former ⟨0⟩ []) (.former ⟨0⟩ []))),
    (0, .closeFamily "Nat"), (20, .define "two" (.former ⟨0⟩ []) twiceOne)]

/-- The function that adds the constant to its argument.  The variable is not labelled as its
binder. -/
def plusTwo : Term :=
  .lam (some "n") (.former ⟨0⟩ []) <|
    .elim (.const "two") (.lam none (.former ⟨0⟩ []) (.former ⟨0⟩ []))
      [.var none 0, .lam (some "m") (.former ⟨0⟩ []) (.lam (some "r") (.former ⟨0⟩ [])
        (.app (.con ⟨1⟩ []) (.var (some "r") 0)))]

/-- The binder keeps its label, and the variable takes it over. -/
theorem two_normalize_reduces :
    declaredWith two "two" = some twiceOne ∧
    plusTwo.normalize (empty.run two) 30 =
      .ok (.lam (some "n") (.former ⟨0⟩ []) (.con ⟨1⟩ [.con ⟨1⟩ [.var (some "n") 0]])) ∧
    (∃ q', Term.Steps (empty.run two) (declaredWith two) plusTwo q' ∧
      q'.unlabelVars = .lam (some "n") (.former ⟨0⟩ []) (.con ⟨1⟩ [.con ⟨1⟩ [.var none 0]])) ∧
    ∀ u, ¬ Term.Step (empty.run two) (declaredWith two)
      (.lam (some "n") (.former ⟨0⟩ []) (.con ⟨1⟩ [.con ⟨1⟩ [.var (some "n") 0]])) u := by
  have hnormal : plusTwo.normalize (empty.run two) 30 =
      .ok (.lam (some "n") (.former ⟨0⟩ []) (.con ⟨1⟩ [.con ⟨1⟩ [.var (some "n") 0]])) := rfl
  exact ⟨rfl, hnormal, run_normalize_reduces two hnormal⟩

end Signature

end Constructions
