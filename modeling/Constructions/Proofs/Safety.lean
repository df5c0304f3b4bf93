/-
# Type safety

In a signature that declarations reach, inference meets no violation on any term, and a
term that has a type is computed and read back without one.  The result is accepted at the
type that was inferred.

| step on a typed closed term | outcome |
| --- | --- |
| `Term.eval` | a value of the type, or lack of resources |
| `Value.readBack` | a term of the type, or lack of resources |
| `Context.check` of that term | acceptance, or lack of resources |
-/

import Constructions.Proofs.Admission

namespace Constructions

open Plain

variable {Θ : Theory} {S : Signature} {t : Term} {A : Value}

/-! ### Closed terms -/

/-- A closed term has a type, in a signature described by a theory. -/
abbrev Signature.Infers (S : Signature) (Θ : Theory) (t : Term) (A : Value) : Prop :=
  (Context.empty S).Infers Θ [] [] noLevels S.valueLeaves t A

/-- **A typed closed term computes to a value of its type.** -/
theorem Signature.Infers.eval_post (h : Θ.Models S) (ht : S.Infers Θ t A) (n : Nat) :
    Post (t.eval S n []) (fun v => v.All S.leaves ∧
      HasType Θ [] (v.plain noLevels) (A.plain noLevels)) Halt.Resource := by
  refine .intro (fun v e => ?_) fun _ e =>
    ((Context.Typed.empty h).eval_post ht.all ht.typed n).of_error e
  exact h.eval_closed ht.all ht.typed e

/-- **A closed value is read back as a term of its type.** -/
theorem Value.readBack_closed_post (h : Θ.Models S) {v : Value} (hv : v.All S.leaves)
    (hvA : HasType Θ [] (v.plain noLevels) (A.plain noLevels)) (n : Nat) :
    Post (v.readBack S n 0) (fun q => q.All S.leaves ∧
      HasType Θ [] (q.under []) (A.plain noLevels)) Halt.Resource := by
  have hempty := Context.Typed.empty h
  refine .intro (fun q e => ?_) fun _ e =>
    (hempty.quote_safe (hv.mono S.leaves_le) hvA n).of_error e
  refine ⟨Value.readBack_all h.closed hempty.scope.named hv e, hvA.reds h.sound ?_⟩
  exact Value.readBack_reds h.describes h.closed (fun _ hl => hl.elim) (fun _ hl => hl.elim) hv e

theorem Term.All.bounded (h : t.All S.leaves) : t.Bounded := by
  refine Term.All.mono ?_ ?_ h
  · exact fun _ _ => trivial
  · exact fun _ h => h

/-- **A term of a type is accepted at it.** -/
theorem Context.check_of_hasType (h : Θ.Models S) (ht : t.All S.leaves)
    (hA : A.IsType Θ [] S.valueLeaves noLevels) (htA : HasType Θ [] (t.under []) (A.plain noLevels))
    (n : Nat) :
    Context.check n (.empty S) t A = .ok () ∨
      Context.check n (.empty S) t A = .error (.halt .exhausted) ∨
      Context.check n (.empty S) t A = .error (.halt .overflow) := by
  have hpost := Context.check_post (.empty h) n t hA
  cases hr : Context.check n (.empty S) t A with
  | ok u => exact .inl rfl
  | error s =>
    cases s with
    | error e => exact (hpost.of_error hr ⟨ht.bounded, htA⟩).elim
    | halt e =>
      obtain hres | ⟨_, hn⟩ := hpost.of_error hr
      · exact .inr (hres.imp (fun e => by rw [e]) fun e => by rw [e])
      · exact (hn ⟨ht.bounded, htA⟩).elim

/-! ### The natural numbers -/

/-- The signature of the natural numbers, `Nat : Type 0` with `zero` and `succ`. -/
def naturals : Signature where
  entries := [("succ", .constructor ⟨1⟩), ("zero", .constructor ⟨0⟩), ("Nat", .family ⟨0⟩)]
  families := #[⟨⟨0⟩, "Nat", 0, 0, .type 0, .finalized (.build [⟨0⟩, ⟨1⟩])⟩]
  constructors := #[⟨⟨0⟩, "zero", ⟨0⟩, 0, 0, [], .former ⟨0⟩ []⟩,
    ⟨⟨1⟩, "succ", ⟨0⟩, 0, 1, [0], .pi (.former ⟨0⟩ []) ⟨[], none, .former ⟨0⟩ []⟩⟩]

theorem reachable_naturals : naturals.Reachable :=
  .tail (.tail (.tail (.tail .refl (.openFamily 5 "Nat" 0 (.type 0) rfl))
    (.declareConstructor 5 "Nat" "zero" (.former ⟨0⟩ []) rfl))
    (.declareConstructor 9 "Nat" "succ" (.pi none (.former ⟨0⟩ []) (.former ⟨0⟩ [])) rfl))
    (.closeFamily "Nat" rfl)

/-- Twice one, by recursion. -/
def twiceOne : Term :=
  .elim (.con ⟨1⟩ [.con ⟨0⟩ []]) (.lam none (.former ⟨0⟩ []) (.former ⟨0⟩ []))
    [.con ⟨0⟩ [], .lam none (.former ⟨0⟩ []) (.lam none (.former ⟨0⟩ [])
      (.con ⟨1⟩ [.con ⟨1⟩ [.var none 0]]))]

namespace Signature

/-- **Typed terms meet no violation.**  Inference never does, whatever the term is; and if it
finds a type, then neither the computation of the term nor the reading back of its value meets
one, for any fuel: they end with a result or for lack of resources. -/
theorem Reachable.no_violation (h : S.Reachable) (t : Term) :
    (∀ n v, Context.infer n (.empty S) t ≠ .error (.halt (.violation v))) ∧
    ∀ n A, Context.infer n (.empty S) t = .ok A →
      (∀ m e, t.eval S m [] = .error e → e = .exhausted ∨ e = .overflow) ∧
      ∀ m w, t.eval S m [] = .ok w →
        ∀ k e, w.readBack S k 0 = .error e → e = .exhausted ∨ e = .overflow := by
  obtain ⟨Θ, hΘ⟩ := h.coherent
  have hinfer (n : Nat) := Context.infer_post (.empty hΘ.models) n t
  refine ⟨fun n v e => ?_, fun n A hA => ?_⟩
  · obtain (hv | hv) | ⟨hv, _⟩ := (hinfer n).of_error e
    all_goals cases hv
  · have ht : S.Infers Θ t A := (hinfer n).of_ok hA
    refine ⟨fun m e he => (ht.eval_post hΘ.models m).of_error he, fun m w hw k e he => ?_⟩
    obtain ⟨hwall, hwA⟩ := (ht.eval_post hΘ.models m).of_ok hw
    exact (Value.readBack_closed_post hΘ.models hwall hwA k).of_error he

theorem twiceOne_no_violation : naturals.Reachable ∧
    Context.infer 20 (.empty naturals) twiceOne = .ok (.former ⟨0⟩ []) ∧
    ∀ m e, twiceOne.eval naturals m [] = .error e → e = .exhausted ∨ e = .overflow :=
  ⟨reachable_naturals, rfl, ((reachable_naturals.no_violation twiceOne).2 20 _ rfl).1⟩

/-- **A normal form is accepted at the type of the term.**  Checking it may run out of resources,
but it never refuses. -/
theorem Reachable.check_normalize (h : S.Reachable) {t q : Term} {A : Value} {n m : Nat}
    (ht : Context.infer n (.empty S) t = .ok A) (hq : t.normalize S m = .ok q) (k : Nat) :
    Context.check k (.empty S) q A = .ok () ∨
      Context.check k (.empty S) q A = .error (.halt .exhausted) ∨
      Context.check k (.empty S) q A = .error (.halt .overflow) := by
  obtain ⟨Θ, hΘ⟩ := h.coherent
  have hA : S.Infers Θ t A := (Context.infer_post (.empty hΘ.models) n t).of_ok ht
  obtain ⟨v, hv, hq⟩ := bind_eq_ok.1 hq
  obtain ⟨hvall, hvA⟩ := (hA.eval_post hΘ.models m).of_ok hv
  obtain ⟨hqall, hqA⟩ := (Value.readBack_closed_post hΘ.models hvall hvA m).of_ok hq
  exact Context.check_of_hasType hΘ.models hqall hA.type hqA k

theorem twiceOne_check_normalize : naturals.Reachable ∧
    Context.infer 20 (.empty naturals) twiceOne = .ok (.former ⟨0⟩ []) ∧
    twiceOne.normalize naturals 20 = .ok (.con ⟨1⟩ [.con ⟨1⟩ [.con ⟨0⟩ []]]) ∧
    ∀ k, Context.check k (.empty naturals) (.con ⟨1⟩ [.con ⟨1⟩ [.con ⟨0⟩ []]]) (.former ⟨0⟩ []) =
        .ok () ∨
      Context.check k (.empty naturals) (.con ⟨1⟩ [.con ⟨1⟩ [.con ⟨0⟩ []]]) (.former ⟨0⟩ []) =
        .error (.halt .exhausted) ∨
      Context.check k (.empty naturals) (.con ⟨1⟩ [.con ⟨1⟩ [.con ⟨0⟩ []]]) (.former ⟨0⟩ []) =
        .error (.halt .overflow) :=
  ⟨reachable_naturals, rfl, rfl,
    reachable_naturals.check_normalize (t := twiceOne) (n := 20) (m := 20) rfl rfl⟩

end Signature

end Constructions
