/-
# Conversion is an equivalence on the elements of a type

On values that were never checked, conversion is no equivalence: a function is compared with
another one domain by domain, but with anything else that takes an argument by its body alone.
So two functions with different domains can both be convertible with one variable and not with
each other.

The elements of one type leave no room for that.  Between them conversion decides the equality
of the typing rules, which is an equivalence (`Signature.Element.convert_iff`).
-/

import Constructions.Proofs.Agreement

namespace Constructions

open Plain

namespace Signature

variable {Θ : Theory} {S : Signature} {T : Term} {u v w : Value}

/-- `v` is the value of a closed term that is accepted at the closed type `T`. -/
inductive Element (S : Signature) (T : Term) (v : Value) : Prop where
  | mk {n m k j : Nat} {l : UInt64} {A : Value} {a : Term} :
      Context.checkType n (.empty S) T = .ok l → T.eval S m [] = .ok A →
      Context.check k (.empty S) a A = .ok () → a.eval S j [] = .ok v → Element S T v

/-- **An element has its type by the typing rules.** -/
theorem Element.typed (hΘ : Θ.Models S) (h : S.Element T v) :
    v.All S.valueLeaves ∧ HasType Θ [] (v.plain noLevels) (T.under []) := by
  obtain @⟨n, m, k, j, l, A, a, hT, hA, ha, hv⟩ := h
  have hΓ := Context.Typed.empty hΘ
  obtain ⟨hTall, hTt⟩ := (Context.checkType_post hΓ n T).of_ok hT
  obtain ⟨hAall, hAred⟩ := (hΓ.eval_post hTall hTt m).of_ok hA
  have hAt : A.IsType Θ [] S.valueLeaves noLevels := ⟨hAall, _, hTt.reds hΘ.sound hAred⟩
  obtain ⟨haall, hat⟩ := (Context.check_post hΓ k a hAt).of_ok ha
  obtain ⟨hvall, hvt⟩ := hΘ.eval_closed haall hat hv
  exact ⟨hvall.mono S.leaves_le, hvt.conv hAred.equal.symm⟩

/-- **Between elements of one type conversion decides equality.** -/
theorem Element.convert_iff (hΘ : Θ.Models S) (hu : S.Element T u) (hv : S.Element T v) {n : Nat}
    {p : Bool} (h : u.convert S n 0 v = .ok p) :
    p = true ↔ Θ.Equal (u.plain noLevels) (v.plain noLevels) := by
  obtain ⟨huall, hut⟩ := hu.typed hΘ
  obtain ⟨hvall, hvt⟩ := hv.typed hΘ
  have hd := Value.convert_decides hΘ.sound hΘ.describes (Context.Typed.empty hΘ).scope huall hvall
    hut hvt (.equal (.refl _)) (n := n)
  exact hd.of_ok h

/-- The type of the functions on the natural numbers. -/
def numberMap : Term := .pi none (.former ⟨0⟩ []) (.former ⟨0⟩ [])

/-- **Conversion is an equivalence on the elements of a closed type**, as far as it returns. -/
theorem Reachable.convert_equivalence (h : S.Reachable) (hu : S.Element T u) (hv : S.Element T v)
    (hw : S.Element T w) :
    (∀ n p, u.convert S n 0 u = .ok p → p = true) ∧
    (∀ n m p q, u.convert S n 0 v = .ok p → v.convert S m 0 u = .ok q → p = q) ∧
    ∀ n m k p, u.convert S n 0 v = .ok true → v.convert S m 0 w = .ok true →
      u.convert S k 0 w = .ok p → p = true := by
  obtain ⟨Θ, hΘ⟩ := h.coherent
  refine ⟨fun n p huu => ?_, fun n m p q huv hvu => ?_, fun n m k p huv hvw huw => ?_⟩
  · exact (hu.convert_iff hΘ.models hu huu).2 (.refl _)
  · have hp := hu.convert_iff hΘ.models hv huv
    have hq := hv.convert_iff hΘ.models hu hvu
    have hpq : p = true ↔ q = true := by
      rw [hp, hq]
      exact ⟨.symm, .symm⟩
    exact Bool.eq_iff_iff.2 hpq
  · have huv' := (hu.convert_iff hΘ.models hv huv).1 rfl
    have hvw' := (hv.convert_iff hΘ.models hw hvw).1 rfl
    exact (hu.convert_iff hΘ.models hw huw).2 (huv'.trans hvw')

/-- Without a common type the third part fails: a variable is convertible with the functions that
hand their argument over to it, whatever their domains are. -/
example :
    let f : Value := .var none 0
    let expand (l : UInt64) : Value := .lam (.type l) (.mk [f] none (.app (.var none 1) (.var none 0)))
    (expand 0).convert .empty 9 1 f = .ok true ∧ f.convert .empty 9 1 (expand 1) = .ok true ∧
      (expand 0).convert .empty 9 1 (expand 1) = .ok false :=
  ⟨rfl, rfl, rfl⟩

/-- The successor in three ways: as a function that constructs, as the constructor that waits for
its argument, and as a function that applies the constructor. -/
theorem successor_convert_equivalence :
    naturals.Reachable ∧
    naturals.Element numberMap (.lam (.former ⟨0⟩ []) (.mk [] none (.con ⟨1⟩ [.var none 0]))) ∧
    naturals.Element numberMap (.con ⟨1⟩ []) ∧
    naturals.Element numberMap
      (.lam (.former ⟨0⟩ []) (.mk [] none (.app (.con ⟨1⟩ []) (.var none 0)))) ∧
    ∀ k p, Value.convert naturals k 0
        (.lam (.former ⟨0⟩ []) (.mk [] none (.con ⟨1⟩ [.var none 0])))
        (.lam (.former ⟨0⟩ []) (.mk [] none (.app (.con ⟨1⟩ []) (.var none 0)))) = .ok p →
      p = true := by
  have hu : naturals.Element numberMap
      (.lam (.former ⟨0⟩ []) (.mk [] none (.con ⟨1⟩ [.var none 0]))) :=
    .mk (n := 9) (m := 9) (k := 9) (j := 9)
      (a := .lam none (.former ⟨0⟩ []) (.con ⟨1⟩ [.var none 0])) rfl rfl rfl rfl
  have hv : naturals.Element numberMap (.con ⟨1⟩ []) :=
    .mk (n := 9) (m := 9) (k := 9) (j := 9) (a := .con ⟨1⟩ []) rfl rfl rfl rfl
  have hw : naturals.Element numberMap
      (.lam (.former ⟨0⟩ []) (.mk [] none (.app (.con ⟨1⟩ []) (.var none 0)))) :=
    .mk (n := 9) (m := 9) (k := 9) (j := 9)
      (a := .lam none (.former ⟨0⟩ []) (.app (.con ⟨1⟩ []) (.var none 0))) rfl rfl rfl rfl
  refine ⟨reachable_naturals, hu, hv, hw, fun k p hp => ?_⟩
  exact (reachable_naturals.convert_equivalence hu hv hw).2.2 9 9 k p rfl rfl hp

end Signature

end Constructions
