/-
# Reading terms and values as plain terms

A core term is read as a plain term by forgetting labels and taking argument lists
apart.  A value is read as the plain term it stands for, given what its variables stand
for: a *level map* `ℓ` sends the level of a variable to a plain term.  A closure is read
as its body, with the values of its environment in it.

| value | plain term |
| --- | --- |
| a variable at level `l` | `ℓ l` |
| a closure of `b` in `e` | `b` with `e` below its own variable |
| a former with arguments | the atom applied to the arguments |

Reading commutes with substitution without any condition (`Value.plain_subst`): a
substitution only acts on the level map.

`Leaves` names what may occur in a value: levels, waiting constants, constants in the
bodies of closures, and universes.
-/

import Constructions.Evaluation
import Constructions.Proofs.Plain

namespace Constructions

open Plain

mutual

/-- The plain term of a core term. -/
def Term.plain : Term → Plain
  | .var _ i => .var i
  | .const c => .atom (.const c)
  | .letIn _ A a b => .letIn A.plain a.plain b.plain
  | .type l => .atom (.type l.toNat)
  | .pi _ A B => .pi A.plain B.plain
  | .lam _ A b => .lam A.plain b.plain
  | .app f a => .app f.plain a.plain
  | .former F as => spine (.atom (.former F)) (Term.plains as)
  | .con c as => spine (.atom (.con c)) (Term.plains as)
  | .elim t M ms => Plain.elim M.plain (Term.plains ms) t.plain

/-- The plain terms of core terms. -/
def Term.plains : List Term → List Plain
  | [] => []
  | t :: ts => t.plain :: Term.plains ts

end

mutual

/-- The plain term that a value stands for. -/
def Value.plain (ℓ : Nat → Plain) : Value → Plain
  | .neutral m => m.plain ℓ
  | .type l => .atom (.type l.toNat)
  | .pi d c => .pi (d.plain ℓ) (c.plain ℓ)
  | .lam d c => .lam (d.plain ℓ) (c.plain ℓ)
  | .former F as => spine (.atom (.former F)) (Value.plains ℓ as)
  | .con c as => spine (.atom (.con c)) (Value.plains ℓ as)

/-- The plain term that a neutral value stands for. -/
def Neutral.plain (ℓ : Nat → Plain) : Neutral → Plain
  | .var _ l => ℓ l
  | .const c => .atom (.const c)
  | .app f a => .app (f.plain ℓ) (a.plain ℓ)
  | .elim t M ms => Plain.elim (M.plain ℓ) (Value.plains ℓ ms) (t.plain ℓ)

/-- The plain term that the body of a closure stands for, under the binder. -/
def Closure.plain (ℓ : Nat → Plain) : Closure → Plain
  | .mk env _ body => body.plain.subst (liftSub (ofList (Value.plains ℓ env)))

/-- The plain terms that values stand for. -/
def Value.plains (ℓ : Nat → Plain) : List Value → List Plain
  | [] => []
  | v :: vs => v.plain ℓ :: Value.plains ℓ vs

end

theorem Term.plains_eq_map (ts : List Term) : Term.plains ts = ts.map Term.plain := by
  induction ts with
  | nil => rfl
  | cons t ts ih => rw [Term.plains, ih, List.map_cons]

theorem Value.plains_eq_map (ℓ : Nat → Plain) (vs : List Value) :
    Value.plains ℓ vs = vs.map (Value.plain ℓ) := by
  induction vs with
  | nil => rfl
  | cons v vs ih => rw [Value.plains, ih, List.map_cons]

theorem Value.plains_append (ℓ : Nat → Plain) (vs ws : List Value) :
    Value.plains ℓ (vs ++ ws) = Value.plains ℓ vs ++ Value.plains ℓ ws := by
  rw [plains_eq_map, plains_eq_map, plains_eq_map, List.map_append]

theorem Value.plains_drop (ℓ : Nat → Plain) (k : Nat) (vs : List Value) :
    Value.plains ℓ (vs.drop k) = (Value.plains ℓ vs).drop k := by
  rw [plains_eq_map, plains_eq_map, List.map_drop]

theorem Value.plains_take (ℓ : Nat → Plain) (k : Nat) (vs : List Value) :
    Value.plains ℓ (vs.take k) = (Value.plains ℓ vs).take k := by
  rw [plains_eq_map, plains_eq_map, List.map_take]

theorem Value.getElem?_plains {ℓ : Nat → Plain} {vs : List Value} {i : Nat} {v : Value}
    (h : vs[i]? = some v) : (Value.plains ℓ vs)[i]? = some (v.plain ℓ) := by
  rw [plains_eq_map, List.getElem?_map, h]
  rfl

@[simp] theorem Value.length_plains (ℓ : Nat → Plain) (vs : List Value) :
    (Value.plains ℓ vs).length = vs.length := by
  rw [plains_eq_map, List.length_map]

/-- A core term with the values of an environment in it. -/
def Term.plainIn (ℓ : Nat → Plain) (env : Env) (t : Term) : Plain :=
  t.plain.subst (ofList (Value.plains ℓ env))

/-! ### Substitution -/

mutual

/-- **A substitution acts on a value through its level map.** -/
theorem Value.plain_subst (ℓ : Nat → Plain) (σ : Nat → Plain) :
    ∀ v : Value, (v.plain ℓ).subst σ = v.plain (fun l => (ℓ l).subst σ)
  | .neutral m => Neutral.plain_subst ℓ σ m
  | .type l => rfl
  | .pi d c => by
    rw [Value.plain, subst, Value.plain_subst ℓ σ d, Closure.plain_subst ℓ σ c]
    rfl
  | .lam d c => by
    rw [Value.plain, subst, Value.plain_subst ℓ σ d, Closure.plain_subst ℓ σ c]
    rfl
  | .former F as => by
    rw [Value.plain, subst_spine, Value.plains_subst ℓ σ as]
    rfl
  | .con c as => by
    rw [Value.plain, subst_spine, Value.plains_subst ℓ σ as]
    rfl

theorem Neutral.plain_subst (ℓ : Nat → Plain) (σ : Nat → Plain) :
    ∀ m : Neutral, (m.plain ℓ).subst σ = m.plain (fun l => (ℓ l).subst σ)
  | .var _ l => rfl
  | .const c => rfl
  | .app f a => by
    rw [Neutral.plain, subst, Neutral.plain_subst ℓ σ f, Value.plain_subst ℓ σ a]
    rfl
  | .elim t M ms => by
    rw [Neutral.plain, subst, subst_elimHead, Neutral.plain_subst ℓ σ t,
      Value.plain_subst ℓ σ M, Value.plains_subst ℓ σ ms]
    rfl

theorem Closure.plain_subst (ℓ : Nat → Plain) (σ : Nat → Plain) :
    ∀ c : Closure, (c.plain ℓ).subst (liftSub σ) = c.plain (fun l => (ℓ l).subst σ)
  | .mk env _ body => by
    rw [Closure.plain, subst_subst, subst_subst.lift, Closure.plain, ← Value.plains_subst ℓ σ env]
    congr 2
    funext i
    exact ofList_subst σ _ i

theorem Value.plains_subst (ℓ : Nat → Plain) (σ : Nat → Plain) :
    ∀ vs : List Value,
      (Value.plains ℓ vs).map (subst σ) = Value.plains (fun l => (ℓ l).subst σ) vs
  | [] => rfl
  | v :: vs => by
    rw [Value.plains, List.map_cons, Value.plain_subst ℓ σ v, Value.plains_subst ℓ σ vs]
    rfl

end

end Constructions
