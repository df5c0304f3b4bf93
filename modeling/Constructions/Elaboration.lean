/-
# Elaboration

An expression is turned into a core term together with its type.  Names are
resolved, the innermost binder first and then the signature, and the types that
the source leaves out are filled in: the domain of a function from the expected
type, the type of a local definition from its argument, the domains of a motive
from the family that is eliminated.

| expression | without an expected type | with one |
| --- | --- | --- |
| `\|x\| b` | refused, except as a motive | `b` at the codomain |
| `\|x : A\| b` | `b` is synthesized | `A` has to be the domain, then `b` at the codomain |
| `let` | its body is synthesized | its body at the type |
| any other | synthesized | synthesized and compared |

The term that comes out of a closed expression is checked once more.
-/

import Constructions.Elaboration.Error
import Constructions.Expression
import Constructions.Typing

namespace Constructions

namespace Context

/-- A function over `domain` with the given way to elaborate its body, and its type. -/
def abstraction (Γ : Context) (n : Nat) (label : Label) (domain : Value)
    (body : Context → Elaborate (Term × Value)) : Elaborate (Term × Value) := do
  let d ← Γ.quote n domain
  let (b, type) ← body (Γ.bind label domain)
  let codomain ← (Γ.bind label domain).quote n type
  .ok (.lam label d b, .pi domain (.mk Γ.env label codomain))

mutual

/-- Elaborates an expression, against a type if one is expected. -/
def elaborate : Nat → Context → Expression → Option Value → Elaborate (Term × Value)
  | 0, _, _, _ => .error (.halt .exhausted)
  | n + 1, Γ, e, expected =>
    match e, expected with
    | .var span name, none =>
      match Γ.lookup? name with
      | some (index, type) => .ok (.var (some name) index, type)
      | none =>
        match Γ.lookupGlobal? name with
        | some found => .ok found
        | none => (ElaborationCause.notInScope name).throwAt span
    | .letIn _ label argument body, expected => do
      let (a, type) ← elaborate n Γ argument none
      let annotation ← Γ.quote n type
      let value ← Γ.eval n a
      let (b, bodyType) ← elaborate n (Γ.define label.value type value) body expected
      .ok (.letIn label.value annotation a b, bodyType)
    | .typedLet _ label annotation argument body, expected => do
      let (t, _) ← elaborateType n Γ annotation
      let type ← Γ.eval n t
      let (a, _) ← elaborate n Γ argument (some type)
      let value ← Γ.eval n a
      let (b, bodyType) ← elaborate n (Γ.define label.value type value) body expected
      .ok (.letIn label.value t a b, bodyType)
    | .ascribe _ term annotation, none => do
      let (t, _) ← elaborateType n Γ annotation
      let type ← Γ.eval n t
      let (a, _) ← elaborate n Γ term (some type)
      .ok (a, type)
    | .type span level, none =>
      match nextLevel? level with
      | some next => .ok (.type level, .type next)
      | none => (ElaborationCause.kernel (.type (.universeOverflow level))).throwAt span
    | .pi _ label domain codomain, none => do
      let (d, l) ← elaborateType n Γ domain
      let v ← Γ.eval n d
      let (b, m) ← elaborateType n (Γ.bind label.value v) codomain
      .ok (.pi label.value d b, .type (max l m))
    | .lam span _ _, none => ElaborationCause.synthesizedLambda.throwAt span
    | .typedLam _ label domain body, none => do
      let (d, _) ← elaborateType n Γ domain
      let v ← Γ.eval n d
      Γ.abstraction n label.value v fun Δ => elaborate n Δ body none
    | .lam span label body, some type =>
      match type with
      | .pi base family => do
        let d ← Γ.quote n base
        let codomain ← family.enter Γ.signature n Γ.level
        let (b, _) ← elaborate n (Γ.bind label.value base) body (some codomain)
        .ok (.lam label.value d b, type)
      | type => do
        let t ← Γ.quote n type
        (ElaborationCause.unexpectedLambda t).throwAt span
    | .typedLam span label domain body, some type =>
      match type with
      | .pi base family => do
        let (d, _) ← elaborateType n Γ domain
        let v ← Γ.eval n d
        if ← Γ.convert n v base then
          let codomain ← family.enter Γ.signature n Γ.level
          let (b, _) ← elaborate n (Γ.bind label.value base) body (some codomain)
          .ok (.lam label.value d b, type)
        else do
          let t ← Γ.quote n base
          (ElaborationCause.mismatch d t).throwAt domain.span
      | type => do
        let t ← Γ.quote n type
        (ElaborationCause.unexpectedLambda t).throwAt span
    | .call _ callee argument, none => do
      let (f, type) ← elaborate n Γ callee none
      match type with
      | .pi base family => do
        let (a, _) ← elaborate n Γ argument (some base)
        let v ← Γ.eval n a
        let result ← family.instantiate Γ.signature n v
        .ok (f.apply a, result)
      | type => do
        let t ← Γ.quote n type
        (ElaborationCause.expectedFunction t).throwAt callee.span
    | .elim span target motive methods, none => do
      let (t, targetType) ← elaborate n Γ target none
      let (F, parameters, indices) ← (Γ.splitTarget n targetType).at target.span
      let table ← (dispatch F).at span
      if methods.length ≠ table.constructors.length then
        (ElaborationCause.methodCount table.constructors.length methods.length).throwAt span
      else do
        let domains ← motiveDomains Γ.signature n Γ.level F parameters
        let (m, motiveType) ← elaborateMotive n Γ motive domains
        match ← motiveLevel? Γ.signature n Γ.level domains motiveType with
        | none => do
          let found ← Γ.quote n motiveType
          (ElaborationCause.invalidMotive found).throwAt motive.span
        | some _ => do
          let v ← Γ.eval n m
          let ms ← (methods.zip table.constructors).mapM fun (method, id) => do
            let K ← orDangling (Γ.signature.constructor? id)
            let type ← methodType Γ.signature n Γ.level Γ.env K parameters v
            let (a, _) ← elaborate n Γ method (some type)
            Except.ok a
          let a ← Γ.eval n t
          let result ← v.applyAll Γ.signature n (indices ++ [a])
          .ok (.elim t m ms, result)
    | e, some type => do
      let (t, synthesized) ← elaborate n Γ e none
      if ← Γ.convert n synthesized type then .ok (t, type)
      else do
        let found ← Γ.quote n synthesized
        let wanted ← Γ.quote n type
        (ElaborationCause.mismatch found wanted).throwAt e.span

/-- Elaborates an expression that has to be a type, and finds its universe level. -/
def elaborateType : Nat → Context → Expression → Elaborate (Term × UInt64)
  | 0, _, _ => .error (.halt .exhausted)
  | n + 1, Γ, e => do
    let (t, type) ← elaborate n Γ e none
    match type with
    | .type level => .ok (t, level)
    | type => do
      let found ← Γ.quote n type
      (ElaborationCause.expectedUniverse found).throwAt e.span

/-- Elaborates a motive.  Leading functions without a domain take theirs from `domains`. -/
def elaborateMotive : Nat → Context → Expression → List Value → Elaborate (Term × Value)
  | 0, _, _, _ => .error (.halt .exhausted)
  | n + 1, Γ, e, domains =>
    match e, domains with
    | .lam _ label body, domain :: domains =>
      Γ.abstraction n label.value domain fun Δ => elaborateMotive n Δ body domains
    | e, _ => elaborate n Γ e none

end

end Context

/-- Elaborates a closed expression, against a type if one is expected, and checks
the resulting term. -/
def Expression.elaborate (S : Signature) (n : Nat) (e : Expression) (expected : Option Value) :
    Elaborate (Term × Value) := do
  let (t, A) ← Context.elaborate n (.empty S) e expected
  (Context.check n (.empty S) t A).at e.span
  .ok (t, A)

/-- Elaborates a closed expression that has to be a type, and computes it. -/
def Expression.elaborateType (S : Signature) (n : Nat) (e : Expression) :
    Elaborate (Term × Value) := do
  let (t, _) ← Context.elaborateType n (.empty S) e
  let v ← t.eval S n []
  .ok (t, v)

end Constructions
