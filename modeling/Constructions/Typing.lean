/-
# Typing

`infer` finds the type of a term, `check` compares it with an expected one, and
`checkType` finds the universe of a type.  Functions are checked against function
types and local definitions against any type without inferring first; everything
else is inferred and compared.

| term | type |
| --- | --- |
| `Type l` | `Type (l + 1)`, if there is such a level |
| `\|x : A\| -> B` | the larger of the universes of `A` and `B` |
| a former or constructor with arguments | what its own type leaves after them |
| `elim t :: M { ... }` | `M` at the indices of the target and at the target |
-/

import Constructions.Typing.Context
import Constructions.Typing.Error
import Constructions.Typing.Motive

namespace Constructions

namespace Context

/-- The type of the variable at `index`, which is the one with the next number when
counted from one. -/
def typeAt (Γ : Context) (index : Nat) : Check Value := do
  let _ ← nextNumber index
  match Γ.bindings[index]? with
  | some b => .ok b.type
  | none => (TypeError.unboundVariable index).throw

/-- Splits the type of an elimination target into its family, the parameters and
the indices. -/
def splitTarget (Γ : Context) (n : Nat) (type : Value) :
    Check (Family × List Value × List Value) :=
  match type with
  | .former id arguments => do
    let F ← orDangling (Γ.signature.family? id)
    if arguments.length = F.arity then
      .ok (F, arguments.take F.parameterCount, arguments.drop F.parameterCount)
    else do
      let t ← Γ.quote n type
      (TypeError.expectedInductive t).throw
  | type => do
    let t ← Γ.quote n type
    (TypeError.expectedInductive t).throw

/-- The dispatch table of a finalized family. -/
def dispatch (F : Family) : Check Dispatch :=
  match F.dispatch? with
  | some table => .ok table
  | none => (SignatureError.familyUnfinalized F.name).throw

mutual

/-- Finds the type of a term. -/
def infer : Nat → Context → Term → Check Value
  | 0, _, _ => .error (.halt .exhausted)
  | n + 1, Γ, t =>
    match t with
    | .var _ index => Γ.typeAt index
    | .const name =>
      match Γ.signature.global? name with
      | some g => .ok g.type
      | none => (TypeError.unknownConstant name).throw
    | .letIn label annotation argument body => do
      let _ ← checkType n Γ annotation
      let type ← Γ.eval n annotation
      check n Γ argument type
      let value ← Γ.eval n argument
      infer n (Γ.define label type value) body
    | .type level =>
      match nextLevel? level with
      | some next => .ok (.type next)
      | none => (TypeError.universeOverflow level).throw
    | .pi label domain codomain => do
      let l ← checkType n Γ domain
      let d ← Γ.eval n domain
      let m ← checkType n (Γ.bind label d) codomain
      .ok (.type (max l m))
    | .lam label domain body => do
      let _ ← checkType n Γ domain
      let d ← Γ.eval n domain
      let type ← infer n (Γ.bind label d) body
      let codomain ← (Γ.bind label d).quote n type
      .ok (.pi d (.mk Γ.env label codomain))
    | .app callee argument => do
      let type ← infer n Γ callee
      inferArgument n Γ type argument
    | .former id arguments => do
      let F ← orDangling (Γ.signature.family? id)
      inferSpine n Γ F.arity F.type arguments
    | .con id arguments => do
      let K ← orDangling (Γ.signature.constructor? id)
      inferSpine n Γ K.arity K.type arguments
    | .elim target motive methods => do
      let targetType ← infer n Γ target
      let (F, parameters, indices) ← Γ.splitTarget n targetType
      let table ← dispatch F
      if methods.length ≠ table.constructors.length then
        (SignatureError.methodCount F.name table.constructors.length methods.length).throw
      else do
        let motiveType ← infer n Γ motive
        let domains ← motiveDomains Γ.signature n Γ.level F parameters
        match ← motiveLevel? Γ.signature n Γ.level domains motiveType with
        | none => do
          let t ← Γ.quote n motiveType
          (TypeError.invalidMotive t).throw
        | some _ => do
          let m ← Γ.eval n motive
          (methods.zip table.constructors).forM fun (method, id) => do
            let K ← orDangling (Γ.signature.constructor? id)
            let expected ← methodType Γ.signature n Γ.level Γ.env K parameters m
            check n Γ method expected
          let a ← Γ.eval n target
          m.applyAll Γ.signature n (indices ++ [a])

/-- Checks a term against a type. -/
def check : Nat → Context → Term → Value → Check Unit
  | 0, _, _, _ => .error (.halt .exhausted)
  | n + 1, Γ, t, type =>
    match t, type with
    | .lam label domain body, .pi base family => do
      let _ ← checkType n Γ domain
      let d ← Γ.eval n domain
      if ← Γ.convert n d base then
        let codomain ← family.enter Γ.signature n Γ.level
        check n (Γ.bind label d) body codomain
      else do
        let expected ← Γ.quote n base
        let found ← Γ.quote n d
        (TypeError.mismatch expected found).throw
    | .letIn label annotation argument body, type => do
      let _ ← checkType n Γ annotation
      let a ← Γ.eval n annotation
      check n Γ argument a
      let value ← Γ.eval n argument
      check n (Γ.define label a value) body type
    | t, type => do
      let inferred ← infer n Γ t
      if ← Γ.convert n inferred type then .ok ()
      else do
        let expected ← Γ.quote n type
        let found ← Γ.quote n inferred
        (TypeError.mismatch expected found).throw

/-- Checks that a term is a type, and finds its universe level. -/
def checkType : Nat → Context → Term → Check UInt64
  | 0, _, _ => .error (.halt .exhausted)
  | n + 1, Γ, t => do
    match ← infer n Γ t with
    | .type level => .ok level
    | type => do
      let found ← Γ.quote n type
      (TypeError.expectedUniverse found).throw

/-- The type of a function of the given type applied to an argument. -/
def inferArgument : Nat → Context → Value → Term → Check Value
  | 0, _, _, _ => .error (.halt .exhausted)
  | n + 1, Γ, type, argument =>
    match type with
    | .pi base family => do
      check n Γ argument base
      let a ← Γ.eval n argument
      family.instantiate Γ.signature n a
    | type => do
      let found ← Γ.quote n type
      (TypeError.expectedFunction found).throw

/-- The type of a former or constructor applied to some of its arguments. -/
def inferSpine : Nat → Context → Nat → Value → List Term → Check Value
  | 0, _, _, _, _ => .error (.halt .exhausted)
  | n + 1, Γ, arity, type, arguments =>
    if arity < arguments.length then
      (TypeError.overapplied arity arguments.length).throw
    else arguments.foldlM (fun type a => inferArgument n Γ type a) type

end

end Context

end Constructions
