/-
# Elaboration only adds types

The outline of a term is the term without the domains of its functions and the types of its local
definitions.  An expression has an outline too, which is found without looking at types: names are
resolved, and ascriptions, domains of functions and types of local definitions are dropped.

| expression | outline |
| --- | --- |
| a name | the variable of the innermost binder with that name, else what was declared with it |
| `let x = a; b`, `let x : A = a; b` | a local definition `x` of `a` in `b` |
| `\|x\| b`, `\|x : A\| b` | a function of `x` with the body `b` |
| `(a : A)` | the outline of `a` |
| `f a` | the argument is taken into the list of a former or constructor, else applied |
| any other | built alike from the outlines of its parts |

What an expression elaborates to has the outline of the expression (`Context.outlines`).  So
elaboration drops nothing, and neither reorders nor captures anything.  The types that it fills in
are not in the outline; that they too mention only what is declared comes from the check at the end
(`Context.acknowledges`).
-/

import Constructions.Proofs.Elaboration.Recovery
import Constructions.Proofs.Parametricity
import Constructions.Proofs.Resolution
import Constructions.Proofs.Scope

namespace Constructions

/-! ### Outlines -/

/-- A term without the domains of functions and the types of local definitions. -/
inductive Outline where
  | var (label : Label) (index : Nat)
  | const (name : Name)
  | letIn (label : Label) (argument body : Outline)
  | type (level : UInt64)
  | pi (label : Label) (domain codomain : Outline)
  | lam (label : Label) (body : Outline)
  | app (callee argument : Outline)
  | former (family : FamilyId) (arguments : List Outline)
  | con (constructor : ConstructorId) (arguments : List Outline)
  | elim (target motive : Outline) (methods : List Outline)
  deriving Repr

/-- Applies an outline to an argument.  A former or constructor takes it into its list of
arguments. -/
def Outline.apply (callee argument : Outline) : Outline :=
  match callee with
  | .former family arguments => .former family (arguments ++ [argument])
  | .con constructor arguments => .con constructor (arguments ++ [argument])
  | callee => .app callee argument

namespace Term

mutual

/-- The outline of a term. -/
def outline : Term → Outline
  | .var label i => .var label i
  | .const c => .const c
  | .letIn label _ a b => .letIn label a.outline b.outline
  | .type l => .type l
  | .pi label A B => .pi label A.outline B.outline
  | .lam label _ b => .lam label b.outline
  | .app f a => .app f.outline a.outline
  | .former id as => .former id (outlines as)
  | .con id as => .con id (outlines as)
  | .elim t M ms => .elim t.outline M.outline (outlines ms)

/-- The outlines of terms. -/
def outlines : List Term → List Outline
  | [] => []
  | t :: ts => t.outline :: outlines ts

end

theorem outlines_eq_map (ts : List Term) : outlines ts = ts.map outline := by
  induction ts with
  | nil => rfl
  | cons t ts ih => rw [outlines, ih, List.map_cons]

/-- **An outline takes an argument as the term does.** -/
theorem outline_apply (f a : Term) : (f.apply a).outline = f.outline.apply a.outline := by
  cases f with
  | former id as | con id as =>
    simp only [apply, outline, Outline.apply, outlines_eq_map, List.map_append, List.map_cons,
      List.map_nil]
  | var | const | letIn | type | pi | lam | app | elim => rfl

end Term

theorem bind_eq_of_eq_some {α β : Type} {x : Option α} {a : α} {f : α → Option β} {r : Option β}
    (hx : x = some a) (h : f a = r) : x >>= f = r := by
  rw [hx]
  exact h

namespace Expression

mutual

/-- The outline of an expression, with its names resolved.  The labels of the binders around it are
given, the innermost first. -/
def outline? (S : Signature) : List Label → Expression → Option Outline
  | ls, .var _ x =>
    match ls.idxOf? (some x) with
    | some i => some (.var (some x) i)
    | none => (S.term? x).map Term.outline
  | ls, .letIn _ label argument body => do
    let a ← argument.outline? S ls
    let b ← body.outline? S (label.value :: ls)
    some (.letIn label.value a b)
  | ls, .typedLet _ label _ argument body => do
    let a ← argument.outline? S ls
    let b ← body.outline? S (label.value :: ls)
    some (.letIn label.value a b)
  | ls, .ascribe _ term _ => term.outline? S ls
  | _, .type _ level => some (.type level)
  | ls, .pi _ label domain codomain => do
    let A ← domain.outline? S ls
    let B ← codomain.outline? S (label.value :: ls)
    some (.pi label.value A B)
  | ls, .lam _ label body => do
    let b ← body.outline? S (label.value :: ls)
    some (.lam label.value b)
  | ls, .typedLam _ label _ body => do
    let b ← body.outline? S (label.value :: ls)
    some (.lam label.value b)
  | ls, .call _ callee argument => do
    let f ← callee.outline? S ls
    let a ← argument.outline? S ls
    some (f.apply a)
  | ls, .elim _ target motive methods => do
    let t ← target.outline? S ls
    let M ← motive.outline? S ls
    let ms ← outlines? S ls methods
    some (.elim t M ms)

/-- The outlines of expressions. -/
def outlines? (S : Signature) : List Label → List Expression → Option (List Outline)
  | _, [] => some []
  | ls, e :: es => do
    let t ← e.outline? S ls
    let ts ← outlines? S ls es
    some (t :: ts)

end

theorem outlines?_eq_some {S : Signature} {ls : List Label} {es : List Expression} {ts : List Term}
    (h : List.Forall₂ (fun e t => e.outline? S ls = some t.outline) es ts) :
    outlines? S ls es = some (Term.outlines ts) := by
  induction h with
  | nil => rfl
  | cons he _ ih => exact bind_eq_of_eq_some he (bind_eq_of_eq_some ih rfl)

end Expression

/-! ### Elaboration keeps the outline -/

namespace Context

variable {Γ : Context} {n : Nat} {t : Term} {A : Value}

/-- **Looking a name up finds the index of the innermost binder with that label.** -/
theorem idxOf?_labels (Γ : Context) (x : Name) :
    Γ.labels.idxOf? (some x) = (Γ.lookup? x).map Prod.fst := by
  rw [labels, List.idxOf?, List.findIdx?_map, lookup?, Function.comp_def]
  cases h : Γ.bindings.findIdx? (·.label == some x) with
  | none => rfl
  | some i =>
    obtain ⟨hi, _⟩ := List.findIdx?_eq_some_iff_getElem.1 h
    have hb : Γ.bindings[i]? = some Γ.bindings[i] := List.getElem?_eq_getElem hi
    change some i = (Γ.bindings[i]?.bind fun b => some (i, b.type)).map Prod.fst
    rw [hb]
    rfl

theorem term?_of_lookupGlobal? {x : Name} (h : Γ.lookupGlobal? x = some (t, A)) :
    Γ.signature.term? x = some t := by
  obtain ⟨entry, hentry, h⟩ := Option.bind_eq_some_iff.1 h
  rw [Signature.term?, hentry]
  cases entry with
  | global | family id | constructor id =>
    obtain ⟨_, _, h⟩ := Option.bind_eq_some_iff.1 h
    cases h
    rfl

/-- The procedures of elaboration with `n` units of fuel keep the outline, in every context. -/
structure Outlines (n : Nat) : Prop where
  elaborate : ∀ {Γ : Context} {e : Expression} {expected : Option Value} {t : Term} {A : Value},
    Context.elaborate n Γ e expected = .ok (t, A) →
      e.outline? Γ.signature Γ.labels = some t.outline
  elaborateType : ∀ {Γ : Context} {e : Expression} {t : Term} {l : UInt64},
    Context.elaborateType n Γ e = .ok (t, l) → e.outline? Γ.signature Γ.labels = some t.outline
  elaborateMotive : ∀ {Γ : Context} {e : Expression} {ds : List Value} {t : Term} {A : Value},
    Context.elaborateMotive n Γ e ds = .ok (t, A) →
      e.outline? Γ.signature Γ.labels = some t.outline

theorem abstraction_outline {label : Label} {d : Value} {e : Expression}
    {body : Context → Elaborate (Term × Value)}
    (hbody : ∀ {b B}, body (Γ.bind label d) = .ok (b, B) →
      e.outline? Γ.signature (label :: Γ.labels) = some b.outline)
    (h : Γ.abstraction n label d body = .ok (t, A)) :
    ∃ b, e.outline? Γ.signature (label :: Γ.labels) = some b ∧ t.outline = .lam label b := by
  obtain ⟨D, _, h⟩ := bind_eq_ok.1 h
  obtain ⟨⟨b, B⟩, hb, h⟩ := bind_eq_ok.1 h
  obtain ⟨q, _, h⟩ := bind_eq_ok.1 h
  cases h
  exact ⟨b.outline, hbody hb, rfl⟩

theorem elaborate_var_outline {span : Span} {x : Name}
    (h : Context.elaborate (n + 1) Γ (.var span x) none = .ok (t, A)) :
    (Expression.var span x).outline? Γ.signature Γ.labels = some t.outline := by
  rw [Expression.outline?, Γ.idxOf?_labels]
  rw [Context.elaborate] at h
  cases hx : Γ.lookup? x with
  | some found =>
    rw [hx] at h
    cases h
    rfl
  | none =>
    rw [hx] at h
    cases hg : Γ.lookupGlobal? x with
    | some found =>
      rw [hg] at h
      cases h
      rw [Option.map_none, term?_of_lookupGlobal? hg]
      rfl
    | none =>
      rw [hg] at h
      cases h

section

variable (ih : Outlines n)

include ih

theorem elaborate_letIn_outline {span : Span} {label : Located Label} {argument body : Expression}
    {expected : Option Value}
    (h : Context.elaborate (n + 1) Γ (.letIn span label argument body) expected = .ok (t, A)) :
    (Expression.letIn span label argument body).outline? Γ.signature Γ.labels =
      some t.outline := by
  obtain ⟨⟨a, d⟩, ha, h⟩ := bind_eq_ok.1 h
  obtain ⟨D, _, h⟩ := bind_eq_ok.1 h
  obtain ⟨v, _, h⟩ := bind_eq_ok.1 h
  obtain ⟨⟨b, B⟩, hb, h⟩ := bind_eq_ok.1 h
  cases h
  exact bind_eq_of_eq_some (ih.elaborate ha) (bind_eq_of_eq_some (ih.elaborate hb) rfl)

theorem elaborate_typedLet_outline {span : Span} {label : Located Label}
    {type argument body : Expression} {expected : Option Value}
    (h : Context.elaborate (n + 1) Γ (.typedLet span label type argument body) expected =
      .ok (t, A)) :
    (Expression.typedLet span label type argument body).outline? Γ.signature Γ.labels =
      some t.outline := by
  obtain ⟨⟨D, l⟩, _, h⟩ := bind_eq_ok.1 h
  obtain ⟨d, _, h⟩ := bind_eq_ok.1 h
  obtain ⟨⟨a, d'⟩, ha, h⟩ := bind_eq_ok.1 h
  obtain ⟨v, _, h⟩ := bind_eq_ok.1 h
  obtain ⟨⟨b, B⟩, hb, h⟩ := bind_eq_ok.1 h
  cases h
  exact bind_eq_of_eq_some (ih.elaborate ha) (bind_eq_of_eq_some (ih.elaborate hb) rfl)

theorem elaborate_pi_outline {span : Span} {label : Located Label} {domain codomain : Expression}
    (h : Context.elaborate (n + 1) Γ (.pi span label domain codomain) none = .ok (t, A)) :
    (Expression.pi span label domain codomain).outline? Γ.signature Γ.labels =
      some t.outline := by
  obtain ⟨⟨D, l⟩, hD, h⟩ := bind_eq_ok.1 h
  obtain ⟨d, _, h⟩ := bind_eq_ok.1 h
  obtain ⟨⟨B, m⟩, hB, h⟩ := bind_eq_ok.1 h
  cases h
  exact bind_eq_of_eq_some (ih.elaborateType hD) (bind_eq_of_eq_some (ih.elaborateType hB) rfl)

theorem elaborate_typedLam_outline {span : Span} {label : Located Label}
    {domain body : Expression}
    (h : Context.elaborate (n + 1) Γ (.typedLam span label domain body) none = .ok (t, A)) :
    (Expression.typedLam span label domain body).outline? Γ.signature Γ.labels =
      some t.outline := by
  obtain ⟨⟨D, l⟩, _, h⟩ := bind_eq_ok.1 h
  obtain ⟨d, _, h⟩ := bind_eq_ok.1 h
  obtain ⟨b, hb, ht⟩ := abstraction_outline (fun hb => ih.elaborate hb) h
  exact bind_eq_of_eq_some hb (congrArg some ht.symm)

theorem elaborate_call_outline {span : Span} {callee argument : Expression}
    (h : Context.elaborate (n + 1) Γ (.call span callee argument) none = .ok (t, A)) :
    (Expression.call span callee argument).outline? Γ.signature Γ.labels = some t.outline := by
  obtain ⟨⟨f, F⟩, hf, h⟩ := bind_eq_ok.1 h
  cases F with
  | pi d c =>
    obtain ⟨⟨a, d'⟩, ha, h⟩ := bind_eq_ok.1 h
    obtain ⟨v, _, h⟩ := bind_eq_ok.1 h
    obtain ⟨w, _, h⟩ := bind_eq_ok.1 h
    cases h
    rw [Term.outline_apply]
    exact bind_eq_of_eq_some (ih.elaborate hf) (bind_eq_of_eq_some (ih.elaborate ha) rfl)
  | neutral | type | lam | former | con =>
    obtain ⟨_, _, h⟩ := bind_eq_ok.1 h
    cases h

theorem verify_lam_outline {span : Span} {label : Located Label} {body : Expression} {B : Value}
    (h : Context.elaborate (n + 1) Γ (.lam span label body) (some B) = .ok (t, A)) :
    (Expression.lam span label body).outline? Γ.signature Γ.labels = some t.outline := by
  cases B with
  | pi d c =>
    obtain ⟨D, _, h⟩ := bind_eq_ok.1 h
    obtain ⟨C, _, h⟩ := bind_eq_ok.1 h
    obtain ⟨⟨b, B'⟩, hb, h⟩ := bind_eq_ok.1 h
    cases h
    exact bind_eq_of_eq_some (ih.elaborate hb) rfl
  | neutral | type | lam | former | con =>
    obtain ⟨_, _, h⟩ := bind_eq_ok.1 h
    cases h

theorem verify_typedLam_outline {span : Span} {label : Located Label} {domain body : Expression}
    {B : Value}
    (h : Context.elaborate (n + 1) Γ (.typedLam span label domain body) (some B) = .ok (t, A)) :
    (Expression.typedLam span label domain body).outline? Γ.signature Γ.labels =
      some t.outline := by
  cases B with
  | pi d c =>
    obtain ⟨⟨D, l⟩, _, h⟩ := bind_eq_ok.1 h
    obtain ⟨v, _, h⟩ := bind_eq_ok.1 h
    obtain ⟨p, _, h⟩ := bind_eq_ok.1 h
    cases p with
    | true =>
      obtain ⟨C, _, h⟩ := bind_eq_ok.1 h
      obtain ⟨⟨b, B'⟩, hb, h⟩ := bind_eq_ok.1 h
      cases h
      exact bind_eq_of_eq_some (ih.elaborate hb) rfl
    | false =>
      obtain ⟨_, _, h⟩ := bind_eq_ok.1 h
      cases h
  | neutral | type | lam | former | con =>
    obtain ⟨_, _, h⟩ := bind_eq_ok.1 h
    cases h

/-- **The methods of an elimination keep their order.** -/
theorem methods_outline {methods : List Expression} {cs : List ConstructorId}
    (hl : methods.length = cs.length) {ps : List Value} {m : Value} {ms : List Term}
    (h : ((methods.zip cs).mapM fun (method, c) => (do
      let K ← orDangling (Γ.signature.constructor? c)
      let type ← methodType Γ.signature n Γ.level Γ.env K ps m
      let (a, _) ← Context.elaborate n Γ method (some type)
      Except.ok a : Elaborate Term)) = .ok ms) :
    Expression.outlines? Γ.signature Γ.labels methods = some (Term.outlines ms) := by
  have hzip : (methods.zip cs).map Prod.fst = methods :=
    List.map_fst_zip (Nat.le_of_eq hl)
  rw [← hzip]
  refine Expression.outlines?_eq_some (List.forall₂_map_left_iff.2 ?_)
  refine (mapM_eq_ok.1 h).imp fun x a ha => ?_
  obtain ⟨K, _, ha⟩ := bind_eq_ok.1 ha
  obtain ⟨T, _, ha⟩ := bind_eq_ok.1 ha
  obtain ⟨⟨a', T'⟩, ha', ha⟩ := bind_eq_ok.1 ha
  cases ha
  exact ih.elaborate ha'

theorem elaborate_elim_outline {span : Span} {target motive : Expression}
    {methods : List Expression}
    (h : Context.elaborate (n + 1) Γ (.elim span target motive methods) none = .ok (t, A)) :
    (Expression.elim span target motive methods).outline? Γ.signature Γ.labels =
      some t.outline := by
  obtain ⟨⟨t, T⟩, ht, h⟩ := bind_eq_ok.1 h
  obtain ⟨⟨F, ps, is⟩, _, h⟩ := bind_eq_ok.1 h
  obtain ⟨table, _, h⟩ := bind_eq_ok.1 h
  by_cases hl : methods.length ≠ table.constructors.length
  · rw [if_pos hl] at h
    cases h
  rw [if_neg hl] at h
  obtain ⟨ds, _, h⟩ := bind_eq_ok.1 h
  obtain ⟨⟨M, MT⟩, hM, h⟩ := bind_eq_ok.1 h
  obtain ⟨o, _, h⟩ := bind_eq_ok.1 h
  cases o with
  | none =>
    obtain ⟨_, _, h⟩ := bind_eq_ok.1 h
    cases h
  | some l =>
    obtain ⟨m, _, h⟩ := bind_eq_ok.1 h
    obtain ⟨ms, hms, h⟩ := bind_eq_ok.1 h
    obtain ⟨a, _, h⟩ := bind_eq_ok.1 h
    obtain ⟨r, _, h⟩ := bind_eq_ok.1 h
    cases h
    have hmethods := methods_outline ih (not_not.1 hl) hms
    exact bind_eq_of_eq_some (ih.elaborate ht) (bind_eq_of_eq_some (ih.elaborateMotive hM)
      (bind_eq_of_eq_some hmethods rfl))

theorem synthesize_outline {e : Expression}
    (h : Context.elaborate (n + 1) Γ e none = .ok (t, A)) :
    e.outline? Γ.signature Γ.labels = some t.outline := by
  cases e with
  | var => exact elaborate_var_outline h
  | letIn => exact elaborate_letIn_outline ih h
  | typedLet => exact elaborate_typedLet_outline ih h
  | ascribe =>
    obtain ⟨⟨D, l⟩, _, h⟩ := bind_eq_ok.1 h
    obtain ⟨d, _, h⟩ := bind_eq_ok.1 h
    obtain ⟨⟨a, d'⟩, ha, h⟩ := bind_eq_ok.1 h
    cases h
    have hterm := ih.elaborate ha
    exact hterm
  | type =>
    rw [Context.elaborate] at h
    split at h
    · cases h
      rfl
    · cases h
  | pi => exact elaborate_pi_outline ih h
  | lam => cases h
  | typedLam => exact elaborate_typedLam_outline ih h
  | call => exact elaborate_call_outline ih h
  | elim => exact elaborate_elim_outline ih h

theorem verify_outline {e : Expression} {B : Value}
    (h : Context.elaborate (n + 1) Γ e (some B) = .ok (t, A)) :
    e.outline? Γ.signature Γ.labels = some t.outline := by
  cases e with
  | letIn => exact elaborate_letIn_outline ih h
  | typedLet => exact elaborate_typedLet_outline ih h
  | lam => exact verify_lam_outline ih h
  | typedLam => exact verify_typedLam_outline ih h
  | var | ascribe | type | pi | call | elim =>
    -- The expression is synthesized and its type compared, so the term is the synthesized one.
    obtain ⟨⟨t', T⟩, ht, h⟩ := bind_eq_ok.1 h
    obtain ⟨p, _, h⟩ := bind_eq_ok.1 h
    cases p with
    | true =>
      cases h
      exact ih.elaborate ht
    | false =>
      obtain ⟨_, _, h⟩ := bind_eq_ok.1 h
      obtain ⟨_, _, h⟩ := bind_eq_ok.1 h
      cases h

theorem elaborateType_outline {e : Expression} {l : UInt64}
    (h : Context.elaborateType (n + 1) Γ e = .ok (t, l)) :
    e.outline? Γ.signature Γ.labels = some t.outline := by
  obtain ⟨⟨t', T⟩, ht, h⟩ := bind_eq_ok.1 h
  cases T with
  | type level =>
    cases h
    exact ih.elaborate ht
  | neutral | pi | lam | former | con =>
    obtain ⟨_, _, h⟩ := bind_eq_ok.1 h
    cases h

theorem elaborateMotive_outline {e : Expression} {ds : List Value}
    (h : Context.elaborateMotive (n + 1) Γ e ds = .ok (t, A)) :
    e.outline? Γ.signature Γ.labels = some t.outline := by
  unfold Context.elaborateMotive at h
  split at h
  · next label body d ds =>
    obtain ⟨b, hb, ht⟩ := abstraction_outline (fun hb => ih.elaborateMotive hb) h
    exact bind_eq_of_eq_some hb (congrArg some ht.symm)
  · exact ih.elaborate h

end

/-- **Elaboration keeps the outline**, by induction on the fuel. -/
theorem outlines (n : Nat) : Outlines n := by
  induction n with
  | zero => exact ⟨fun h => (nomatch h), fun h => (nomatch h), fun h => (nomatch h)⟩
  | succ n ih =>
    refine ⟨fun {Γ e expected t A} h => ?_, fun h => elaborateType_outline ih h,
      fun h => elaborateMotive_outline ih h⟩
    cases expected with
    | none => exact synthesize_outline ih h
    | some B => exact verify_outline ih h

end Context

/-! ### Accepted terms mention only what there is -/

/-- The variables of a term are among `n`, and its constants, families and constructors are
declared. -/
structure Term.Known (S : Signature) (n : Nat) (t : Term) : Prop where
  bound : t.Scoped n
  declared : t.Declared S
  constants : t.All S.names

namespace Term.Known

variable {S : Signature} {n : Nat} {label : Label} {A B a b f t M : Term} {as ms : List Term}

theorem letIn (hA : A.Known S n) (ha : a.Known S n) (hb : b.Known S (n + 1)) :
    (Term.letIn label A a b).Known S n :=
  ⟨⟨hA.1, ha.1, hb.1⟩, ⟨hA.2, ha.2, hb.2⟩, ⟨hA.3, ha.3, hb.3⟩⟩

theorem pi (hA : A.Known S n) (hB : B.Known S (n + 1)) : (Term.pi label A B).Known S n :=
  ⟨⟨hA.1, hB.1⟩, ⟨hA.2, hB.2⟩, ⟨hA.3, hB.3⟩⟩

theorem lam (hA : A.Known S n) (hb : b.Known S (n + 1)) : (Term.lam label A b).Known S n :=
  ⟨⟨hA.1, hb.1⟩, ⟨hA.2, hb.2⟩, ⟨hA.3, hb.3⟩⟩

theorem app (hf : f.Known S n) (ha : a.Known S n) : (Term.app f a).Known S n :=
  ⟨⟨hf.1, ha.1⟩, ⟨hf.2, ha.2⟩, ⟨hf.3, ha.3⟩⟩

theorem scopeds (h : ∀ a ∈ as, a.Known S n) : Term.Scopeds n as :=
  Term.scopeds_iff.2 fun a ha => (h a ha).bound

theorem declareds (h : ∀ a ∈ as, a.Known S n) : Term.Declareds S as :=
  Term.declareds_iff.2 fun a ha => (h a ha).declared

theorem alls (h : ∀ a ∈ as, a.Known S n) : Term.Alls S.names as :=
  Term.alls_iff.2 fun a ha => (h a ha).constants

theorem former {id : FamilyId} {F : Family} (hF : S.family? id = some F)
    (h : ∀ a ∈ as, a.Known S n) : (Term.former id as).Known S n :=
  ⟨scopeds h, ⟨⟨F, hF⟩, declareds h⟩, alls h⟩

theorem con {id : ConstructorId} {K : Constructor} (hK : S.constructor? id = some K)
    (h : ∀ a ∈ as, a.Known S n) : (Term.con id as).Known S n :=
  ⟨scopeds h, ⟨⟨K, hK⟩, declareds h⟩, alls h⟩

theorem elim (ht : t.Known S n) (hM : M.Known S n) (h : ∀ m ∈ ms, m.Known S n) :
    (Term.elim t M ms).Known S n :=
  ⟨⟨ht.1, hM.1, scopeds h⟩, ⟨ht.2, hM.2, declareds h⟩, ⟨ht.3, hM.3, alls h⟩⟩

end Term.Known

theorem eq_ok_of_forM {ε α : Type} {f : α → Except ε PUnit} {as : List α}
    (h : as.forM f = .ok ()) : ∀ a ∈ as, f a = .ok () :=
  (Post.forM (Q := fun _ => True) fun _ _ => .intro (fun _ h => h) fun _ _ => trivial).of_ok h

namespace Context

variable {Γ : Context} {n : Nat} {t : Term}

/-- With `n` units of fuel, the procedures of the kernel accept known terms only, whatever the
values are that they compare types with. -/
structure Acknowledges (n : Nat) : Prop where
  infer : ∀ {Γ : Context} {t : Term} {A : Value}, Context.infer n Γ t = .ok A →
    t.Known Γ.signature Γ.level
  check : ∀ {Γ : Context} {t : Term} {A : Value}, Context.check n Γ t A = .ok () →
    t.Known Γ.signature Γ.level
  checkType : ∀ {Γ : Context} {t : Term} {l : UInt64}, Context.checkType n Γ t = .ok l →
    t.Known Γ.signature Γ.level
  inferArgument : ∀ {Γ : Context} {T : Value} {a : Term} {A : Value},
    Context.inferArgument n Γ T a = .ok A → a.Known Γ.signature Γ.level
  inferSpine : ∀ {Γ : Context} {k : Nat} {T : Value} {as : List Term} {A : Value},
    Context.inferSpine n Γ k T as = .ok A → ∀ a ∈ as, a.Known Γ.signature Γ.level

section

variable (ih : Acknowledges n)

include ih

theorem infer_elim_known {M : Term} {ms : List Term} {A : Value}
    (h : Context.infer (n + 1) Γ (.elim t M ms) = .ok A) :
    (Term.elim t M ms).Known Γ.signature Γ.level := by
  obtain ⟨T, hT, h⟩ := bind_eq_ok.1 h
  obtain ⟨⟨F, ps, is⟩, _, h⟩ := bind_eq_ok.1 h
  obtain ⟨table, _, h⟩ := bind_eq_ok.1 h
  by_cases hl : ms.length ≠ table.constructors.length
  · rw [if_pos hl] at h
    cases h
  rw [if_neg hl] at h
  obtain ⟨MT, hM, h⟩ := bind_eq_ok.1 h
  obtain ⟨ds, _, h⟩ := bind_eq_ok.1 h
  obtain ⟨o, _, h⟩ := bind_eq_ok.1 h
  cases o with
  | none =>
    obtain ⟨_, _, h⟩ := bind_eq_ok.1 h
    cases h
  | some l =>
    obtain ⟨m, _, h⟩ := bind_eq_ok.1 h
    obtain ⟨_, hms, _⟩ := bind_eq_ok.1 h
    refine .elim (ih.infer hT) (ih.infer hM) fun method hmethod => ?_
    -- Every method has a constructor beside it, so every method was checked.
    have hzip : (ms.zip table.constructors).map Prod.fst = ms :=
      List.map_fst_zip (Nat.le_of_eq (not_not.1 hl))
    rw [← hzip] at hmethod
    obtain ⟨x, hx, rfl⟩ := List.mem_map.1 hmethod
    obtain ⟨K, _, hchecked⟩ := bind_eq_ok.1 (eq_ok_of_forM hms x hx)
    obtain ⟨E, _, hchecked⟩ := bind_eq_ok.1 hchecked
    exact ih.check hchecked

theorem infer_step_known {A : Value} (h : Context.infer (n + 1) Γ t = .ok A) :
    t.Known Γ.signature Γ.level := by
  cases t with
  | var label i =>
    obtain ⟨_, _, h⟩ := bind_eq_ok.1 h
    cases hb : Γ.bindings[i]? with
    | none =>
      rw [hb] at h
      cases h
    | some b => exact ⟨(List.getElem?_eq_some_iff.1 hb).1, trivial, trivial⟩
  | const c =>
    rw [Context.infer] at h
    cases hg : Γ.signature.global? c with
    | none =>
      rw [hg] at h
      cases h
    | some g => exact ⟨trivial, trivial, ⟨g, hg⟩⟩
  | letIn label A a b =>
    obtain ⟨l, hA, h⟩ := bind_eq_ok.1 h
    obtain ⟨d, _, h⟩ := bind_eq_ok.1 h
    obtain ⟨_, ha, h⟩ := bind_eq_ok.1 h
    obtain ⟨v, _, hb⟩ := bind_eq_ok.1 h
    exact .letIn (ih.checkType hA) (ih.check ha) (ih.infer hb)
  | type l => exact ⟨trivial, trivial, trivial⟩
  | pi label A B =>
    obtain ⟨l, hA, h⟩ := bind_eq_ok.1 h
    obtain ⟨d, _, h⟩ := bind_eq_ok.1 h
    obtain ⟨m, hB, _⟩ := bind_eq_ok.1 h
    exact .pi (ih.checkType hA) (ih.checkType hB)
  | lam label A b =>
    obtain ⟨l, hA, h⟩ := bind_eq_ok.1 h
    obtain ⟨d, _, h⟩ := bind_eq_ok.1 h
    obtain ⟨T, hb, _⟩ := bind_eq_ok.1 h
    exact .lam (ih.checkType hA) (ih.infer hb)
  | app f a =>
    obtain ⟨T, hf, ha⟩ := bind_eq_ok.1 h
    exact .app (ih.infer hf) (ih.inferArgument ha)
  | former id as =>
    obtain ⟨F, hF, h⟩ := bind_eq_ok.1 h
    exact .former (orDangling_eq_ok.1 (liftM_eq_ok.1 hF)) (ih.inferSpine h)
  | con id as =>
    obtain ⟨K, hK, h⟩ := bind_eq_ok.1 h
    exact .con (orDangling_eq_ok.1 (liftM_eq_ok.1 hK)) (ih.inferSpine h)
  | elim t M ms => exact infer_elim_known ih h

theorem check_step_known {A : Value} (h : Context.check (n + 1) Γ t A = .ok ()) :
    t.Known Γ.signature Γ.level := by
  unfold Context.check at h
  split at h
  · obtain ⟨l, hA, h⟩ := bind_eq_ok.1 h
    obtain ⟨d, _, h⟩ := bind_eq_ok.1 h
    obtain ⟨p, _, h⟩ := bind_eq_ok.1 h
    cases p with
    | true =>
      obtain ⟨C, _, hb⟩ := bind_eq_ok.1 h
      exact .lam (ih.checkType hA) (ih.check hb)
    | false =>
      obtain ⟨_, _, h⟩ := bind_eq_ok.1 h
      obtain ⟨_, _, h⟩ := bind_eq_ok.1 h
      cases h
  · obtain ⟨l, hA, h⟩ := bind_eq_ok.1 h
    obtain ⟨d, _, h⟩ := bind_eq_ok.1 h
    obtain ⟨_, ha, h⟩ := bind_eq_ok.1 h
    obtain ⟨v, _, hb⟩ := bind_eq_ok.1 h
    exact .letIn (ih.checkType hA) (ih.check ha) (ih.check hb)
  · obtain ⟨T, hT, _⟩ := bind_eq_ok.1 h
    exact ih.infer hT

theorem inferArgument_step_known {T : Value} {a : Term} {A : Value}
    (h : Context.inferArgument (n + 1) Γ T a = .ok A) : a.Known Γ.signature Γ.level := by
  cases T with
  | pi base family =>
    obtain ⟨_, ha, _⟩ := bind_eq_ok.1 h
    exact ih.check ha
  | neutral | type | lam | former | con =>
    obtain ⟨_, _, h⟩ := bind_eq_ok.1 h
    cases h

theorem inferSpine_step_known {k : Nat} {T : Value} {as : List Term} {A : Value}
    (h : Context.inferSpine (n + 1) Γ k T as = .ok A) : ∀ a ∈ as, a.Known Γ.signature Γ.level := by
  rw [Context.inferSpine] at h
  split at h
  · cases h
  clear * - ih h
  induction as generalizing T with
  | nil => exact fun a ha => absurd ha List.not_mem_nil
  | cons a as ihas =>
    rw [List.foldlM_cons] at h
    obtain ⟨T', ha, h⟩ := bind_eq_ok.1 h
    exact List.forall_mem_cons.2 ⟨ih.inferArgument ha, ihas h⟩

end

/-- **The kernel accepts known terms only**, by induction on the fuel. -/
theorem acknowledges (n : Nat) : Acknowledges n := by
  induction n with
  | zero =>
    exact ⟨fun h => (nomatch h), fun h => (nomatch h), fun h => (nomatch h), fun h => (nomatch h),
      fun h => (nomatch h)⟩
  | succ n ih =>
    refine ⟨fun h => infer_step_known ih h, fun h => check_step_known ih h, fun h => ?_,
      fun h => inferArgument_step_known ih h, fun h => inferSpine_step_known ih h⟩
    obtain ⟨T, hT, _⟩ := bind_eq_ok.1 h
    exact ih.infer hT

end Context

/-! ### Main result -/

/-- **Elaboration only adds types.**  What an expression elaborates to has the outline of the
expression, with its names resolved, and mentions no variable from outside and no name that is not
declared, whatever the signature, the fuel and the type that is expected. -/
theorem Expression.elaborate_outline {S : Signature} {n : Nat} {e : Expression}
    {expected : Option Value} {t : Term} {A : Value} (h : e.elaborate S n expected = .ok (t, A)) :
    e.outline? S [] = some t.outline ∧ t.Known S 0 := by
  obtain ⟨⟨t', A'⟩, helaborate, h⟩ := bind_eq_ok.1 h
  obtain ⟨_, hcheck, h⟩ := bind_eq_ok.1 h
  cases h
  exact ⟨(Context.outlines n).elaborate helaborate,
    (Context.acknowledges n).check (Check.at_eq_ok.1 hcheck)⟩

/-- The source text
`let n = succ zero; (|n| elim n :: |k| Nat { n, |m| |r| succ r } : Nat -> Nat) n`,
where the inner `n` hides the outer one. -/
def shadowingSource : Expression :=
  .letIn default ⟨some "n", 0⟩ (.call default (.var default "succ") (.var default "zero"))
    (.call default
      (.ascribe default
        (.lam default ⟨some "n", 0⟩
          (.elim default (.var default "n") (.lam default ⟨some "k", 0⟩ (.var default "Nat"))
            [.var default "n", .lam default ⟨some "m", 0⟩ (.lam default ⟨some "r", 0⟩
              (.call default (.var default "succ") (.var default "r")))]))
        (.pi default ⟨none, 0⟩ (.var default "Nat") (.var default "Nat")))
      (.var default "n"))

/-- The source names no type but in the ascription, which is dropped.  Five types are filled in, and
each `n` is the variable of its own binder. -/
theorem shadowing_elaborate_outline :
    let N := Term.former ⟨0⟩ []
    let copy : Term := .elim (.var (some "n") 0) (.lam (some "k") N N)
      [.var (some "n") 0, .lam (some "m") N (.lam (some "r") N (.con ⟨1⟩ [.var (some "r") 0]))]
    let t : Term := .letIn (some "n") N (.con ⟨1⟩ [.con ⟨0⟩ []])
      (.app (.lam (some "n") N copy) (.var (some "n") 0))
    shadowingSource.elaborate naturals 20 none = .ok (t, .former ⟨0⟩ []) ∧
      shadowingSource.outline? naturals [] = some t.outline ∧ t.Known naturals 0 := by
  intro N copy t
  have h : shadowingSource.elaborate naturals 20 none = .ok (t, .former ⟨0⟩ []) := rfl
  exact ⟨h, Expression.elaborate_outline h⟩

end Constructions
