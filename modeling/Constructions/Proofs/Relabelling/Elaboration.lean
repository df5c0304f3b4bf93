/-
# Elaboration does not look at positions

The positions of an expression are for its errors.  Without positions it elaborates to the same
term and type, or is refused for the same cause.  The labels of the signature and of the context
may be thinned out at the same time: a relabelling that drops some labels, and none of the names
and labels of the expression, commutes with elaboration.

| kept | so |
| --- | --- |
| all labels | what differs in positions only is elaborated alike |
| the labels of some kind | expressions with such labels elaborate to terms with such labels |

As before, the second run may have more fuel than the first.
-/

import Constructions.Elaboration
import Constructions.Proofs.Grammar.Derivation
import Constructions.Proofs.Relabelling.Kernel

namespace Constructions

/-! ### Labels that are kept -/

/-- A relabelling keeps or drops each label. -/
def Thins (f : Label → Label) : Prop := ∀ l, f l = l ∨ f l = none

theorem Thins.map_none {f : Label → Label} (hf : Thins f) : f none = none := (hf none).elim id id

theorem Thins.eq_some_iff {f : Label → Label} (hf : Thins f) {x : Name}
    (hx : f (some x) = some x) {l : Label} : f l = some x ↔ l = some x := by
  constructor
  · intro h
    obtain hl | hl := hf l
    · exact hl.symm.trans h
    · cases hl.symm.trans h
  · rintro rfl
    exact hx

theorem thins_id : Thins id := fun _ => .inl rfl

namespace Expression

mutual

/-- The relabelling keeps the names and labels of an expression. -/
def Kept (f : Label → Label) : Expression → Prop
  | .var _ x => f (some x) = some x
  | .letIn _ l a b => f l.value = l.value ∧ a.Kept f ∧ b.Kept f
  | .typedLet _ l t a b => f l.value = l.value ∧ t.Kept f ∧ a.Kept f ∧ b.Kept f
  | .ascribe _ e t => e.Kept f ∧ t.Kept f
  | .type _ _ => True
  | .pi _ l a b => f l.value = l.value ∧ a.Kept f ∧ b.Kept f
  | .lam _ l b => f l.value = l.value ∧ b.Kept f
  | .typedLam _ l a b => f l.value = l.value ∧ a.Kept f ∧ b.Kept f
  | .call _ g a => g.Kept f ∧ a.Kept f
  | .elim _ t m ms => t.Kept f ∧ m.Kept f ∧ AllKept f ms

/-- The relabelling keeps the names and labels of expressions. -/
def AllKept (f : Label → Label) : List Expression → Prop
  | [] => True
  | e :: es => e.Kept f ∧ AllKept f es

end

theorem allKept_iff {f : Label → Label} {es : List Expression} :
    AllKept f es ↔ ∀ e ∈ es, e.Kept f := by
  induction es with
  | nil => simp [AllKept]
  | cons e es ih => rw [AllKept, ih, List.forall_mem_cons]

mutual

theorem kept_id : ∀ e : Expression, e.Kept id
  | .var _ _ => rfl
  | .letIn _ _ a b => ⟨rfl, a.kept_id, b.kept_id⟩
  | .typedLet _ _ t a b => ⟨rfl, t.kept_id, a.kept_id, b.kept_id⟩
  | .ascribe _ e t => ⟨e.kept_id, t.kept_id⟩
  | .type _ _ => trivial
  | .pi _ _ a b => ⟨rfl, a.kept_id, b.kept_id⟩
  | .lam _ _ b => ⟨rfl, b.kept_id⟩
  | .typedLam _ _ a b => ⟨rfl, a.kept_id, b.kept_id⟩
  | .call _ g a => ⟨g.kept_id, a.kept_id⟩
  | .elim _ t m ms => ⟨t.kept_id, m.kept_id, allKept_id ms⟩

theorem allKept_id : ∀ es : List Expression, AllKept id es
  | [] => trivial
  | e :: es => ⟨e.kept_id, allKept_id es⟩

end

@[simp] theorem span_unplaced (e : Expression) : e.unplaced.span = default := by
  cases e <;> rfl

end Expression

/-! ### Errors -/

/-- A cause with the labels changed in its terms. -/
def ElaborationCause.relabel (f : Label → Label) : ElaborationCause → ElaborationCause
  | .notInScope x => .notInScope x
  | .synthesizedLambda => .synthesizedLambda
  | .expectedUniverse t => .expectedUniverse (t.relabel f)
  | .expectedFunction t => .expectedFunction (t.relabel f)
  | .unexpectedLambda t => .unexpectedLambda (t.relabel f)
  | .methodCount expected found => .methodCount expected found
  | .invalidMotive t => .invalidMotive (t.relabel f)
  | .mismatch synthesized expected => .mismatch (synthesized.relabel f) (expected.relabel f)
  | .kernel e => .kernel (e.relabel f)

/-- The end of an elaboration with its position forgotten, and the labels changed. -/
def Stop.unplaced (f : Label → Label) : Stop ElaborationError → Stop ElaborationError
  | .halt h => .halt h
  | .error e => .error ⟨default, e.cause.relabel f⟩

variable {f : Label → Label} {Q : Halt → Prop} {S : Signature} {n m : Nat}

/-- A computation inside an elaboration. -/
theorem Carries.within {α β : Type} {g : α → β} {x : Except Halt α} {x' : Except Halt β}
    (hx : Carries Q id g x x') :
    Carries (Stop.Lacks Q) (Stop.unplaced f) g (liftM x : Elaborate α) (liftM x' : Elaborate β) :=
  .lifted (fun _ h => h) (fun _ => rfl) hx

/-- A procedure of the kernel inside an elaboration. -/
theorem Carries.at {α β : Type} {g : α → β} {x : Check α} {x' : Check β}
    (hx : Carries (Stop.Lacks Q) (Stop.relabel f) g x x') (span : Span) :
    Carries (Stop.Lacks Q) (Stop.unplaced f) g (x.at span) (x'.at default) := by
  cases x with
  | ok a =>
    rw [show x' = .ok (g a) from hx]
    rfl
  | error s =>
    obtain hs | rfl := hx
    · cases s with
      | halt h => exact .mends hs
      | error e => exact hs.elim
    · cases s <;> exact .error rfl

/-- An error about an expression. -/
theorem Carries.throwAt {α β : Type} {g : α → β} {cause cause' : ElaborationCause}
    (h : cause' = cause.relabel f) (span : Span) :
    Carries (Stop.Lacks Q) (Stop.unplaced f) g (cause.throwAt span : Elaborate α)
      (cause'.throwAt default : Elaborate β) := by
  subst h
  exact .error rfl

/-- A computation and then an error about its result. -/
theorem Carries.within_throwAt {α β γ δ : Type} {g : α → β} {k : γ → δ} {x : Except Halt α}
    {x' : Except Halt β} (hx : Carries Q id g x x') {cause : α → ElaborationCause}
    {cause' : β → ElaborationCause} (h : ∀ a, cause' (g a) = (cause a).relabel f) (span : Span) :
    Carries (Stop.Lacks Q) (Stop.unplaced f) k
      ((liftM x : Elaborate α) >>= fun a => (cause a).throwAt span)
      ((liftM x' : Elaborate β) >>= fun b => (cause' b).throwAt default) :=
  .bind hx.within fun a _ => .throwAt (h a) span

/-! ### Names -/

/-- A term and its type with their labels changed. -/
def relabelTyped (f : Label → Label) (x : Term × Value) : Term × Value :=
  (x.1.relabel f, x.2.relabel f)

namespace Context

variable (Γ : Context)

theorem lookup?_relabel (hf : Thins f) {x : Name} (hx : f (some x) = some x) :
    (Γ.relabel f).lookup? x = (Γ.lookup? x).map fun p => (p.1, p.2.relabel f) := by
  have hlabel (b : Binding) : ((b.relabel f).label == some x) = (b.label == some x) := by
    rw [Bool.eq_iff_iff, beq_iff_eq, beq_iff_eq]
    exact hf.eq_some_iff hx
  unfold lookup?
  rw [relabel, List.findIdx?_map, Function.comp_def, funext hlabel]
  cases Γ.bindings.findIdx? (·.label == some x) with
  | none => rfl
  | some i =>
    change ((Γ.bindings.map (Binding.relabel f))[i]?.bind fun b => some (i, b.type)) =
      (Γ.bindings[i]?.bind fun b => some (i, b.type)).map _
    rw [List.getElem?_map]
    cases Γ.bindings[i]? <;> rfl

theorem lookupGlobal?_relabel (x : Name) :
    (Γ.relabel f).lookupGlobal? x = (Γ.lookupGlobal? x).map (relabelTyped f) := by
  unfold lookupGlobal?
  rw [signature_relabel, Signature.entry?_relabel]
  cases Γ.signature.entry? x with
  | none => rfl
  | some entry =>
    cases entry with
    | global =>
      change ((Γ.signature.relabel f).global? x).bind _ = (((Γ.signature.global? x)).bind _).map _
      rw [Signature.global?_relabel]
      cases Γ.signature.global? x <;> rfl
    | family id =>
      change ((Γ.signature.relabel f).family? id).bind _ = ((Γ.signature.family? id).bind _).map _
      rw [Signature.family?_relabel]
      cases Γ.signature.family? id <;> rfl
    | constructor id =>
      change ((Γ.signature.relabel f).constructor? id).bind _ =
        ((Γ.signature.constructor? id).bind _).map _
      rw [Signature.constructor?_relabel]
      cases Γ.signature.constructor? id <;> rfl

end Context

theorem Term.apply_relabel (g a : Term) :
    (g.apply a).relabel f = (g.relabel f).apply (a.relabel f) := by
  cases g <;> simp [Term.apply, Term.relabel]

namespace Context

/-! ### Elaboration -/

variable (f) in
/-- Forgetting positions and thinning labels out commutes with elaboration, where the second run
has `m` units of fuel for the `n` of the first. -/
structure Unplaces (Q : Halt → Prop) (n m : Nat) : Prop where
  elaborate : ∀ Γ {e : Expression} (expected : Option Value), e.Kept f →
    Carries (Stop.Lacks Q) (Stop.unplaced f) (relabelTyped f) (Context.elaborate n Γ e expected)
      (Context.elaborate m (Γ.relabel f) e.unplaced (expected.map (Value.relabel f)))
  elaborateType : ∀ Γ {e : Expression}, e.Kept f →
    Carries (Stop.Lacks Q) (Stop.unplaced f) (Prod.map (Term.relabel f) id)
      (Context.elaborateType n Γ e) (Context.elaborateType m (Γ.relabel f) e.unplaced)
  elaborateMotive : ∀ Γ {e : Expression} (ds : List Value), e.Kept f →
    Carries (Stop.Lacks Q) (Stop.unplaced f) (relabelTyped f) (Context.elaborateMotive n Γ e ds)
      (Context.elaborateMotive m (Γ.relabel f) e.unplaced (ds.map (Value.relabel f)))

section

variable (Γ : Context) (hf : Thins f) (hnm : FuelLe Q n m)

include hnm

theorem abstraction_unplaces {l : Label} (hl : f l = l) (d : Value)
    {body body' : Context → Elaborate (Term × Value)}
    (hbody : Carries (Stop.Lacks Q) (Stop.unplaced f) (relabelTyped f) (body (Γ.bind l d))
      (body' ((Γ.bind l d).relabel f))) :
    Carries (Stop.Lacks Q) (Stop.unplaced f) (relabelTyped f) (Γ.abstraction n l d body)
      ((Γ.relabel f).abstraction m l (d.relabel f) body') := by
  have hbind : (Γ.relabel f).bind l (d.relabel f) = (Γ.bind l d).relabel f := by
    rw [bind_relabel, hl]
  unfold abstraction
  rw [hbind]
  refine .bind (Γ.quote_relabel f hnm d).within fun t _ => .bind hbody fun x _ => ?_
  obtain ⟨b, type⟩ := x
  refine .bind ((Γ.bind l d).quote_relabel f hnm type).within fun codomain _ => ?_
  have hlam : (Term.lam l t b).relabel f = .lam l (t.relabel f) (b.relabel f) := by
    rw [Term.relabel, hl]
  have hpi : (Value.pi d (.mk Γ.env l codomain)).relabel f =
      .pi (d.relabel f) (.mk (Γ.relabel f).env l (codomain.relabel f)) := by
    rw [Value.relabel, Closure.relabel_mk, env_relabel, hl]
  exact congrArg Except.ok (Prod.ext hlam.symm hpi.symm)

variable (ih : Unplaces f Q n m)

include ih

theorem elaborate_letIn_unplaces {span : Span} {l : Located Label} {a b : Expression}
    (expected : Option Value) (hl : f l.value = l.value) (ha : a.Kept f) (hb : b.Kept f) :
    Carries (Stop.Lacks Q) (Stop.unplaced f) (relabelTyped f)
      (Context.elaborate (n + 1) Γ (.letIn span l a b) expected)
      (Context.elaborate (m + 1) (Γ.relabel f) (Expression.letIn span l a b).unplaced
        (expected.map (Value.relabel f))) := by
  refine .bind (ih.elaborate Γ none ha) fun x _ => ?_
  obtain ⟨t, type⟩ := x
  refine .bind (Γ.quote_relabel f hnm type).within fun annotation _ => ?_
  refine .bind (Γ.eval_relabel f hnm t).within fun v _ => ?_
  have hbody := ih.elaborate (Γ.define l.value type v) expected hb
  rw [define_relabel, hl] at hbody
  refine .bind hbody fun y _ => congrArg Except.ok (Prod.ext ?_ rfl)
  dsimp only [relabelTyped]
  rw [Term.relabel, hl]

theorem elaborate_typedLet_unplaces {span : Span} {l : Located Label} {A a b : Expression}
    (expected : Option Value) (hl : f l.value = l.value) (hA : A.Kept f) (ha : a.Kept f)
    (hb : b.Kept f) :
    Carries (Stop.Lacks Q) (Stop.unplaced f) (relabelTyped f)
      (Context.elaborate (n + 1) Γ (.typedLet span l A a b) expected)
      (Context.elaborate (m + 1) (Γ.relabel f) (Expression.typedLet span l A a b).unplaced
        (expected.map (Value.relabel f))) := by
  refine .bind (ih.elaborateType Γ hA) fun x _ => ?_
  obtain ⟨t, level⟩ := x
  refine .bind (Γ.eval_relabel f hnm t).within fun type _ => ?_
  refine .bind (ih.elaborate Γ (some type) ha) fun y _ => ?_
  refine .bind (Γ.eval_relabel f hnm y.1).within fun v _ => ?_
  have hbody := ih.elaborate (Γ.define l.value type v) expected hb
  rw [define_relabel, hl] at hbody
  refine .bind hbody fun z _ => congrArg Except.ok (Prod.ext ?_ rfl)
  dsimp only [relabelTyped]
  rw [Term.relabel, hl]

theorem elaborate_pi_unplaces {span : Span} {l : Located Label} {A B : Expression}
    (hl : f l.value = l.value) (hA : A.Kept f) (hB : B.Kept f) :
    Carries (Stop.Lacks Q) (Stop.unplaced f) (relabelTyped f)
      (Context.elaborate (n + 1) Γ (.pi span l A B) none)
      (Context.elaborate (m + 1) (Γ.relabel f) (Expression.pi span l A B).unplaced none) := by
  refine .bind (ih.elaborateType Γ hA) fun x _ => ?_
  refine .bind (Γ.eval_relabel f hnm x.1).within fun d _ => ?_
  have hcodomain := ih.elaborateType (Γ.bind l.value d) hB
  rw [bind_relabel, hl] at hcodomain
  refine .bind hcodomain fun y _ => congrArg Except.ok (Prod.ext ?_ rfl)
  dsimp only [relabelTyped]
  rw [Term.relabel, hl]

theorem elaborate_ascribe_unplaces {span : Span} {e A : Expression} (he : e.Kept f)
    (hA : A.Kept f) :
    Carries (Stop.Lacks Q) (Stop.unplaced f) (relabelTyped f)
      (Context.elaborate (n + 1) Γ (.ascribe span e A) none)
      (Context.elaborate (m + 1) (Γ.relabel f) (Expression.ascribe span e A).unplaced none) := by
  refine .bind (ih.elaborateType Γ hA) fun x _ => ?_
  refine .bind (Γ.eval_relabel f hnm x.1).within fun type _ => ?_
  exact .bind (ih.elaborate Γ (some type) he) fun y _ => rfl

theorem elaborate_call_unplaces {span : Span} {g a : Expression} (hg : g.Kept f)
    (ha : a.Kept f) :
    Carries (Stop.Lacks Q) (Stop.unplaced f) (relabelTyped f)
      (Context.elaborate (n + 1) Γ (.call span g a) none)
      (Context.elaborate (m + 1) (Γ.relabel f) (Expression.call span g a).unplaced none) := by
  rw [Expression.unplaced, Context.elaborate, Context.elaborate, Expression.span_unplaced]
  refine .bind (ih.elaborate Γ none hg) fun x _ => ?_
  obtain ⟨t, type⟩ := x
  cases type with
  | pi base family =>
    refine .bind (ih.elaborate Γ (some base) ha) fun y _ => ?_
    refine .bind (Γ.eval_relabel f hnm y.1).within fun v _ => ?_
    refine .bind (family.instantiate_relabel f hnm v).within fun result _ => ?_
    exact congrArg Except.ok (Prod.ext (t.apply_relabel y.1).symm rfl)
  | neutral | type | lam | former | con =>
    exact .within_throwAt (Γ.quote_relabel f hnm _) (fun _ => rfl) g.span

theorem elaborate_lam_unplaces {span : Span} {l : Located Label} {b : Expression} (type : Value)
    (hl : f l.value = l.value) (hb : b.Kept f) :
    Carries (Stop.Lacks Q) (Stop.unplaced f) (relabelTyped f)
      (Context.elaborate (n + 1) Γ (.lam span l b) (some type))
      (Context.elaborate (m + 1) (Γ.relabel f) (Expression.lam span l b).unplaced
        (some (type.relabel f))) := by
  cases type with
  | pi base family =>
    refine .bind (Γ.quote_relabel f hnm base).within fun d _ => ?_
    refine .bind (g := Value.relabel f) (.within ?_) fun codomain _ => ?_
    · rw [level_relabel]
      exact family.enter_relabel f hnm Γ.level
    have hbody := ih.elaborate (Γ.bind l.value base) (some codomain) hb
    rw [bind_relabel, hl] at hbody
    refine .bind hbody fun y _ => congrArg Except.ok (Prod.ext ?_ rfl)
    dsimp only [relabelTyped]
    rw [Term.relabel, hl]
  | neutral | type | lam | former | con =>
    exact .within_throwAt (Γ.quote_relabel f hnm _) (fun _ => rfl) span

theorem elaborate_typedLam_unplaces {span : Span} {l : Located Label} {A b : Expression}
    (hl : f l.value = l.value) (hA : A.Kept f) (hb : b.Kept f) :
    Carries (Stop.Lacks Q) (Stop.unplaced f) (relabelTyped f)
      (Context.elaborate (n + 1) Γ (.typedLam span l A b) none)
      (Context.elaborate (m + 1) (Γ.relabel f) (Expression.typedLam span l A b).unplaced
        none) := by
  refine .bind (ih.elaborateType Γ hA) fun x _ => ?_
  refine .bind (Γ.eval_relabel f hnm x.1).within fun d _ => ?_
  exact Γ.abstraction_unplaces hnm hl d (ih.elaborate (Γ.bind l.value d) none hb)

theorem verify_typedLam_unplaces {span : Span} {l : Located Label} {A b : Expression}
    (type : Value) (hl : f l.value = l.value) (hA : A.Kept f) (hb : b.Kept f) :
    Carries (Stop.Lacks Q) (Stop.unplaced f) (relabelTyped f)
      (Context.elaborate (n + 1) Γ (.typedLam span l A b) (some type))
      (Context.elaborate (m + 1) (Γ.relabel f) (Expression.typedLam span l A b).unplaced
        (some (type.relabel f))) := by
  cases type with
  | pi base family =>
    rw [Expression.unplaced, Value.relabel, Context.elaborate, Context.elaborate,
      Expression.span_unplaced]
    refine .bind (ih.elaborateType Γ hA) fun x _ => ?_
    obtain ⟨t, level⟩ := x
    refine .bind (Γ.eval_relabel f hnm t).within fun d _ => ?_
    refine .bind (Γ.convert_relabel f hnm d base).within fun eq _ => ?_
    cases eq with
    | true =>
      refine .bind (g := Value.relabel f) (.within ?_) fun codomain _ => ?_
      · rw [level_relabel]
        exact family.enter_relabel f hnm Γ.level
      have hbody := ih.elaborate (Γ.bind l.value base) (some codomain) hb
      rw [bind_relabel, hl] at hbody
      refine .bind hbody fun y _ => congrArg Except.ok (Prod.ext ?_ rfl)
      dsimp only [relabelTyped]
      rw [Term.relabel, hl]
    | false => exact .within_throwAt (Γ.quote_relabel f hnm base) (fun _ => rfl) A.span
  | neutral | type | lam | former | con =>
    exact .within_throwAt (Γ.quote_relabel f hnm _) (fun _ => rfl) span

theorem compare_unplaces {e : Expression} (type : Value) (he : e.Kept f) (span : Span) :
    Carries (Stop.Lacks Q) (Stop.unplaced f) (relabelTyped f)
      (do
        let (t, synthesized) ← Context.elaborate n Γ e none
        if ← Γ.convert n synthesized type then .ok (t, type)
        else do
          let found ← Γ.quote n synthesized
          let wanted ← Γ.quote n type
          (ElaborationCause.mismatch found wanted).throwAt span)
      (do
        let (t, synthesized) ← Context.elaborate m (Γ.relabel f) e.unplaced none
        if ← (Γ.relabel f).convert m synthesized (type.relabel f) then .ok (t, type.relabel f)
        else do
          let found ← (Γ.relabel f).quote m synthesized
          let wanted ← (Γ.relabel f).quote m (type.relabel f)
          (ElaborationCause.mismatch found wanted).throwAt default) := by
  refine .bind (ih.elaborate Γ none he) fun x _ => ?_
  obtain ⟨t, synthesized⟩ := x
  refine .bind (Γ.convert_relabel f hnm synthesized type).within fun eq _ => ?_
  cases eq with
  | true => rfl
  | false =>
    refine .bind (Γ.quote_relabel f hnm synthesized).within fun found _ => ?_
    exact .within_throwAt (Γ.quote_relabel f hnm type) (fun _ => rfl) span

include hf

omit hnm ih in
theorem elaborate_var_unplaces {span : Span} {x : Name} (hx : f (some x) = some x) :
    Carries (Stop.Lacks Q) (Stop.unplaced f) (relabelTyped f)
      (Context.elaborate (n + 1) Γ (.var span x) none)
      (Context.elaborate (m + 1) (Γ.relabel f) (Expression.var span x).unplaced none) := by
  rw [Expression.unplaced, Context.elaborate, Context.elaborate, Γ.lookup?_relabel hf hx,
    Γ.lookupGlobal?_relabel]
  cases Γ.lookup? x with
  | some p =>
    refine congrArg Except.ok (Prod.ext ?_ rfl)
    dsimp only [relabelTyped]
    rw [Term.relabel, hx]
  | none =>
    cases Γ.lookupGlobal? x with
    | some found => rfl
    | none => exact .throwAt rfl span

theorem elaborate_elim_unplaces {span : Span} {target motive : Expression}
    {methods : List Expression} (ht : target.Kept f) (hM : motive.Kept f)
    (hms : Expression.AllKept f methods) :
    Carries (Stop.Lacks Q) (Stop.unplaced f) (relabelTyped f)
      (Context.elaborate (n + 1) Γ (.elim span target motive methods) none)
      (Context.elaborate (m + 1) (Γ.relabel f)
        (Expression.elim span target motive methods).unplaced none) := by
  rw [Expression.unplaced, Expression.unplacedAll_eq_map, Context.elaborate, Context.elaborate,
    Expression.span_unplaced, Expression.span_unplaced]
  refine .bind (ih.elaborate Γ none ht) fun x _ => ?_
  obtain ⟨t, type⟩ := x
  refine .bind ((Γ.splitTarget_relabel f hnm type).at target.span) fun y _ => ?_
  obtain ⟨F, ps, is⟩ := y
  refine .bind ((dispatch_relabel f F).at span) fun table _ => ?_
  rw [List.length_map]
  refine .ite (.throwAt rfl span) ?_
  rw [level_relabel]
  refine .bind (motiveDomains_relabel f hnm Γ.level F ps).within fun ds _ => ?_
  refine .bind (ih.elaborateMotive Γ ds hM) fun z _ => ?_
  obtain ⟨M, motiveType⟩ := z
  refine .bind (motiveLevel?_relabel f hnm Γ.level ds motiveType).within fun o _ => ?_
  cases o with
  | none => exact .within_throwAt (Γ.quote_relabel f hnm motiveType) (fun _ => rfl) motive.span
  | some u =>
    refine .bind (Γ.eval_relabel f hnm M).within fun v _ => ?_
    refine .bind (g := List.map (Term.relabel f)) ?_ fun ms' _ => ?_
    · rw [List.zip_map_left]
      refine .mapM fun x hx => ?_
      obtain ⟨method, c⟩ := x
      refine .bind (g := Constructor.relabel f) (.within ?_) fun K _ => ?_
      · rw [signature_relabel, Signature.constructor?_relabel]
        exact .orDangling _
      rw [env_relabel]
      refine .bind (methodType_relabel f hnm hf.map_none Γ.level Γ.env K ps v).within
        fun type _ => ?_
      exact .bind (ih.elaborate Γ (some type)
        (Expression.allKept_iff.1 hms method (List.of_mem_zip hx).1)) fun y _ => rfl
    · refine .bind (Γ.eval_relabel f hnm t).within fun a _ => ?_
      refine .bind (g := Value.relabel f) (.within ?_) fun result _ => ?_
      · have happly := v.applyAll_relabel (S := Γ.signature) f hnm (is ++ [a])
        rwa [List.map_append, List.map_singleton] at happly
      · refine congrArg Except.ok (Prod.ext ?_ rfl)
        dsimp only [relabelTyped]
        rw [Term.relabel, Term.relabels_eq_map]

theorem elaborate_step_unplaces {e : Expression} (expected : Option Value) (he : e.Kept f) :
    Carries (Stop.Lacks Q) (Stop.unplaced f) (relabelTyped f)
      (Context.elaborate (n + 1) Γ e expected)
      (Context.elaborate (m + 1) (Γ.relabel f) e.unplaced
        (expected.map (Value.relabel f))) := by
  cases expected with
  | none =>
    cases e with
    | var => exact Γ.elaborate_var_unplaces hf he
    | letIn => exact Γ.elaborate_letIn_unplaces hnm ih none he.1 he.2.1 he.2.2
    | typedLet => exact Γ.elaborate_typedLet_unplaces hnm ih none he.1 he.2.1 he.2.2.1 he.2.2.2
    | ascribe => exact Γ.elaborate_ascribe_unplaces hnm ih he.1 he.2
    | type span level =>
      rw [Expression.unplaced, Option.map_none, Context.elaborate, Context.elaborate]
      cases nextLevel? level with
      | none => exact .throwAt rfl span
      | some next => rfl
    | pi => exact Γ.elaborate_pi_unplaces hnm ih he.1 he.2.1 he.2.2
    | lam span => exact .throwAt rfl span
    | typedLam => exact Γ.elaborate_typedLam_unplaces hnm ih he.1 he.2.1 he.2.2
    | call => exact Γ.elaborate_call_unplaces hnm ih he.1 he.2
    | elim => exact Γ.elaborate_elim_unplaces hf hnm ih he.1 he.2.1 he.2.2
  | some type =>
    cases e with
    | letIn => exact Γ.elaborate_letIn_unplaces hnm ih (some type) he.1 he.2.1 he.2.2
    | typedLet =>
      exact Γ.elaborate_typedLet_unplaces hnm ih (some type) he.1 he.2.1 he.2.2.1 he.2.2.2
    | lam => exact Γ.elaborate_lam_unplaces hnm ih type he.1 he.2
    | typedLam => exact Γ.verify_typedLam_unplaces hnm ih type he.1 he.2.1 he.2.2
    | var span | ascribe span | type span | pi span | call span | elim span =>
      exact Γ.compare_unplaces hnm ih type he span

omit hf

theorem elaborateType_step_unplaces {e : Expression} (he : e.Kept f) :
    Carries (Stop.Lacks Q) (Stop.unplaced f) (Prod.map (Term.relabel f) id)
      (Context.elaborateType (n + 1) Γ e)
      (Context.elaborateType (m + 1) (Γ.relabel f) e.unplaced) := by
  rw [Context.elaborateType, Context.elaborateType, Expression.span_unplaced]
  refine .bind (ih.elaborate Γ none he) fun x _ => ?_
  obtain ⟨t, type⟩ := x
  cases type with
  | type level => rfl
  | neutral | pi | lam | former | con =>
    exact .within_throwAt (Γ.quote_relabel f hnm _) (fun _ => rfl) e.span

theorem elaborateMotive_step_unplaces {e : Expression} (ds : List Value) (he : e.Kept f) :
    Carries (Stop.Lacks Q) (Stop.unplaced f) (relabelTyped f)
      (Context.elaborateMotive (n + 1) Γ e ds)
      (Context.elaborateMotive (m + 1) (Γ.relabel f) e.unplaced
        (ds.map (Value.relabel f))) := by
  cases e with
  | lam span l b =>
    cases ds with
    | nil => exact ih.elaborate Γ none he
    | cons d ds =>
      rw [Expression.unplaced, List.map_cons, Context.elaborateMotive, Context.elaborateMotive]
      refine Γ.abstraction_unplaces hnm he.1 d ?_
      exact ih.elaborateMotive (Γ.bind l.value d) ds he.2
  | var | letIn | typedLet | ascribe | type | pi | typedLam | call | elim =>
    exact ih.elaborate Γ none he

end

/-- **Forgetting positions and thinning labels out commutes with elaboration**, by induction on
the fuel. -/
theorem unplaces (hf : Thins f) (hnm : FuelLe Q n m) : Unplaces f Q n m := by
  induction n generalizing m with
  | zero =>
    obtain rfl | hQ := hnm.zero
    · exact ⟨fun _ _ _ _ => .error rfl, fun _ _ _ => .error rfl, fun _ _ _ _ => .error rfl⟩
    · exact ⟨fun _ _ _ _ => .mends hQ, fun _ _ _ => .mends hQ, fun _ _ _ _ => .mends hQ⟩
  | succ n ihn =>
    obtain ⟨m, rfl, h⟩ := hnm.succ
    have ih := ihn h
    exact ⟨fun Γ _ expected he => Γ.elaborate_step_unplaces hf h ih expected he,
      fun Γ _ he => Γ.elaborateType_step_unplaces h ih he,
      fun Γ _ ds he => Γ.elaborateMotive_step_unplaces h ih ds he⟩

end Context

end Constructions
