/-
# What checking a term can complain about

The errors of the kernel are about terms or about declarations.  Of those about declarations, four
say that the registry of families was misused:

| error | because |
| --- | --- |
| `unknownFamily`, `familyFinalized` | a constructor is declared, or a family closed, where none is open |
| `parameterCount` | a former binds fewer parameters than were announced |
| `constructorParameters` | a constructor does not bind the parameters of its family |

Checking and elaborating terms never raises any of them (`Context.kernel_spares`,
`Context.elaboration_spares`): an elimination may still be refused, because its family is open or
the methods are too few, but that is no misuse.
-/

import Constructions.Elaboration
import Constructions.Proofs.Outcome

namespace Constructions

/-- The registry of families was misused. -/
def SignatureError.Misuses : SignatureError → Prop
  | .unknownFamily _ => True
  | .familyFinalized _ => True
  | .parameterCount _ _ => True
  | .constructorParameters _ => True
  | _ => False

/-- The registry of families was misused. -/
def KernelError.Misuses : KernelError → Prop
  | .signature e => e.Misuses
  | _ => False

/-- The registry of families was misused. -/
def ElaborationError.Misuses (e : ElaborationError) : Prop :=
  match e.cause with
  | .kernel e => e.Misuses
  | _ => False

/-- A halt, or an error that is not among `M`. -/
def Stop.Outside {ε : Type} (M : ε → Prop) : Stop ε → Prop
  | .halt _ => True
  | .error e => ¬ M e

/-- **A procedure spares the errors `M`:** it never ends with one of them. -/
def Spares {ε α : Type} (M : ε → Prop) (x : Except (Stop ε) α) : Prop :=
  Post x (fun _ => True) (Stop.Outside M)

namespace Spares

variable {ε α β : Type} {M : ε → Prop} {x : Except (Stop ε) α}

theorem ok (a : α) : Spares M (.ok a : Except (Stop ε) α) := trivial

theorem halt (h : Halt) : Spares M (.error (.halt h) : Except (Stop ε) α) := trivial

theorem bind {f : α → Except (Stop ε) β} (hx : Spares M x) (hf : ∀ a, x = .ok a → Spares M (f a)) :
    Spares M (x >>= f) := Post.bind hx fun a ha _ => hf a ha

/-- A computation reports no errors. -/
theorem lift (x : Except Halt α) : Spares M (liftM x : Except (Stop ε) α) := by
  cases x with
  | ok a => exact ok a
  | error h => exact halt h

theorem forM {f : α → Except (Stop ε) PUnit} {as : List α} (h : ∀ a ∈ as, Spares M (f a)) :
    Spares M (as.forM f) :=
  (Post.forM (R := fun _ => True) h).mono (fun _ _ => trivial) fun _ h => h

theorem mapM {f : α → Except (Stop ε) β} {as : List α} (h : ∀ a ∈ as, Spares M (f a)) :
    Spares M (as.mapM f) :=
  (Post.mapM (R := fun _ _ => True) h).mono (fun _ _ => trivial) fun _ h => h

theorem foldlM {f : β → α → Except (Stop ε) β} {as : List α} {b : β}
    (h : ∀ b, ∀ a ∈ as, Spares M (f b a)) : Spares M (as.foldlM f b) := by
  induction as generalizing b with
  | nil => exact ok b
  | cons a as ih =>
    rw [List.foldlM_cons]
    refine bind (h b a List.mem_cons_self) fun b' _ => ?_
    exact ih fun b x hx => h b x (List.mem_cons_of_mem a hx)

/-- The kernel's errors keep their kind when they are given a place. -/
theorem at_span {N : KernelError → Prop} {M : ElaborationError → Prop} {x : Check α}
    (h : Spares N x) {span : Span} (hM : ∀ e, M ⟨span, .kernel e⟩ → N e) :
    Spares M (x.at span) := by
  cases x with
  | ok a => exact ok a
  | error s =>
    cases s with
    | halt _ => exact halt _
    | error e => exact fun he => h (hM e he)

/-- A type error is not about declarations. -/
theorem type (e : TypeError) : Spares KernelError.Misuses (e.throw : Check α) := id

theorem signature {e : SignatureError} (he : ¬ e.Misuses) :
    Spares KernelError.Misuses (e.throw : Check α) := he

theorem throwAt {cause : ElaborationCause} {span : Span}
    (h : ¬ ElaborationError.Misuses ⟨span, cause⟩) :
    Spares ElaborationError.Misuses (cause.throwAt span : Elaborate α) := h

end Spares

namespace Context

variable {n : Nat}

/-! ### The kernel -/

theorem typeAt_spares (Γ : Context) (i : Nat) : Spares KernelError.Misuses (Γ.typeAt i) := by
  refine .bind (.lift _) fun _ _ => ?_
  cases Γ.bindings[i]? with
  | some b => exact .ok b.type
  | none => exact .type _

theorem splitTarget_spares (Γ : Context) (n : Nat) (type : Value) :
    Spares KernelError.Misuses (Γ.splitTarget n type) := by
  cases type with
  | former id as =>
    refine .bind (.lift _) fun F _ => ?_
    split
    · exact .ok _
    · exact .bind (.lift _) fun t _ => .type _
  | _ => exact .bind (.lift _) fun t _ => .type _

theorem dispatch_spares (F : Family) : Spares KernelError.Misuses (dispatch F) := by
  unfold dispatch
  split
  · exact .ok _
  · exact .signature id

/-- With `n` units of fuel, the procedures of the kernel spare the registry. -/
structure KernelSpares (n : Nat) : Prop where
  infer : ∀ Γ t, Spares KernelError.Misuses (infer n Γ t)
  check : ∀ Γ t A, Spares KernelError.Misuses (check n Γ t A)
  checkType : ∀ Γ t, Spares KernelError.Misuses (checkType n Γ t)
  inferArgument : ∀ Γ A a, Spares KernelError.Misuses (inferArgument n Γ A a)
  inferSpine : ∀ Γ k A as, Spares KernelError.Misuses (inferSpine n Γ k A as)

theorem KernelSpares.infer_elim (ih : KernelSpares n) (Γ : Context) (t M : Term) (ms : List Term) :
    Spares KernelError.Misuses (Context.infer (n + 1) Γ (.elim t M ms)) := by
  refine .bind (ih.infer Γ t) fun A _ => .bind (splitTarget_spares Γ n A) fun x _ => ?_
  obtain ⟨F, ps, is⟩ := x
  refine .bind (dispatch_spares F) fun table _ => ?_
  split
  · exact .signature id
  · refine .bind (ih.infer Γ M) fun B _ => .bind (.lift _) fun ds _ => .bind (.lift _) fun l _ => ?_
    cases l with
    | none => exact .bind (.lift _) fun q _ => .type _
    | some l =>
      refine .bind (.lift _) fun m _ => .bind (.forM fun x _ => ?_) fun _ _ =>
        .bind (.lift _) fun a _ => .lift _
      exact .bind (.lift _) fun K _ => .bind (.lift _) fun E _ => ih.check Γ x.1 E

theorem KernelSpares.infer_succ (ih : KernelSpares n) (Γ : Context) (t : Term) :
    Spares KernelError.Misuses (Context.infer (n + 1) Γ t) := by
  cases t with
  | var label i => exact typeAt_spares Γ i
  | const c =>
    rw [Context.infer]
    split
    · exact .ok _
    · exact .type _
  | letIn label A a b =>
    refine .bind (ih.checkType Γ A) fun _ _ => .bind (.lift _) fun d _ => ?_
    exact .bind (ih.check Γ a d) fun _ _ => .bind (.lift _) fun v _ => ih.infer _ b
  | type l =>
    rw [Context.infer]
    split
    · exact .ok _
    · exact .type _
  | pi label A B =>
    refine .bind (ih.checkType Γ A) fun l _ => .bind (.lift _) fun d _ => ?_
    exact .bind (ih.checkType _ B) fun m _ => .ok _
  | lam label A b =>
    refine .bind (ih.checkType Γ A) fun l _ => .bind (.lift _) fun d _ => ?_
    exact .bind (ih.infer _ b) fun B _ => .bind (.lift _) fun q _ => .ok _
  | app f a => exact .bind (ih.infer Γ f) fun A _ => ih.inferArgument Γ A a
  | former F as => exact .bind (.lift _) fun F _ => ih.inferSpine Γ F.arity F.type as
  | con c as => exact .bind (.lift _) fun K _ => ih.inferSpine Γ K.arity K.type as
  | elim t M ms => exact ih.infer_elim Γ t M ms

/-- A type that was found is compared with the one that is expected. -/
theorem KernelSpares.check_infer (ih : KernelSpares n) (Γ : Context) (t : Term) (A : Value) :
    Spares KernelError.Misuses (do
      let inferred ← Context.infer n Γ t
      if ← Γ.convert n inferred A then .ok ()
      else do
        let expected ← Γ.quote n A
        let found ← Γ.quote n inferred
        (TypeError.mismatch expected found).throw : Check Unit) := by
  refine .bind (ih.infer Γ t) fun B _ => .bind (.lift _) fun b _ => ?_
  cases b with
  | true => exact .ok ()
  | false => exact .bind (.lift _) fun q _ => .bind (.lift _) fun r _ => .type _

theorem KernelSpares.check_succ (ih : KernelSpares n) (Γ : Context) (t : Term) (A : Value) :
    Spares KernelError.Misuses (Context.check (n + 1) Γ t A) := by
  cases t with
  | lam label D b =>
    cases A with
    | pi B C =>
      refine .bind (ih.checkType Γ D) fun _ _ => .bind (.lift _) fun d _ =>
        .bind (.lift _) fun p _ => ?_
      cases p with
      | true => exact .bind (.lift _) fun C _ => ih.check _ b C
      | false => exact .bind (.lift _) fun q _ => .bind (.lift _) fun r _ => .type _
    | _ => exact ih.check_infer Γ _ _
  | letIn label D a b =>
    refine .bind (ih.checkType Γ D) fun _ _ => .bind (.lift _) fun d _ => ?_
    exact .bind (ih.check Γ a d) fun _ _ => .bind (.lift _) fun v _ => ih.check _ b A
  | _ => exact ih.check_infer Γ _ A

/-- **Checking terms spares the registry.** -/
theorem kernel_spares (n : Nat) : KernelSpares n := by
  induction n with
  | zero => exact ⟨fun _ _ => .halt _, fun _ _ _ => .halt _, fun _ _ => .halt _,
      fun _ _ _ => .halt _, fun _ _ _ _ => .halt _⟩
  | succ n ih =>
    refine ⟨ih.infer_succ, ih.check_succ, fun Γ t => ?_, fun Γ A a => ?_, fun Γ k A as => ?_⟩
    · refine .bind (ih.infer Γ t) fun A _ => ?_
      cases A with
      | type l => exact .ok l
      | _ => exact .bind (.lift _) fun q _ => .type _
    · cases A with
      | pi B C => exact .bind (ih.check Γ a B) fun _ _ => .bind (.lift _) fun v _ => .lift _
      | _ => exact .bind (.lift _) fun q _ => .type _
    · rw [Context.inferSpine]
      split
      · exact .type _
      · exact .foldlM fun B a _ => ih.inferArgument Γ B a

/-! ### Elaboration -/

theorem abstraction_spares (Γ : Context) (label : Label) (d : Value)
    {body : Context → Elaborate (Term × Value)}
    (hbody : ∀ Δ, Spares ElaborationError.Misuses (body Δ)) :
    Spares ElaborationError.Misuses (Γ.abstraction n label d body) :=
  .bind (.lift _) fun _ _ => .bind (hbody _) fun _ _ => .bind (.lift _) fun _ _ => .ok _

/-- With `n` units of fuel, elaboration spares the registry. -/
structure ElaborationSpares (n : Nat) : Prop where
  elaborate : ∀ Γ e expected, Spares ElaborationError.Misuses (elaborate n Γ e expected)
  elaborateType : ∀ Γ e, Spares ElaborationError.Misuses (elaborateType n Γ e)
  elaborateMotive : ∀ Γ e ds, Spares ElaborationError.Misuses (elaborateMotive n Γ e ds)

namespace ElaborationSpares

variable (ih : ElaborationSpares n) (Γ : Context)

include ih

theorem elaborate_elim (span : Span) (t M : Expression) (ms : List Expression) :
    Spares ElaborationError.Misuses (Context.elaborate (n + 1) Γ (.elim span t M ms) none) := by
  refine .bind (ih.elaborate Γ t none) fun x _ => ?_
  refine .bind ((splitTarget_spares Γ n x.2).at_span fun _ => id) fun y _ => ?_
  refine .bind ((dispatch_spares y.1).at_span fun _ => id) fun table _ => ?_
  split
  · exact .throwAt id
  · refine .bind (.lift _) fun ds _ => .bind (ih.elaborateMotive Γ M ds) fun z _ =>
      .bind (.lift _) fun l _ => ?_
    cases l with
    | none => exact .bind (.lift _) fun q _ => .throwAt id
    | some l =>
      refine .bind (.lift _) fun v _ => .bind (.mapM fun x _ => ?_) fun _ _ =>
        .bind (.lift _) fun a _ => .bind (.lift _) fun B _ => .ok _
      exact .bind (.lift _) fun K _ => .bind (.lift _) fun E _ =>
        .bind (ih.elaborate Γ x.1 (some E)) fun _ _ => .ok _

theorem elaborate_none (e : Expression) :
    Spares ElaborationError.Misuses (Context.elaborate (n + 1) Γ e none) := by
  cases e with
  | var span name =>
    rw [Context.elaborate]
    split
    · exact .ok _
    · split
      · exact .ok _
      · exact .throwAt id
  | letIn span label a b =>
    refine .bind (ih.elaborate Γ a none) fun x _ => .bind (.lift _) fun q _ =>
      .bind (.lift _) fun v _ => .bind (ih.elaborate _ b none) fun y _ => .ok _
  | typedLet span label A a b =>
    refine .bind (ih.elaborateType Γ A) fun x _ => .bind (.lift _) fun d _ => ?_
    exact .bind (ih.elaborate Γ a _) fun y _ => .bind (.lift _) fun v _ =>
      .bind (ih.elaborate _ b none) fun z _ => .ok _
  | ascribe span a A =>
    exact .bind (ih.elaborateType Γ A) fun x _ => .bind (.lift _) fun d _ =>
      .bind (ih.elaborate Γ a _) fun y _ => .ok _
  | type span level =>
    rw [Context.elaborate]
    split
    · exact .ok _
    · exact .throwAt id
  | pi span label A B =>
    exact .bind (ih.elaborateType Γ A) fun x _ => .bind (.lift _) fun d _ =>
      .bind (ih.elaborateType _ B) fun y _ => .ok _
  | lam span label b => exact .throwAt id
  | typedLam span label A b =>
    exact .bind (ih.elaborateType Γ A) fun x _ => .bind (.lift _) fun d _ =>
      abstraction_spares Γ _ d fun Δ => ih.elaborate Δ b none
  | call span f a =>
    refine .bind (ih.elaborate Γ f none) fun x _ => ?_
    obtain ⟨g, A⟩ := x
    cases A with
    | pi B C =>
      exact .bind (ih.elaborate Γ a _) fun y _ => .bind (.lift _) fun v _ =>
        .bind (.lift _) fun D _ => .ok _
    | _ => exact .bind (.lift _) fun q _ => .throwAt id
  | elim span t M ms => exact ih.elaborate_elim Γ span t M ms

/-- A type that was synthesized is compared with the one that is expected. -/
theorem elaborate_compare (e : Expression) (A : Value) :
    Spares ElaborationError.Misuses (do
      let (t, synthesized) ← Context.elaborate n Γ e none
      if ← Γ.convert n synthesized A then .ok (t, A)
      else do
        let found ← Γ.quote n synthesized
        let wanted ← Γ.quote n A
        (ElaborationCause.mismatch found wanted).throwAt e.span : Elaborate (Term × Value)) := by
  refine .bind (ih.elaborate Γ e none) fun x _ => .bind (.lift _) fun b _ => ?_
  cases b with
  | true => exact .ok _
  | false => exact .bind (.lift _) fun q _ => .bind (.lift _) fun r _ => .throwAt id

theorem elaborate_some (e : Expression) (A : Value) :
    Spares ElaborationError.Misuses (Context.elaborate (n + 1) Γ e (some A)) := by
  cases e with
  | letIn span label a b =>
    exact .bind (ih.elaborate Γ a none) fun x _ => .bind (.lift _) fun q _ =>
      .bind (.lift _) fun v _ => .bind (ih.elaborate _ b _) fun y _ => .ok _
  | typedLet span label D a b =>
    refine .bind (ih.elaborateType Γ D) fun x _ => .bind (.lift _) fun d _ => ?_
    exact .bind (ih.elaborate Γ a _) fun y _ => .bind (.lift _) fun v _ =>
      .bind (ih.elaborate _ b _) fun z _ => .ok _
  | lam span label b =>
    cases A with
    | pi B C =>
      exact .bind (.lift _) fun q _ => .bind (.lift _) fun C _ =>
        .bind (ih.elaborate _ b _) fun y _ => .ok _
    | _ => exact .bind (.lift _) fun q _ => .throwAt id
  | typedLam span label D b =>
    cases A with
    | pi B C =>
      refine .bind (ih.elaborateType Γ D) fun x _ => .bind (.lift _) fun d _ =>
        .bind (.lift _) fun p _ => ?_
      cases p with
      | true => exact .bind (.lift _) fun C _ => .bind (ih.elaborate _ b _) fun y _ => .ok _
      | false => exact .bind (.lift _) fun q _ => .throwAt id
    | _ => exact .bind (.lift _) fun q _ => .throwAt id
  | _ => exact ih.elaborate_compare Γ _ A

end ElaborationSpares

/-- **Elaboration spares the registry.** -/
theorem elaboration_spares (n : Nat) : ElaborationSpares n := by
  induction n with
  | zero => exact ⟨fun _ _ _ => .halt _, fun _ _ => .halt _, fun _ _ _ => .halt _⟩
  | succ n ih =>
    refine ⟨fun Γ e expected => ?_, fun Γ e => ?_, fun Γ e ds => ?_⟩
    · cases expected with
      | none => exact ih.elaborate_none Γ e
      | some A => exact ih.elaborate_some Γ e A
    · refine .bind (ih.elaborate Γ e none) fun x _ => ?_
      obtain ⟨t, A⟩ := x
      cases A with
      | type l => exact .ok _
      | _ => exact .bind (.lift _) fun q _ => .throwAt id
    · cases ds with
      | nil => cases e <;> exact ih.elaborate Γ _ none
      | cons d ds =>
        cases e with
        | lam span label b => exact abstraction_spares Γ _ d fun Δ => ih.elaborateMotive Δ b ds
        | _ => exact ih.elaborate Γ _ none

end Context

end Constructions
