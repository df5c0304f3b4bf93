/-
# The kernel does not look at labels

Relabelling commutes with inference, checking and every declaration: what is accepted, with what
type, and what is refused, with what error, is the same up to labels.

| procedure | commutes by |
| --- | --- |
| motives and methods | `motiveLevel?_relabel`, `methodType_relabel` |
| inference and checking | `Context.relabels` |
| declarations, runs of declarations | `Signature.answer_relabel`, `Signature.run_relabel` |
| two runs that differ in labels only | `Signature.run_ignores_labels` |
-/

import Constructions.Proofs.Reduction.Normal
import Constructions.Proofs.Registry.Runs
import Constructions.Proofs.Relabelling

namespace Constructions

/-! ### Errors -/

/-- A type error with the labels changed in its terms. -/
def TypeError.relabel (f : Label → Label) : TypeError → TypeError
  | .unboundVariable i => .unboundVariable i
  | .unknownConstant c => .unknownConstant c
  | .expectedUniverse t => .expectedUniverse (t.relabel f)
  | .expectedFunction t => .expectedFunction (t.relabel f)
  | .expectedInductive t => .expectedInductive (t.relabel f)
  | .overapplied arity found => .overapplied arity found
  | .invalidMotive t => .invalidMotive (t.relabel f)
  | .universeOverflow level => .universeOverflow level
  | .mismatch expected found => .mismatch (expected.relabel f) (found.relabel f)

/-- An error of the kernel with the labels changed in its terms. -/
def KernelError.relabel (f : Label → Label) : KernelError → KernelError
  | .type e => .type (e.relabel f)
  | .signature e => .signature e
  | .violation v => .violation v

/-- The end of a procedure of the kernel, with the labels changed in its terms. -/
def Stop.relabel (f : Label → Label) : Stop KernelError → Stop KernelError
  | .halt h => .halt h
  | .error e => .error (e.relabel f)

/-- A procedure halted in a way of the kind `Q`. -/
def Stop.Lacks {ε : Type} (Q : Halt → Prop) : Stop ε → Prop
  | .halt h => Q h
  | .error _ => False

variable (f : Label → Label) {Q : Halt → Prop} {S : Signature} {n m : Nat}

/-- A computation inside a procedure of the kernel. -/
theorem Carries.lift {α β : Type} {g : α → β} {x : Except Halt α} {x' : Except Halt β}
    (hx : Carries Q id g x x') :
    Carries (Stop.Lacks Q) (Stop.relabel f) g (liftM x : Check α) (liftM x' : Check β) :=
  .lifted (fun _ h => h) (fun _ => rfl) hx

/-- A computation and then an error about its result. -/
theorem Carries.lift_throw {α β γ δ : Type} {g : α → β} {k : γ → δ} {x : Except Halt α}
    {x' : Except Halt β} (hx : Carries Q id g x x') {e : α → TypeError} {e' : β → TypeError}
    (he : ∀ a, e' (g a) = (e a).relabel f) :
    Carries (Stop.Lacks Q) (Stop.relabel f) k
      ((liftM x : Check α) >>= fun a => (e a).throw)
      ((liftM x' : Check β) >>= fun b => (e' b).throw) := by
  refine .bind (.lift f hx) fun a _ => .error ?_
  rw [he]
  rfl

/-! ### Motives and methods -/

theorem motiveDomains_relabel (hnm : FuelLe Q n m) (level : Nat) (F : Family) (ps : List Value) :
    Carries Q id (List.map (Value.relabel f)) (motiveDomains S n level F ps)
      (motiveDomains (S.relabel f) m level (F.relabel f) (ps.map (Value.relabel f))) := by
  refine .bind (F.type.instantiate_relabel f hnm ps) fun type _ => ?_
  refine .bind (type.telescope_relabel f hnm level none) fun T _ => ?_
  rw [Telescope.domains_relabel, Telescope.parameters_relabel]
  refine congrArg Except.ok ?_
  rw [List.map_append, List.map_singleton, Value.relabel, Value.relabels_eq_map, List.map_append]
  rfl

theorem motiveLevel?_relabel (hnm : FuelLe Q n m) (level : Nat) (ds : List Value) (type : Value) :
    Carries Q id id (motiveLevel? S n level ds type)
      (motiveLevel? (S.relabel f) m level (ds.map (Value.relabel f)) (type.relabel f)) := by
  rw [motiveLevel?, motiveLevel?, List.length_map]
  refine .bind (type.telescope_relabel f hnm level _) fun T _ => ?_
  rw [Telescope.length_relabel, Telescope.domains_relabel]
  refine .ite (.bind (convertDomains_relabel f hnm level T.domains ds) fun b _ => ?_) rfl
  cases b with
  | false => rfl
  | true =>
    obtain ⟨binders, body⟩ := T
    cases body <;> rfl

theorem Value.indices_relabel (p : Nat) (v : Value) :
    Carries Q id (List.map (Value.relabel f)) (v.indices p) ((v.relabel f).indices p) := by
  cases v with
  | former F as =>
    rw [Value.relabel, Value.relabels_eq_map, Value.indices, Value.indices, List.length_map,
      ← List.map_drop]
    exact .ite rfl (.error rfl)
  | neutral | type | pi | lam | con => rfl

theorem motiveAt_relabel (hnm : FuelLe Q n m) (p : Nat) (M type a : Value) :
    Carries Q id (Value.relabel f) (motiveAt S n p M type a)
      (motiveAt (S.relabel f) m p (M.relabel f) (type.relabel f) (a.relabel f)) := by
  refine .bind (type.indices_relabel f p) fun is _ => ?_
  have happly := M.applyAll_relabel (S := S) f hnm (is ++ [a])
  rwa [List.map_append, List.map_singleton] at happly

theorem hypothesis_relabel (hnm : FuelLe Q n m) (p : Nat) (T : Telescope) (M : Value)
    (position : Nat) :
    Carries Q id (Value.relabel f) (hypothesis S n p T M position)
      (hypothesis (S.relabel f) m p (T.relabel f) (M.relabel f) position) := by
  rw [hypothesis, hypothesis, Telescope.relabel, List.getElem?_map]
  exact .bind (.orDangling _) fun b _ => motiveAt_relabel f hnm p M b.domain b.parameter

theorem readBackPis_relabel (hnm : FuelLe Q n m) (level : Nat) (bs : List (Label × Value))
    {body body' : Except Halt Term} (hbody : Carries Q id (Term.relabel f) body body') :
    Carries Q id (Term.relabel f) (readBackPis S n level bs body)
      (readBackPis (S.relabel f) m level (bs.map fun b => (f b.1, b.2.relabel f)) body') := by
  induction bs generalizing level with
  | nil => exact hbody
  | cons b bs ih =>
    obtain ⟨l, d⟩ := b
    exact .bind (ih (level + 1)) fun b' _ => .bind ((readBack_relabel f hnm).1 level d)
      fun d' _ => rfl

/-- **Relabelling commutes with the type of a method.** -/
theorem methodType_relabel (hnm : FuelLe Q n m) (hf : f none = none) (level : Nat) (env : Env)
    (K : Constructor) (ps : List Value) (M : Value) :
    Carries Q id (Value.relabel f) (methodType S n level env K ps M)
      (methodType (S.relabel f) m level (env.map (Value.relabel f)) (K.relabel f)
        (ps.map (Value.relabel f)) (M.relabel f)) := by
  refine .bind (K.type.instantiate_relabel f hnm ps) fun type _ => ?_
  refine .bind (type.telescope_relabel f hnm level (some K.fieldCount)) fun T _ => ?_
  refine .bind (.mapM_same fun i _ => hypothesis_relabel f hnm K.parameterCount T M i)
    fun hs _ => ?_
  have hcon : (Value.con K.id (ps ++ T.parameters)).relabel f =
      .con K.id (ps.map (Value.relabel f) ++ (T.relabel f).parameters) := by
    rw [Value.relabel, Value.relabels_eq_map, List.map_append, Telescope.parameters_relabel]
  have hbinders : (T.binders.map (fun b : OpenedBinder => (b.label, b.domain)) ++
      hs.map ((none : Label), ·)).map
      (fun b : Label × Value => (f b.1, b.2.relabel f)) =
      (T.relabel f).binders.map (fun b : OpenedBinder => (b.label, b.domain)) ++
        (hs.map (Value.relabel f)).map (none, ·) := by
    simp [Telescope.relabel, OpenedBinder.relabel, hf, Function.comp_def]
  refine .bind (g := Value.relabel f) ?_ fun result _ => ?_
  · have hmotive := motiveAt_relabel (S := S) f hnm K.parameterCount M T.body
      (.con K.id (ps ++ T.parameters))
    rwa [hcon] at hmotive
  refine .bind (g := Term.relabel f) ?_ fun t _ => (eval_relabel f hnm).1 env t
  rw [← hbinders, List.length_map]
  exact readBackPis_relabel f hnm level _ ((readBack_relabel f hnm).1 _ result)

/-! ### Contexts -/

/-- A variable in scope with its labels changed. -/
def Binding.relabel (b : Binding) : Binding := ⟨f b.label, b.type.relabel f, b.value.relabel f⟩

/-- A context with its labels changed. -/
def Context.relabel (Γ : Context) : Context :=
  ⟨Γ.signature.relabel f, Γ.bindings.map (Binding.relabel f)⟩

namespace Context

variable (Γ : Context)

@[simp] theorem signature_relabel : (Γ.relabel f).signature = Γ.signature.relabel f := rfl

@[simp] theorem level_relabel : (Γ.relabel f).level = Γ.level := List.length_map _

@[simp] theorem env_relabel : (Γ.relabel f).env = Γ.env.map (Value.relabel f) := by
  simp [env, relabel, Binding.relabel]

theorem define_relabel (l : Label) (type value : Value) :
    (Γ.define l type value).relabel f =
      (Γ.relabel f).define (f l) (type.relabel f) (value.relabel f) := rfl

theorem bind_relabel (l : Label) (type : Value) :
    (Γ.bind l type).relabel f = (Γ.relabel f).bind (f l) (type.relabel f) := by
  rw [bind, define_relabel, bind, level_relabel]
  rfl

theorem eval_relabel (hnm : FuelLe Q n m) (t : Term) :
    Carries Q id (Value.relabel f) (Γ.eval n t) ((Γ.relabel f).eval m (t.relabel f)) := by
  rw [Context.eval, Context.eval, env_relabel]
  exact (Constructions.eval_relabel f hnm).1 Γ.env t

theorem quote_relabel (hnm : FuelLe Q n m) (v : Value) :
    Carries Q id (Term.relabel f) (Γ.quote n v) ((Γ.relabel f).quote m (v.relabel f)) := by
  rw [quote, quote, level_relabel]
  exact (readBack_relabel f hnm).1 Γ.level v

theorem convert_relabel (hnm : FuelLe Q n m) (l r : Value) :
    Carries Q id id (Γ.convert n l r) ((Γ.relabel f).convert m (l.relabel f) (r.relabel f)) := by
  rw [convert, convert, level_relabel]
  exact (Constructions.convert_relabel f hnm).1 Γ.level l r

theorem typeAt_relabel (i : Nat) :
    Carries (Stop.Lacks Q) (Stop.relabel f) (Value.relabel f) (Γ.typeAt i)
      ((Γ.relabel f).typeAt i) := by
  refine .bind (.lift f (.refl (nextNumber i))) fun _ _ => ?_
  rw [relabel, List.getElem?_map]
  cases Γ.bindings[i]? with
  | none => exact .error rfl
  | some b => rfl

/-- The family, parameters and indices of a target, with their labels changed. -/
def relabelTarget (x : Family × List Value × List Value) : Family × List Value × List Value :=
  (x.1.relabel f, x.2.1.map (Value.relabel f), x.2.2.map (Value.relabel f))

theorem splitTarget_relabel (hnm : FuelLe Q n m) (type : Value) :
    Carries (Stop.Lacks Q) (Stop.relabel f) (relabelTarget f) (Γ.splitTarget n type)
      ((Γ.relabel f).splitTarget m (type.relabel f)) := by
  have hrefuse {k : Family × List Value × List Value → Family × List Value × List Value} :
      Carries (Stop.Lacks Q) (Stop.relabel f) k
        ((liftM (Γ.quote n type) : Check Term) >>= fun t => (TypeError.expectedInductive t).throw)
        ((liftM ((Γ.relabel f).quote m (type.relabel f)) : Check Term) >>= fun t =>
          (TypeError.expectedInductive t).throw) :=
    .lift_throw f (Γ.quote_relabel f hnm type) fun _ => rfl
  cases type with
  | former id as =>
    refine .bind (g := Family.relabel f) (.lift f ?_) fun F _ => ?_
    · rw [signature_relabel, Signature.family?_relabel]
      exact .orDangling _
    rw [Value.relabels_eq_map, List.length_map, ← List.map_take, ← List.map_drop]
    exact .ite rfl hrefuse
  | neutral | type | pi | lam | con => exact hrefuse

theorem dispatch_relabel (F : Family) :
    Carries (Stop.Lacks Q) (Stop.relabel f) id (dispatch F) (dispatch (F.relabel f)) := by
  change Carries _ _ _ (dispatch F) (dispatch F)
  unfold dispatch
  cases F.dispatch? with
  | none => exact .error rfl
  | some cs => rfl

/-! ### Inference and checking -/

/-- Relabelling commutes with inference and checking, where the second run has `m` units of fuel
for the `n` of the first. -/
structure Relabels (Q : Halt → Prop) (n m : Nat) : Prop where
  infer : ∀ Γ t, Carries (Stop.Lacks Q) (Stop.relabel f) (Value.relabel f) (Context.infer n Γ t)
    (Context.infer m (Γ.relabel f) (t.relabel f))
  check : ∀ Γ t type, Carries (Stop.Lacks Q) (Stop.relabel f) id (Context.check n Γ t type)
    (Context.check m (Γ.relabel f) (t.relabel f) (type.relabel f))
  checkType : ∀ Γ t, Carries (Stop.Lacks Q) (Stop.relabel f) id (Context.checkType n Γ t)
    (Context.checkType m (Γ.relabel f) (t.relabel f))
  inferArgument : ∀ Γ type a, Carries (Stop.Lacks Q) (Stop.relabel f) (Value.relabel f)
    (Context.inferArgument n Γ type a)
    (Context.inferArgument m (Γ.relabel f) (type.relabel f) (a.relabel f))
  inferSpine : ∀ Γ k type as, Carries (Stop.Lacks Q) (Stop.relabel f) (Value.relabel f)
    (Context.inferSpine n Γ k type as)
    (Context.inferSpine m (Γ.relabel f) k (type.relabel f) (as.map (Term.relabel f)))

section

variable {f} (hf : f none = none) (hnm : FuelLe Q n m) (ih : Relabels f Q n m)

include hnm ih

theorem infer_letIn_relabel (l : Label) (A a b : Term) :
    Carries (Stop.Lacks Q) (Stop.relabel f) (Value.relabel f)
      (Context.infer (n + 1) Γ (.letIn l A a b))
      (Context.infer (m + 1) (Γ.relabel f) ((Term.letIn l A a b).relabel f)) := by
  refine .bind (ih.checkType Γ A) fun _ _ => .bind (.lift f (Γ.eval_relabel f hnm A)) fun d _ => ?_
  refine .bind (ih.check Γ a d) fun _ _ => .bind (.lift f (Γ.eval_relabel f hnm a)) fun v _ => ?_
  exact ih.infer (Γ.define l d v) b

theorem infer_pi_relabel (l : Label) (A B : Term) :
    Carries (Stop.Lacks Q) (Stop.relabel f) (Value.relabel f)
      (Context.infer (n + 1) Γ (.pi l A B))
      (Context.infer (m + 1) (Γ.relabel f) ((Term.pi l A B).relabel f)) := by
  refine .bind (ih.checkType Γ A) fun u _ => .bind (.lift f (Γ.eval_relabel f hnm A)) fun d _ => ?_
  rw [← bind_relabel]
  exact .bind (ih.checkType (Γ.bind l d) B) fun w _ => rfl

theorem infer_lam_relabel (l : Label) (A b : Term) :
    Carries (Stop.Lacks Q) (Stop.relabel f) (Value.relabel f)
      (Context.infer (n + 1) Γ (.lam l A b))
      (Context.infer (m + 1) (Γ.relabel f) ((Term.lam l A b).relabel f)) := by
  refine .bind (ih.checkType Γ A) fun _ _ => .bind (.lift f (Γ.eval_relabel f hnm A)) fun d _ => ?_
  rw [← bind_relabel]
  refine .bind (ih.infer (Γ.bind l d) b) fun type _ => ?_
  refine .bind (.lift f ((Γ.bind l d).quote_relabel f hnm type)) fun B _ => ?_
  rw [env_relabel, ← Closure.relabel_mk]
  rfl

include hf

theorem infer_elim_relabel (t M : Term) (ms : List Term) :
    Carries (Stop.Lacks Q) (Stop.relabel f) (Value.relabel f)
      (Context.infer (n + 1) Γ (.elim t M ms))
      (Context.infer (m + 1) (Γ.relabel f) ((Term.elim t M ms).relabel f)) := by
  rw [Term.relabel, Term.relabels_eq_map, Context.infer, Context.infer]
  refine .bind (ih.infer Γ t) fun type _ => ?_
  refine .bind (Γ.splitTarget_relabel f hnm type) fun x _ => ?_
  obtain ⟨F, ps, is⟩ := x
  refine .bind (dispatch_relabel f F) fun table _ => ?_
  rw [List.length_map]
  refine .ite (.error rfl) ?_
  refine .bind (ih.infer Γ M) fun motiveType _ => ?_
  rw [level_relabel]
  refine .bind (.lift f (motiveDomains_relabel f hnm Γ.level F ps)) fun ds _ => ?_
  refine .bind (.lift f (motiveLevel?_relabel f hnm Γ.level ds motiveType)) fun o _ => ?_
  cases o with
  | none => exact .lift_throw f (Γ.quote_relabel f hnm motiveType) fun _ => rfl
  | some u =>
    refine .bind (.lift f (Γ.eval_relabel f hnm M)) fun v _ => ?_
    refine .bind (g := id) ?_ fun _ _ => ?_
    · rw [List.zip_map_left]
      refine .forM fun x _ => ?_
      obtain ⟨method, c⟩ := x
      refine .bind (g := Constructor.relabel f) (.lift f ?_) fun K _ => ?_
      · rw [signature_relabel, Signature.constructor?_relabel]
        exact .orDangling _
      rw [env_relabel]
      exact .bind (.lift f (methodType_relabel f hnm hf Γ.level Γ.env K ps v)) fun type _ =>
        ih.check Γ method type
    · refine .bind (.lift f (Γ.eval_relabel f hnm t)) fun a _ => .lift f ?_
      have happly := v.applyAll_relabel (S := Γ.signature) f hnm (is ++ [a])
      rwa [List.map_append, List.map_singleton] at happly

theorem infer_step_relabel (t : Term) :
    Carries (Stop.Lacks Q) (Stop.relabel f) (Value.relabel f) (Context.infer (n + 1) Γ t)
      (Context.infer (m + 1) (Γ.relabel f) (t.relabel f)) := by
  cases t with
  | var l i => exact Γ.typeAt_relabel f i
  | const c =>
    rw [Term.relabel, Context.infer, Context.infer, signature_relabel, Signature.global?_relabel]
    cases Γ.signature.global? c with
    | none => exact .error rfl
    | some g => rfl
  | letIn l A a b => exact infer_letIn_relabel Γ hnm ih l A a b
  | type u =>
    rw [Term.relabel, Context.infer, Context.infer]
    cases nextLevel? u with
    | none => exact .error rfl
    | some next => rfl
  | pi l A B => exact infer_pi_relabel Γ hnm ih l A B
  | lam l A b => exact infer_lam_relabel Γ hnm ih l A b
  | app g a => exact .bind (ih.infer Γ g) fun type _ => ih.inferArgument Γ type a
  | former F as =>
    rw [Term.relabel, Term.relabels_eq_map, Context.infer, Context.infer, signature_relabel,
      Signature.family?_relabel]
    exact .bind (.lift f (.orDangling _)) fun D _ => ih.inferSpine Γ D.arity D.type as
  | con c as =>
    rw [Term.relabel, Term.relabels_eq_map, Context.infer, Context.infer, signature_relabel,
      Signature.constructor?_relabel]
    exact .bind (.lift f (.orDangling _)) fun K _ => ih.inferSpine Γ K.arity K.type as
  | elim t M ms => exact infer_elim_relabel Γ hf hnm ih t M ms

omit hf

theorem compare_relabel (t : Term) (type : Value) :
    Carries (Stop.Lacks Q) (Stop.relabel f) id
      (do
        let inferred ← Context.infer n Γ t
        if ← Γ.convert n inferred type then .ok ()
        else do
          let expected ← Γ.quote n type
          let found ← Γ.quote n inferred
          (TypeError.mismatch expected found).throw)
      (do
        let inferred ← Context.infer m (Γ.relabel f) (t.relabel f)
        if ← (Γ.relabel f).convert m inferred (type.relabel f) then .ok ()
        else do
          let expected ← (Γ.relabel f).quote m (type.relabel f)
          let found ← (Γ.relabel f).quote m inferred
          (TypeError.mismatch expected found).throw) := by
  refine .bind (ih.infer Γ t) fun inferred _ => ?_
  refine .bind (.lift f (Γ.convert_relabel f hnm inferred type)) fun b _ => ?_
  cases b with
  | true => rfl
  | false =>
    refine .bind (.lift f (Γ.quote_relabel f hnm type)) fun expected _ => ?_
    exact .lift_throw f (Γ.quote_relabel f hnm inferred) fun _ => rfl

theorem check_lam_relabel (l : Label) (A b : Term) (base : Value) (family : Closure) :
    Carries (Stop.Lacks Q) (Stop.relabel f) id
      (Context.check (n + 1) Γ (.lam l A b) (.pi base family))
      (Context.check (m + 1) (Γ.relabel f) ((Term.lam l A b).relabel f)
        ((Value.pi base family).relabel f)) := by
  refine .bind (ih.checkType Γ A) fun _ _ => .bind (.lift f (Γ.eval_relabel f hnm A)) fun d _ => ?_
  refine .bind (.lift f (Γ.convert_relabel f hnm d base)) fun eq _ => ?_
  cases eq with
  | true =>
    refine .bind (g := Value.relabel f) (.lift f ?_) fun codomain _ => ?_
    · rw [level_relabel]
      exact family.enter_relabel f hnm Γ.level
    · rw [← bind_relabel]
      exact ih.check (Γ.bind l d) b codomain
  | false =>
    refine .bind (.lift f (Γ.quote_relabel f hnm base)) fun expected _ => ?_
    exact .lift_throw f (Γ.quote_relabel f hnm d) fun _ => rfl

theorem check_step_relabel (t : Term) (type : Value) :
    Carries (Stop.Lacks Q) (Stop.relabel f) id (Context.check (n + 1) Γ t type)
      (Context.check (m + 1) (Γ.relabel f) (t.relabel f) (type.relabel f)) := by
  cases t with
  | lam l A b =>
    cases type with
    | pi base family => exact check_lam_relabel Γ hnm ih l A b base family
    | neutral k => exact compare_relabel Γ hnm ih (.lam l A b) (.neutral k)
    | type u => exact compare_relabel Γ hnm ih (.lam l A b) (.type u)
    | lam d c => exact compare_relabel Γ hnm ih (.lam l A b) (.lam d c)
    | former F as => exact compare_relabel Γ hnm ih (.lam l A b) (.former F as)
    | con c as => exact compare_relabel Γ hnm ih (.lam l A b) (.con c as)
  | letIn l A a b =>
    refine .bind (ih.checkType Γ A) fun _ _ => .bind (.lift f (Γ.eval_relabel f hnm A))
      fun d _ => ?_
    refine .bind (ih.check Γ a d) fun _ _ => .bind (.lift f (Γ.eval_relabel f hnm a)) fun v _ => ?_
    exact ih.check (Γ.define l d v) b type
  | var l i => exact compare_relabel Γ hnm ih (.var l i) type
  | const c => exact compare_relabel Γ hnm ih (.const c) type
  | type u => exact compare_relabel Γ hnm ih (.type u) type
  | pi l A B => exact compare_relabel Γ hnm ih (.pi l A B) type
  | app g a => exact compare_relabel Γ hnm ih (.app g a) type
  | former F as => exact compare_relabel Γ hnm ih (.former F as) type
  | con c as => exact compare_relabel Γ hnm ih (.con c as) type
  | elim t M ms => exact compare_relabel Γ hnm ih (.elim t M ms) type

theorem checkType_step_relabel (t : Term) :
    Carries (Stop.Lacks Q) (Stop.relabel f) id (Context.checkType (n + 1) Γ t)
      (Context.checkType (m + 1) (Γ.relabel f) (t.relabel f)) := by
  refine .bind (ih.infer Γ t) fun type _ => ?_
  have hrefuse : Carries (Stop.Lacks Q) (Stop.relabel f) (id : UInt64 → UInt64)
      ((liftM (Γ.quote n type) : Check Term) >>= fun t => (TypeError.expectedUniverse t).throw)
      ((liftM ((Γ.relabel f).quote m (type.relabel f)) : Check Term) >>= fun t =>
        (TypeError.expectedUniverse t).throw) :=
    .lift_throw f (Γ.quote_relabel f hnm type) fun _ => rfl
  cases type with
  | type u => rfl
  | neutral | pi | lam | former | con => exact hrefuse

theorem inferArgument_step_relabel (type : Value) (a : Term) :
    Carries (Stop.Lacks Q) (Stop.relabel f) (Value.relabel f)
      (Context.inferArgument (n + 1) Γ type a)
      (Context.inferArgument (m + 1) (Γ.relabel f) (type.relabel f) (a.relabel f)) := by
  have hrefuse : Carries (Stop.Lacks Q) (Stop.relabel f) (Value.relabel f)
      ((liftM (Γ.quote n type) : Check Term) >>= fun t => (TypeError.expectedFunction t).throw)
      ((liftM ((Γ.relabel f).quote m (type.relabel f)) : Check Term) >>= fun t =>
        (TypeError.expectedFunction t).throw) :=
    .lift_throw f (Γ.quote_relabel f hnm type) fun _ => rfl
  cases type with
  | pi base family =>
    refine .bind (ih.check Γ a base) fun _ _ => .bind (.lift f (Γ.eval_relabel f hnm a))
      fun v _ => ?_
    exact .lift f (family.instantiate_relabel f hnm v)
  | neutral | type | lam | former | con => exact hrefuse

end

/-- **Relabelling commutes with inference and checking**, by induction on the fuel. -/
theorem relabels (hf : f none = none) (hnm : FuelLe Q n m) : Relabels f Q n m := by
  induction n generalizing m with
  | zero =>
    obtain rfl | hQ := hnm.zero
    · exact ⟨fun _ _ => .error rfl, fun _ _ _ => .error rfl, fun _ _ => .error rfl,
        fun _ _ _ => .error rfl, fun _ _ _ _ => .error rfl⟩
    · exact ⟨fun _ _ => .mends hQ, fun _ _ _ => .mends hQ, fun _ _ => .mends hQ,
        fun _ _ _ => .mends hQ, fun _ _ _ _ => .mends hQ⟩
  | succ n ihn =>
    obtain ⟨m, rfl, h⟩ := hnm.succ
    have ih := ihn h
    refine ⟨fun Γ => infer_step_relabel Γ hf h ih, fun Γ => check_step_relabel Γ h ih,
      fun Γ => checkType_step_relabel Γ h ih, fun Γ => inferArgument_step_relabel Γ h ih,
      fun Γ k type as => ?_⟩
    rw [Context.inferSpine, Context.inferSpine, List.length_map]
    exact .ite (.error rfl) (.foldlM fun type a _ => ih.inferArgument Γ type a)

end Context

/-! ### Declarations -/

mutual

theorem Term.mentions_relabel (F : FamilyId) : ∀ t : Term, (t.relabel f).mentions F = t.mentions F
  | .var _ _ => rfl
  | .const _ => rfl
  | .letIn _ A a b => by
    rw [Term.relabel, Term.mentions, Term.mentions, A.mentions_relabel F, a.mentions_relabel F,
      b.mentions_relabel F]
  | .type _ => rfl
  | .pi _ A B => by
    rw [Term.relabel, Term.mentions, Term.mentions, A.mentions_relabel F, B.mentions_relabel F]
  | .lam _ A b => by
    rw [Term.relabel, Term.mentions, Term.mentions, A.mentions_relabel F, b.mentions_relabel F]
  | .app g a => by
    rw [Term.relabel, Term.mentions, Term.mentions, g.mentions_relabel F, a.mentions_relabel F]
  | .former _ as => by
    rw [Term.relabel, Term.mentions, Term.mentions, Term.mentionsAny_relabel F as]
  | .con _ as => by rw [Term.relabel, Term.mentions, Term.mentions, Term.mentionsAny_relabel F as]
  | .elim t M ms => by
    rw [Term.relabel, Term.mentions, Term.mentions, t.mentions_relabel F, M.mentions_relabel F,
      Term.mentionsAny_relabel F ms]

theorem Term.mentionsAny_relabel (F : FamilyId) :
    ∀ ts : List Term, Term.mentionsAny F (Term.relabels f ts) = Term.mentionsAny F ts
  | [] => rfl
  | t :: ts => by
    rw [Term.relabels, Term.mentionsAny, Term.mentionsAny, t.mentions_relabel F,
      Term.mentionsAny_relabel F ts]

end

namespace Signature

theorem addFamily_relabel (S : Signature) (name : Name) (p i : Nat) (type : Value) :
    (S.relabel f).addFamily name p i (type.relabel f) =
      ((S.addFamily name p i type).1.relabel f, (S.addFamily name p i type).2) := by
  simp [addFamily, relabel, Family.relabel]

theorem setFamily_relabel (S : Signature) (F : Family) :
    (S.setFamily F).relabel f = (S.relabel f).setFamily (F.relabel f) := by
  simp [setFamily, relabel, Family.relabel, Array.map_setIfInBounds]

theorem addConstructor_relabel (S : Signature) (name : Name) (F : Family) (k : Nat) (r : List Nat)
    (type : Value) :
    (S.relabel f).addConstructor name (F.relabel f) k r (type.relabel f) =
      ((S.addConstructor name F k r type).1.relabel f,
        (S.addConstructor name F k r type).2) := by
  simp [addConstructor, setFamily, relabel, Family.relabel, Family.constructors,
    Constructor.relabel, Array.map_setIfInBounds]

variable {f} (S : Signature)

theorem reserve_relabel (name : Name) :
    Carries (Stop.Lacks Q) (Stop.relabel f) id (S.reserve name) ((S.relabel f).reserve name) := by
  rw [reserve, reserve, entry?_relabel]
  cases S.entry? name with
  | none => rfl
  | some e => exact .error rfl

theorem familyNamed_relabel (name : Name) :
    Carries (Stop.Lacks Q) (Stop.relabel f) (Family.relabel f) (S.familyNamed name)
      ((S.relabel f).familyNamed name) := by
  rw [familyNamed, familyNamed, familyNamed?, familyNamed?, entry?_relabel]
  cases S.entry? name with
  | none => exact .error rfl
  | some e =>
    cases e with
    | global => exact .error rfl
    | constructor id => exact .error rfl
    | family id =>
      dsimp only
      rw [family?_relabel]
      cases S.family? id with
      | none => exact .error rfl
      | some F => rfl

theorem closeFamily_relabel (family : Name) :
    Carries (Stop.Lacks Q) (Stop.relabel f) (fun x => (x.1.relabel f, x.2)) (S.closeFamily family)
      ((S.relabel f).closeFamily family) := by
  refine .bind (S.familyNamed_relabel family) fun F _ => ?_
  refine .ite (.error rfl) (.ite (.error rfl) ?_)
  refine congrArg (fun S => Except.ok (S, F.id)) ?_
  exact (S.setFamily_relabel f { F with state := .finalized (.build F.constructors) }).symm

variable (hnm : FuelLe Q n m)

include hnm

theorem noneMentions_relabel (level : Nat) (F : FamilyId) (vs : List Value) :
    Carries Q id id (S.noneMentions n level F vs)
      ((S.relabel f).noneMentions m level F (vs.map (Value.relabel f))) := by
  induction vs with
  | nil => rfl
  | cons v vs ih =>
    refine .bind ((readBack_relabel f hnm).1 level v) fun t _ => ?_
    rw [Term.mentions_relabel]
    exact .ite rfl ih

theorem isUniform_relabel (F : Family) (ps : List Value) (level : Nat) (v : Value) :
    Carries Q id id (S.isUniform n F ps level v)
      ((S.relabel f).isUniform m (F.relabel f) (ps.map (Value.relabel f)) level (v.relabel f)) := by
  cases v with
  | former id as =>
    rw [Value.relabel, Value.relabels_eq_map, isUniform, isUniform, List.length_map,
      ← List.map_take, ← List.map_drop]
    refine .ite (.and ?_ (S.noneMentions_relabel hnm level F.id _)) rfl
    exact convertList_relabel ((convert_relabel f hnm).1 level) _ ps
  | neutral | type | pi | lam | con => rfl

theorem recursivePositions_relabel (F : Family) (ps : List Value) (name : Name) (position : Nat)
    (ds : List Value) :
    Carries (Stop.Lacks Q) (Stop.relabel f) id (S.recursivePositions n F ps name position ds)
      ((S.relabel f).recursivePositions m (F.relabel f) (ps.map (Value.relabel f)) name position
        (ds.map (Value.relabel f))) := by
  induction ds generalizing position with
  | nil => rfl
  | cons d ds ih =>
    refine .bind (.lift f (S.isUniform_relabel hnm F ps position d)) fun b _ => ?_
    cases b with
    | true => exact .bind (ih (position + 1)) fun rest _ => rfl
    | false =>
      refine .bind (.lift f ((readBack_relabel f hnm).1 position d)) fun t _ => ?_
      rw [Term.mentions_relabel]
      exact .ite (.error rfl) (ih (position + 1))

variable (hf : f none = none)

include hf

theorem admitType_relabel (type : Term) :
    Carries (Stop.Lacks Q) (Stop.relabel f) (Value.relabel f) (S.admitType n type)
      ((S.relabel f).admitType m (type.relabel f)) := by
  refine .bind ((Context.relabels f hf hnm).checkType (.empty S) type) fun _ _ => ?_
  exact .lift f ((eval_relabel f hnm).1 [] type)

theorem postulate_relabel (name : Name) (type : Term) :
    Carries (Stop.Lacks Q) (Stop.relabel f) (Signature.relabel f) (S.postulate n name type)
      ((S.relabel f).postulate m name (type.relabel f)) :=
  .bind (S.reserve_relabel name) fun _ _ => .bind (S.admitType_relabel hnm hf type) fun _ _ => rfl

theorem define_relabel (name : Name) (type value : Term) :
    Carries (Stop.Lacks Q) (Stop.relabel f) (Signature.relabel f) (S.define n name type value)
      ((S.relabel f).define m name (type.relabel f) (value.relabel f)) := by
  refine .bind (S.reserve_relabel name) fun _ _ => .bind (S.admitType_relabel hnm hf type)
    fun A _ => ?_
  refine .bind ((Context.relabels f hf hnm).check (.empty S) value A) fun _ _ => ?_
  exact .bind (.lift f ((eval_relabel f hnm).1 [] value)) fun _ _ => rfl

omit hf in
theorem indexCount_relabel (name : Name) (p : Nat) (A : Value) :
    Carries (Stop.Lacks Q) (Stop.relabel f) id (S.indexCount n name p A)
      ((S.relabel f).indexCount m name p (A.relabel f)) := by
  refine .bind (.lift f (A.telescope_relabel f hnm 0 none)) fun T _ => ?_
  rw [Telescope.length_relabel]
  refine .ite (.error rfl) ?_
  rw [Telescope.relabel]
  cases T.body with
  | type u => rfl
  | neutral | pi | lam | former | con => exact .error rfl

theorem openFamily_relabel (name : Name) (p : Nat) (type : Term) :
    Carries (Stop.Lacks Q) (Stop.relabel f) (fun x => (x.1.relabel f, x.2))
      (S.openFamily n name p type) ((S.relabel f).openFamily m name p (type.relabel f)) := by
  refine .bind (S.reserve_relabel name) fun _ _ => .bind (S.admitType_relabel hnm hf type)
    fun A _ => ?_
  refine .bind (S.indexCount_relabel hnm name p A) fun i _ => ?_
  exact congrArg Except.ok (addFamily_relabel f S name p i A)

omit hf in
theorem constructorFields_relabel (F : Family) (name : Name) (A : Value) :
    Carries (Stop.Lacks Q) (Stop.relabel f) id (S.constructorFields n F name A)
      ((S.relabel f).constructorFields m (F.relabel f) name (A.relabel f)) := by
  refine .bind (.lift f (A.telescope_relabel f hnm 0 (some F.parameterCount))) fun P _ => ?_
  refine .bind (.lift f (F.type.telescope_relabel f hnm 0 (some F.parameterCount))) fun E _ => ?_
  rw [Telescope.length_relabel, Telescope.domains_relabel, Telescope.domains_relabel]
  refine .ite_bind (.lift f (convertDomains_relabel f hnm 0 P.domains E.domains)) rfl
    fun agree => ?_
  refine .ite (.error rfl) ?_
  refine .bind (.lift f (P.body.telescope_relabel f hnm F.parameterCount none)) fun T _ => ?_
  rw [Telescope.domains_relabel, Telescope.parameters_relabel, Telescope.length_relabel]
  refine .bind (S.recursivePositions_relabel hnm F P.parameters name _ T.domains) fun r _ => ?_
  refine .bind (.lift f (S.isUniform_relabel hnm F P.parameters _ T.body)) fun b _ => ?_
  cases b with
  | true => rfl
  | false => exact .error rfl

/-- **Relabelling commutes with the declaration of a constructor.** -/
theorem declareConstructor_relabel (family name : Name) (type : Term) :
    Carries (Stop.Lacks Q) (Stop.relabel f) (fun x => (x.1.relabel f, x.2))
      (S.declareConstructor n family name type)
      ((S.relabel f).declareConstructor m family name (type.relabel f)) := by
  refine .bind (S.familyNamed_relabel family) fun F _ => .ite (.error rfl) ?_
  refine .bind (S.reserve_relabel name) fun _ _ => .bind (S.admitType_relabel hnm hf type)
    fun A _ => ?_
  refine .bind (S.constructorFields_relabel hnm F name A) fun x _ => ?_
  exact congrArg Except.ok (addConstructor_relabel f S name F x.1 x.2 A)

omit hnm hf

/-- A request with its labels changed. -/
def Request.relabel (f : Label → Label) : Request → Request
  | .postulate name type => .postulate name (type.relabel f)
  | .define name type value => .define name (type.relabel f) (value.relabel f)
  | .openFamily name p type => .openFamily name p (type.relabel f)
  | .declareConstructor family name type => .declareConstructor family name (type.relabel f)
  | .closeFamily family => .closeFamily family

/-- **Relabelling commutes with the answer to a request.** -/
theorem answer_relabel (hnm : FuelLe Q n m) (hf : f none = none) (r : Request) :
    Carries (Stop.Lacks Q) (Stop.relabel f) (Signature.relabel f) (S.answer n r)
      ((S.relabel f).answer m (r.relabel f)) := by
  cases r with
  | postulate name type => exact S.postulate_relabel hnm hf name type
  | define name type value => exact S.define_relabel hnm hf name type value
  | openFamily name p type => exact .bind (S.openFamily_relabel hnm hf name p type) fun _ _ => rfl
  | declareConstructor family name type =>
    exact .bind (S.declareConstructor_relabel hnm hf family name type) fun _ _ => rfl
  | closeFamily family => exact .bind (S.closeFamily_relabel family) fun _ _ => rfl

theorem after_relabel (hf : f none = none) (n : Nat) (r : Request) :
    (S.after n r).relabel f = (S.relabel f).after n (r.relabel f) := by
  have h := S.answer_relabel (.refl n) hf r
  rw [after_eq, after_eq]
  cases hr : S.answer n r with
  | ok S' => rw [h.eq_ok hr]
  | error s =>
    rw [hr] at h
    obtain hs | h := h
    · cases s <;> exact hs.elim
    · rw [h]

/-- **Relabelling commutes with runs of declarations.** -/
theorem run_relabel (hf : f none = none) (rs : List (Nat × Request)) :
    (S.run rs).relabel f = (S.relabel f).run (rs.map fun r => (r.1, r.2.relabel f)) := by
  induction rs generalizing S with
  | nil => rfl
  | cons r rs ih =>
    rw [run, List.foldl_cons, ← run, ih, after_relabel S hf]
    rfl

end Signature

/-! ### Without labels -/

mutual

theorem Term.relabel_none : ∀ t : Term, t.relabel (fun _ => none) = t.unlabel
  | .var _ _ => rfl
  | .const _ => rfl
  | .letIn _ A a b => by
    rw [Term.relabel, Term.unlabel, A.relabel_none, a.relabel_none, b.relabel_none]
  | .type _ => rfl
  | .pi _ A B => by rw [Term.relabel, Term.unlabel, A.relabel_none, B.relabel_none]
  | .lam _ A b => by rw [Term.relabel, Term.unlabel, A.relabel_none, b.relabel_none]
  | .app g a => by rw [Term.relabel, Term.unlabel, g.relabel_none, a.relabel_none]
  | .former _ as => by rw [Term.relabel, Term.unlabel, Term.relabels_none as]
  | .con _ as => by rw [Term.relabel, Term.unlabel, Term.relabels_none as]
  | .elim t M ms => by
    rw [Term.relabel, Term.unlabel, t.relabel_none, M.relabel_none, Term.relabels_none ms]

theorem Term.relabels_none : ∀ ts : List Term, Term.relabels (fun _ => none) ts = Term.unlabels ts
  | [] => rfl
  | t :: ts => by rw [Term.relabels, Term.unlabels, t.relabel_none, Term.relabels_none ts]

end

/-- A value without its labels. -/
def Value.unlabel (v : Value) : Value := v.relabel fun _ => none

/-- A signature without its labels.  It still has all names, numbers, counts and positions. -/
def Signature.unlabel (S : Signature) : Signature := S.relabel fun _ => none

/-- A binding without its labels. -/
def Binding.unlabel (b : Binding) : Binding := b.relabel fun _ => none

/-- A context without its labels. -/
def Context.unlabel (Γ : Context) : Context := Γ.relabel fun _ => none

/-- A request without its labels. -/
def Signature.Request.unlabel (r : Request) : Request := r.relabel fun _ => none

/-- An outcome of the kernel without its labels: those of its result are dropped by `g`. -/
def Check.unlabel {α β : Type} (g : α → β) : Check α → Check β
  | .ok a => .ok (g a)
  | .error s => .error (s.relabel fun _ => none)

/-- Without labels, the second outcome is the first. -/
theorem Carries.unlabel {α β : Type} {g : α → β} {x : Check α} {x' : Check β}
    (h : Carries (Stop.Lacks fun _ => False) (Stop.relabel fun _ => none) g x x') :
    Check.unlabel g x = x' := by
  cases x with
  | ok a => exact h.symm
  | error s =>
    obtain hs | h := h
    · cases s <;> exact hs.elim
    · exact h.symm

namespace Context

variable (Γ : Context) (t : Term) (n : Nat)

theorem infer_unlabel :
    Check.unlabel Value.unlabel (Context.infer n Γ t) = Context.infer n Γ.unlabel t.unlabel := by
  rw [← t.relabel_none]
  exact ((relabels _ rfl (.refl n)).infer Γ t).unlabel

theorem checkType_unlabel :
    Check.unlabel id (Context.checkType n Γ t) = Context.checkType n Γ.unlabel t.unlabel := by
  rw [← t.relabel_none]
  exact ((relabels _ rfl (.refl n)).checkType Γ t).unlabel

theorem check_unlabel (A : Value) :
    Check.unlabel id (Context.check n Γ t A) =
      Context.check n Γ.unlabel t.unlabel A.unlabel := by
  rw [← t.relabel_none]
  exact ((relabels _ rfl (.refl n)).check Γ t A).unlabel

end Context

namespace Signature

theorem answer_unlabel (n : Nat) (r : Request) :
    Check.unlabel unlabel (S.answer n r) = S.unlabel.answer n r.unlabel :=
  (S.answer_relabel (.refl n) rfl r).unlabel

theorem unlabel_empty : empty.unlabel = empty := by
  simp [unlabel, relabel, empty]

theorem run_unlabel (rs : List (Nat × Request)) :
    (empty.run rs).unlabel = empty.run (rs.map fun r => (r.1, r.2.unlabel)) := by
  have h := empty.run_relabel (f := fun _ => none) rfl rs
  rwa [← unlabel, ← unlabel, unlabel_empty] at h

/-- What a family says of its arguments: the numbers of its parameters and indices. -/
def familyShape (S : Signature) (F : FamilyId) : Option (Nat × Nat) :=
  (S.family? F).map fun D => (D.parameterCount, D.indexCount)

/-- What a constructor says of its arguments: the numbers of its parameters and fields, and which
of the fields are recursive. -/
def constructorShape (S : Signature) (c : ConstructorId) : Option (Nat × Nat × List Nat) :=
  (S.constructor? c).map fun K => (K.parameterCount, K.fieldCount, K.recursiveFields)

theorem entries_unlabel : S.unlabel.entries = S.entries := rfl

theorem familyShape_unlabel (F : FamilyId) : S.unlabel.familyShape F = S.familyShape F := by
  unfold familyShape unlabel
  rw [family?_relabel, Option.map_map]
  rfl

theorem constructorShape_unlabel (c : ConstructorId) :
    S.unlabel.constructorShape c = S.constructorShape c := by
  unfold constructorShape unlabel
  rw [constructor?_relabel, Option.map_map]
  rfl

/-- **The kernel ignores labels.**  Take two runs of declarations that differ in labels only.  Their
signatures differ in labels only: a name has one entry in both, with one number, and a number has
one shape.  Both admit or both refuse any further request.  Over contexts, terms and types that
differ in labels only, inference and checking end alike with every amount of fuel: with results or
with an error that differ in labels only, with one violation, or for want of fuel. -/
theorem run_ignores_labels {rs rs' : List (Nat × Request)}
    (h : rs.map (fun r => (r.1, r.2.unlabel)) = rs'.map fun r => (r.1, r.2.unlabel)) :
    ((empty.run rs).unlabel = (empty.run rs').unlabel ∧
      (empty.run rs).entries = (empty.run rs').entries ∧
      (∀ F, (empty.run rs).familyShape F = (empty.run rs').familyShape F) ∧
      ∀ c, (empty.run rs).constructorShape c = (empty.run rs').constructorShape c) ∧
    (∀ n r r', r.unlabel = r'.unlabel →
      Check.unlabel unlabel ((empty.run rs).answer n r) =
        Check.unlabel unlabel ((empty.run rs').answer n r')) ∧
    ∀ bs bs' : List Binding, bs.map Binding.unlabel = bs'.map Binding.unlabel →
      ∀ n t t', t.unlabel = t'.unlabel →
      Check.unlabel Value.unlabel (Context.infer n ⟨empty.run rs, bs⟩ t) =
        Check.unlabel Value.unlabel (Context.infer n ⟨empty.run rs', bs'⟩ t') ∧
      Check.unlabel id (Context.checkType n ⟨empty.run rs, bs⟩ t) =
        Check.unlabel id (Context.checkType n ⟨empty.run rs', bs'⟩ t') ∧
      ∀ A A', A.unlabel = A'.unlabel →
        Check.unlabel id (Context.check n ⟨empty.run rs, bs⟩ t A) =
          Check.unlabel id (Context.check n ⟨empty.run rs', bs'⟩ t' A') := by
  have hS : (empty.run rs).unlabel = (empty.run rs').unlabel := by
    rw [run_unlabel, run_unlabel, h]
  have hΓ {bs bs' : List Binding} (hbs : bs.map Binding.unlabel = bs'.map Binding.unlabel) :
      Context.unlabel ⟨empty.run rs, bs⟩ = Context.unlabel ⟨empty.run rs', bs'⟩ :=
    congrArg₂ Context.mk hS hbs
  refine ⟨⟨hS, ?_, fun F => ?_, fun c => ?_⟩, fun n r r' hr => ?_,
    fun bs bs' hbs n t t' ht => ⟨?_, ?_, fun A A' hA => ?_⟩⟩
  · rw [← entries_unlabel, hS, entries_unlabel]
  · rw [← familyShape_unlabel, hS, familyShape_unlabel]
  · rw [← constructorShape_unlabel, hS, constructorShape_unlabel]
  · rw [answer_unlabel, answer_unlabel, hS, hr]
  · rw [Context.infer_unlabel, Context.infer_unlabel, hΓ hbs, ht]
  · rw [Context.checkType_unlabel, Context.checkType_unlabel, hΓ hbs, ht]
  · rw [Context.check_unlabel, Context.check_unlabel, hΓ hbs, ht, hA]

/-- The natural numbers, with a label at the argument of the successor. -/
def labelledNaturals (l : Label) : List (Nat × Request) :=
  [(5, .openFamily "Nat" 0 (.type 0)), (5, .declareConstructor "Nat" "zero" (.former ⟨0⟩ [])),
    (9, .declareConstructor "Nat" "succ" (.pi l (.former ⟨0⟩ []) (.former ⟨0⟩ []))),
    (0, .closeFamily "Nat")]

/-- The identity on the natural numbers, with a label at its argument and one at its use. -/
def labelledIdentity (l l' : Label) : Term := .lam l (.former ⟨0⟩ []) (.var l' 0)

/-- With other labels, the successor still has its one recursive field, and the identity is refused
as a number with the type that it has under its own labels. -/
theorem labelledNaturals_ignores_labels :
    labelledNaturals (some "n") ≠ labelledNaturals none ∧
    (empty.run (labelledNaturals (some "n"))).constructorShape ⟨1⟩ = some (0, 1, [0]) ∧
    (empty.run (labelledNaturals none)).constructorShape ⟨1⟩ = some (0, 1, [0]) ∧
    Context.check 9 (.empty (empty.run (labelledNaturals (some "n"))))
        (labelledIdentity (some "x") none) (.former ⟨0⟩ []) =
      .error (.error (.type (.mismatch (.former ⟨0⟩ [])
        (.pi (some "x") (.former ⟨0⟩ []) (.former ⟨0⟩ []))))) ∧
    Check.unlabel id (Context.check 9 (.empty (empty.run (labelledNaturals (some "n"))))
        (labelledIdentity (some "x") none) (.former ⟨0⟩ [])) =
      Check.unlabel id (Context.check 9 (.empty (empty.run (labelledNaturals none)))
        (labelledIdentity none (some "y")) (.former ⟨0⟩ [])) := by
  have h := @run_ignores_labels (labelledNaturals (some "n")) (labelledNaturals none) rfl
  have hshape : (empty.run (labelledNaturals (some "n"))).constructorShape ⟨1⟩ =
      some (0, 1, [0]) := by decide +kernel
  exact ⟨by simp [labelledNaturals], hshape, (h.1.2.2.2 ⟨1⟩).symm.trans hshape, rfl,
    (h.2.2 [] [] rfl 9 _ _ rfl).2.2 _ _ rfl⟩

end Signature

end Constructions
