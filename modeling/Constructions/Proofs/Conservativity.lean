/-
# Declarations are conservative

What the kernel accepts, it accepts after any further declarations, with the same type; and
what an accepted term computes to does not change either
(`Signature.Reachable.conservative`).  Inference looks into the signature at many points,
and an undeclared constant would compute to itself until it is declared.  But a term is
computed only after it was accepted, and an accepted term has only declared constants.

| procedure | succeeds with | and then |
| --- | --- | --- |
| `Context.infer` | the same type | the term and the type have declared constants |
| `Context.check`, `Context.checkType` | the same | the term has declared constants |
-/

import Constructions.Proofs.Registry.Runs
import Constructions.Proofs.Safety
import Constructions.Proofs.Stability.Kept

namespace Constructions

variable {Θ : Theory} {S S' : Signature}

namespace Context

/-- The types and values of variables have declared constants. -/
def Declared (S : Signature) (bs : List Binding) : Prop :=
  ∀ b ∈ bs, b.type.All S.declared ∧ b.value.All S.declared

namespace Declared

variable {bs : List Binding} (h : Declared S bs)

include h

theorem alls_env : Value.Alls S.declared (Context.env ⟨S, bs⟩) := by
  refine Value.alls_iff.2 fun v hv => ?_
  obtain ⟨b, hb, rfl⟩ := List.mem_map.1 hv
  exact (h b hb).2

theorem define {d v : Value} (hd : d.All S.declared) (hv : v.All S.declared) (label : Label) :
    Declared S (⟨label, d, v⟩ :: bs) := List.forall_mem_cons.2 ⟨⟨hd, hv⟩, h⟩

theorem bind {d : Value} (hd : d.All S.declared) (label : Label) :
    Declared S (⟨label, d, .var label bs.length⟩ :: bs) :=
  h.define (v := .var label bs.length) hd trivial label

end Declared

/-- The procedures of the kernel with `n` units of fuel have the same results with `m` units in a
signature with more declarations. -/
structure Keeps (S S' : Signature) (n m : Nat) : Prop where
  infer : ∀ {bs : List Binding}, Declared S bs → ∀ t,
    Kept (fun v => t.All S.declared ∧ v.All S.declared) (Context.infer n ⟨S, bs⟩ t)
      (Context.infer m ⟨S', bs⟩ t)
  check : ∀ {bs : List Binding}, Declared S bs → ∀ t {type : Value}, type.All S.declared →
    Kept (fun _ => t.All S.declared) (Context.check n ⟨S, bs⟩ t type)
      (Context.check m ⟨S', bs⟩ t type)
  checkType : ∀ {bs : List Binding}, Declared S bs → ∀ t,
    Kept (fun _ => t.All S.declared) (Context.checkType n ⟨S, bs⟩ t)
      (Context.checkType m ⟨S', bs⟩ t)
  inferArgument : ∀ {bs : List Binding}, Declared S bs → ∀ {type : Value} (a : Term),
    type.All S.declared →
    Kept (fun v => a.All S.declared ∧ v.All S.declared)
      (Context.inferArgument n ⟨S, bs⟩ type a) (Context.inferArgument m ⟨S', bs⟩ type a)
  inferSpine : ∀ {bs : List Binding}, Declared S bs → ∀ {type : Value} (k : Nat) (as : List Term),
    type.All S.declared →
    Kept (fun v => Term.Alls S.declared as ∧ v.All S.declared)
      (Context.inferSpine n ⟨S, bs⟩ k type as) (Context.inferSpine m ⟨S', bs⟩ k type as)

section

variable (hM : Θ.Models S) (hle : S.Le S') {n m : Nat} (hnm : n ≤ m) (ih : Keeps S S' n m)
  {bs : List Binding} (h : Declared S bs)

include hM hle hnm ih h

/-- An annotation is checked and computed. -/
theorem annotation_kept {α : Type} {P : α → Prop} {A : Term} {k k' : UInt64 → Value → Check α}
    (hk : ∀ {l : UInt64} {d : Value}, A.All S.declared → d.All S.declared →
      Kept P (k l d) (k' l d)) :
    Kept P
      (do
        let l ← Context.checkType n ⟨S, bs⟩ A
        let d ← Context.eval ⟨S, bs⟩ n A
        k l d)
      (do
        let l ← Context.checkType m ⟨S', bs⟩ A
        let d ← Context.eval ⟨S', bs⟩ m A
        k' l d) := by
  refine .bind (ih.checkType h A) fun l hA => ?_
  exact .bind (.liftM (Term.eval_kept hM hle hnm h.alls_env hA)) fun d hd => hk hA hd

/-- The definition of a local variable is checked and computed. -/
theorem definition_kept {α : Type} {P : α → Prop} {a : Term} {d : Value}
    {k k' : Value → Check α} (hd : d.All S.declared)
    (hk : ∀ {v : Value}, a.All S.declared → v.All S.declared → Kept P (k v) (k' v)) :
    Kept P
      (do
        Context.check n ⟨S, bs⟩ a d
        let v ← Context.eval ⟨S, bs⟩ n a
        k v)
      (do
        Context.check m ⟨S', bs⟩ a d
        let v ← Context.eval ⟨S', bs⟩ m a
        k' v) := by
  refine .bind (ih.check h a hd) fun _ ha => ?_
  exact .bind (.liftM (Term.eval_kept hM hle hnm h.alls_env ha)) fun v hv => hk ha hv

/-! ### Inference -/

omit hM hle hnm ih in
theorem infer_var_kept (label : Label) (i : Nat) :
    Kept (fun v => (Term.var label i).All S.declared ∧ v.All S.declared)
      (Context.infer (n + 1) ⟨S, bs⟩ (.var label i))
      (Context.infer (m + 1) ⟨S', bs⟩ (.var label i)) := by
  refine .bind_of fun k hk => ⟨k, hk, ?_⟩
  dsimp only
  cases hb : bs[i]? with
  | none => exact .error
  | some b => exact .ok ⟨trivial, (h b (List.mem_of_getElem? hb)).1⟩

omit hnm ih h in
theorem infer_const_kept (c : Name) :
    Kept (fun v => (Term.const c).All S.declared ∧ v.All S.declared)
      (Context.infer (n + 1) ⟨S, bs⟩ (.const c)) (Context.infer (m + 1) ⟨S', bs⟩ (.const c)) := by
  rw [Context.infer, Context.infer]
  cases hg : S.global? c with
  | none => exact .error
  | some g =>
    rw [hle.global hg]
    exact .ok ⟨⟨g, hg⟩, (hM.grounded.type hg).mono S.leaves_le_declared⟩

theorem infer_lam_kept (label : Label) (A b : Term) :
    Kept (fun v => (Term.lam label A b).All S.declared ∧ v.All S.declared)
      (Context.infer (n + 1) ⟨S, bs⟩ (.lam label A b))
      (Context.infer (m + 1) ⟨S', bs⟩ (.lam label A b)) := by
  rw [Context.infer, Context.infer]
  refine annotation_kept hM hle hnm ih h fun hA hd => ?_
  refine .bind (ih.infer (h.bind hd label) b) fun type htype => ?_
  refine .bind (.liftM (Value.readBack_kept hM hle hnm htype.2 _)) fun B hB => ?_
  exact .ok ⟨⟨hA, htype.1⟩, hd, h.alls_env, hB⟩

omit hnm in
theorem infer_former_kept (F : FamilyId) (as : List Term) :
    Kept (fun v => (Term.former F as).All S.declared ∧ v.All S.declared)
      (Context.infer (n + 1) ⟨S, bs⟩ (.former F as))
      (Context.infer (m + 1) ⟨S', bs⟩ (.former F as)) := by
  rw [Context.infer, Context.infer]
  refine .bind_of fun G hG => ?_
  rw [liftM_eq_ok, orDangling_eq_ok] at hG
  obtain ⟨state, hG', _⟩ := hle.family hG
  refine ⟨_, liftM_eq_ok.2 (orDangling_eq_ok.2 hG'), ?_⟩
  exact ih.inferSpine h _ as ((hM.grounded.family hG).mono S.leaves_le_declared)

omit hnm in
theorem infer_con_kept (c : ConstructorId) (as : List Term) :
    Kept (fun v => (Term.con c as).All S.declared ∧ v.All S.declared)
      (Context.infer (n + 1) ⟨S, bs⟩ (.con c as)) (Context.infer (m + 1) ⟨S', bs⟩ (.con c as)) := by
  rw [Context.infer, Context.infer]
  refine .bind_of fun K hK => ?_
  rw [liftM_eq_ok, orDangling_eq_ok] at hK
  refine ⟨K, liftM_eq_ok.2 (orDangling_eq_ok.2 (hle.constructor hK)), ?_⟩
  exact ih.inferSpine h _ as ((hM.grounded.constructor hK).mono S.leaves_le_declared)

/-- **The methods of an elimination are checked alike.** -/
theorem methods_kept {cs : List ConstructorId} {ps : List Value} {mot : Value} {ms : List Term}
    (hps : Value.Alls S.declared ps) (hmot : mot.All S.declared) (hl : ms.length = cs.length) :
    Kept (fun _ => Term.Alls S.declared ms)
      ((ms.zip cs).forM fun (method, c) => (do
        let K ← orDangling (S.constructor? c)
        let expected ← methodType S n bs.length (Context.env ⟨S, bs⟩) K ps mot
        Context.check n ⟨S, bs⟩ method expected : Check Unit))
      ((ms.zip cs).forM fun (method, c) => (do
        let K ← orDangling (S'.constructor? c)
        let expected ← methodType S' m bs.length (Context.env ⟨S', bs⟩) K ps mot
        Context.check m ⟨S', bs⟩ method expected : Check Unit)) := by
  refine Kept.mono (.forM (P := fun x => x.1.All S.declared) fun x _ => ?_) fun _ hall => ?_
  · obtain ⟨method, c⟩ := x
    refine .bind_of fun K hK => ?_
    rw [liftM_eq_ok, orDangling_eq_ok] at hK
    refine ⟨K, liftM_eq_ok.2 (orDangling_eq_ok.2 (hle.constructor hK)), ?_⟩
    have hKt := (hM.grounded.constructor hK).mono S.leaves_le_declared
    refine .bind (.liftM (methodType_kept hM hle hnm hKt h.alls_env hps hmot bs.length))
      fun expected he => ih.check h method he
  · refine Term.alls_iff.2 fun a ha => ?_
    obtain ⟨j, hj⟩ := List.getElem?_of_mem ha
    have hjl : j < cs.length := hl ▸ (List.getElem?_eq_some_iff.1 hj).1
    have hmem : (ms.zip cs)[j]? = some (a, cs[j]) :=
      List.getElem?_zip_eq_some.2 ⟨hj, List.getElem?_eq_getElem hjl⟩
    exact hall _ (List.mem_of_getElem? hmem)

omit hnm ih h in
/-- **The type of a target is split alike,** up to the constructors of an open family. -/
theorem splitTarget_kept {type : Value} (htype : type.All S.declared) {F : Family}
    {ps is : List Value} (e : Context.splitTarget ⟨S, bs⟩ n type = .ok (F, ps, is)) :
    F.type.All S.declared ∧ Value.Alls S.declared ps ∧ Value.Alls S.declared is ∧
    ∃ F', Context.splitTarget ⟨S', bs⟩ m type = .ok (F', ps, is) ∧ F'.id = F.id ∧
      F'.type = F.type ∧ ∀ table, dispatch F = .ok table → dispatch F' = .ok table := by
  unfold splitTarget at e
  split at e
  · next id as =>
    obtain ⟨G, hG, e⟩ := bind_eq_ok.1 e
    rw [liftM_eq_ok, orDangling_eq_ok] at hG
    split at e
    · next hl =>
      cases e
      obtain ⟨state, hG', hfin⟩ := hle.family hG
      refine ⟨(hM.grounded.family hG).mono S.leaves_le_declared, ?_, ?_,
        { F with state := state }, ?_, rfl, rfl, ?_⟩
      · exact Value.alls_iff.2 fun a ha => Value.alls_iff.1 htype a (List.mem_of_mem_take ha)
      · exact Value.alls_iff.2 fun a ha => Value.alls_iff.1 htype a (List.mem_of_mem_drop ha)
      · refine bind_eq_ok.2 ⟨_, liftM_eq_ok.2 (orDangling_eq_ok.2 hG'), ?_⟩
        exact if_pos hl
      · intro table htable
        cases hs : F.isFinalized with
        | true =>
          obtain rfl := hfin hs
          exact htable
        | false =>
          rw [dispatch, Family.dispatch?_eq_none hs] at htable
          cases htable
    · obtain ⟨t, _, e⟩ := bind_eq_ok.1 e
      cases e
  · obtain ⟨t, _, e⟩ := bind_eq_ok.1 e
    cases e

/-- **An elimination.**  Its family is finalized, so its constructors are the same later. -/
theorem infer_elim_kept (t M : Term) (ms : List Term) :
    Kept (fun v => (Term.elim t M ms).All S.declared ∧ v.All S.declared)
      (Context.infer (n + 1) ⟨S, bs⟩ (.elim t M ms))
      (Context.infer (m + 1) ⟨S', bs⟩ (.elim t M ms)) := by
  rw [Context.infer, Context.infer]
  refine .bind (ih.infer h t) fun type htype => .bind_of ?_
  rintro ⟨F, ps, is⟩ hsplit
  obtain ⟨hF, hps, his, F', hsplit', hid, hFtype, hdispatch⟩ :=
    splitTarget_kept hM hle (m := m) htype.2 hsplit
  refine ⟨(F', ps, is), hsplit', .bind_of fun table htable =>
    ⟨table, hdispatch table htable, ?_⟩⟩
  split
  · exact .error
  next hl =>
  rw [not_not] at hl
  refine .bind (ih.infer h M) fun motiveType hmotive => ?_
  refine .bind (.liftM (motiveDomains_kept hM hle hnm hF hid hFtype hps _)) fun ds hds => ?_
  refine .bind (.liftM (motiveLevel?_kept hM hle hnm hds hmotive.2 _)) fun o _ => ?_
  cases o with
  | none => exact .bind_error (by rintro _ _ ⟨⟩)
  | some l =>
    refine .bind (.liftM (Term.eval_kept hM hle hnm h.alls_env hmotive.1)) fun mot hmot => ?_
    refine .bind (methods_kept hM hle hnm ih h hps hmot hl) fun _ hms => ?_
    refine .bind (.liftM (Term.eval_kept hM hle hnm h.alls_env htype.1)) fun a ha => ?_
    have hargs : Value.Alls S.declared (is ++ [a]) := Value.alls_append.2 ⟨his, ha, trivial⟩
    refine .liftM ((Value.applyAll_kept hM hle hnm hmot hargs).mono fun v hv => ?_)
    exact ⟨⟨htype.1, hmotive.1, hms⟩, hv⟩

/-! ### Checking -/

/-- **A term that is inferred and compared.** -/
theorem compare_kept (t : Term) {type : Value} (htype : type.All S.declared) :
    Kept (fun _ => t.All S.declared)
      (do
        let inferred ← Context.infer n ⟨S, bs⟩ t
        if ← Context.convert ⟨S, bs⟩ n inferred type then .ok ()
        else do
          let expected ← Context.quote ⟨S, bs⟩ n type
          let found ← Context.quote ⟨S, bs⟩ n inferred
          (TypeError.mismatch expected found).throw)
      (do
        let inferred ← Context.infer m ⟨S', bs⟩ t
        if ← Context.convert ⟨S', bs⟩ m inferred type then .ok ()
        else do
          let expected ← Context.quote ⟨S', bs⟩ m type
          let found ← Context.quote ⟨S', bs⟩ m inferred
          (TypeError.mismatch expected found).throw) := by
  refine .bind (ih.infer h t) fun v hv => ?_
  refine .bind (.liftM (Value.convert_kept hM hle hnm hv.2 htype)) fun b _ => ?_
  cases b with
  | true => exact .ok hv.1
  | false =>
    refine .bind_error fun _ _ e => ?_
    obtain ⟨_, _, e⟩ := bind_eq_ok.1 e
    cases e

/-- **A function against a function type.** -/
theorem check_lam_kept (label : Label) (A b : Term) {base : Value} {family : Closure}
    (htype : (Value.pi base family).All S.declared) :
    Kept (fun _ => (Term.lam label A b).All S.declared)
      (Context.check (n + 1) ⟨S, bs⟩ (.lam label A b) (.pi base family))
      (Context.check (m + 1) ⟨S', bs⟩ (.lam label A b) (.pi base family)) := by
  rw [Context.check, Context.check]
  refine annotation_kept hM hle hnm ih h fun hA hd => ?_
  refine .bind (.liftM (Value.convert_kept hM hle hnm hd htype.1)) fun eq _ => ?_
  cases eq with
  | true =>
    refine .bind (.liftM (Closure.enter_kept hM hle hnm htype.2 _)) fun codomain hc => ?_
    exact (ih.check (h.bind hd label) b hc).mono fun _ hb => ⟨hA, hb⟩
  | false =>
    refine .bind_error fun _ _ e => ?_
    obtain ⟨_, _, e⟩ := bind_eq_ok.1 e
    cases e

theorem inferArgument_kept {type : Value} (a : Term) (htype : type.All S.declared) :
    Kept (fun v => a.All S.declared ∧ v.All S.declared)
      (Context.inferArgument (n + 1) ⟨S, bs⟩ type a)
      (Context.inferArgument (m + 1) ⟨S', bs⟩ type a) := by
  cases type with
  | pi base family =>
    rw [Context.inferArgument, Context.inferArgument]
    refine definition_kept hM hle hnm ih h htype.1 fun ha hv => ?_
    exact .liftM ((Closure.instantiate_kept hM hle hnm htype.2 hv).mono fun w hw => ⟨ha, hw⟩)
  | neutral | type | lam | former | con => exact .bind_error (by rintro _ _ ⟨⟩)

omit hM hle hnm in
/-- The arguments of a former or constructor are checked one after the other. -/
theorem inferArguments_kept {as : List Term} {type : Value} (htype : type.All S.declared) :
    Kept (fun v => Term.Alls S.declared as ∧ v.All S.declared)
      (as.foldlM (fun type a => Context.inferArgument n ⟨S, bs⟩ type a) type)
      (as.foldlM (fun type a => Context.inferArgument m ⟨S', bs⟩ type a) type) := by
  induction as generalizing type with
  | nil => exact .ok ⟨trivial, htype⟩
  | cons a as ihas =>
    rw [List.foldlM_cons, List.foldlM_cons]
    refine .bind (ih.inferArgument h a htype) fun v hv => ?_
    exact (ihas hv.2).mono fun w hw => ⟨⟨hv.1, hw.1⟩, hw.2⟩

omit hM hle hnm in
theorem checkType_kept (t : Term) :
    Kept (fun _ => t.All S.declared) (Context.checkType (n + 1) ⟨S, bs⟩ t)
      (Context.checkType (m + 1) ⟨S', bs⟩ t) := by
  rw [Context.checkType, Context.checkType]
  refine .bind (ih.infer h t) fun type htype => ?_
  cases type with
  | type l => exact .ok htype.1
  | neutral | pi | lam | former | con => exact .bind_error (by rintro _ _ ⟨⟩)

end

/-- **The procedures of the kernel keep their results.** -/
theorem keeps (hM : Θ.Models S) (hle : S.Le S') {n m : Nat} (hnm : n ≤ m) : Keeps S S' n m := by
  induction n generalizing m with
  | zero =>
    exact ⟨fun _ _ => .error, fun _ _ _ _ => .error, fun _ _ => .error, fun _ _ _ _ => .error,
      fun _ _ _ _ _ => .error⟩
  | succ n ih =>
    obtain ⟨m, rfl⟩ : ∃ k, m = k + 1 := ⟨m - 1, by omega⟩
    have hnm := Nat.le_of_succ_le_succ hnm
    have ih := ih hnm
    refine ⟨?_, ?_, fun h t => checkType_kept ih h t,
      fun h _ a htype => inferArgument_kept hM hle hnm ih h a htype, ?_⟩
    · intro bs h t
      cases t with
      | var label i => exact infer_var_kept h label i
      | const c => exact infer_const_kept hM hle c
      | letIn label A a b =>
        rw [Context.infer, Context.infer]
        refine annotation_kept hM hle hnm ih h fun hA hd => ?_
        refine definition_kept hM hle hnm ih h hd fun ha hv => ?_
        exact (ih.infer (h.define hd hv label) b).mono fun w hw => ⟨⟨hA, ha, hw.1⟩, hw.2⟩
      | type l =>
        rw [Context.infer, Context.infer]
        split
        · exact .ok ⟨trivial, trivial⟩
        · exact .error
      | pi label A B =>
        rw [Context.infer, Context.infer]
        refine annotation_kept hM hle hnm ih h fun hA hd => ?_
        exact .bind (ih.checkType (h.bind hd label) B) fun _ hB => .ok ⟨⟨hA, hB⟩, trivial⟩
      | lam label A b => exact infer_lam_kept hM hle hnm ih h label A b
      | app f a =>
        rw [Context.infer, Context.infer]
        refine .bind (ih.infer h f) fun type hf => ?_
        exact (ih.inferArgument h a hf.2).mono fun v hv => ⟨⟨hf.1, hv.1⟩, hv.2⟩
      | former F as => exact infer_former_kept hM hle ih h F as
      | con c as => exact infer_con_kept hM hle ih h c as
      | elim t M ms => exact infer_elim_kept hM hle hnm ih h t M ms
    · intro bs h t type htype
      cases t with
      | lam label A b =>
        cases type with
        | pi base family => exact check_lam_kept hM hle hnm ih h label A b htype
        | neutral | type | lam | former | con => exact compare_kept hM hle hnm ih h _ htype
      | letIn label A a b =>
        rw [Context.check, Context.check]
        refine annotation_kept hM hle hnm ih h fun hA hd => ?_
        refine definition_kept hM hle hnm ih h hd fun ha hv => ?_
        exact (ih.check (h.define hd hv label) b htype).mono fun _ hb => ⟨hA, ha, hb⟩
      | var | const | type | pi | app | former | con | elim =>
        exact compare_kept hM hle hnm ih h _ htype
    · intro bs h type k as htype
      rw [Context.inferSpine, Context.inferSpine]
      split
      · exact .error
      · exact inferArguments_kept ih h htype

end Context

/-! ### Closed terms -/

/-- **The normal form of an accepted term is kept.** -/
theorem Term.normalize_kept (hM : Θ.Models S) (hle : S.Le S') {n m : Nat} (hnm : n ≤ m) {t : Term}
    (ht : t.All S.declared) : Kept (fun _ => True) (t.normalize S n) (t.normalize S' m) := by
  refine .bind (Term.eval_kept hM hle hnm .nil ht) fun v hv => ?_
  exact (Value.readBack_kept hM hle hnm hv 0).mono fun _ _ => trivial

namespace Signature

/-- **Declarations are conservative.**  A type that is found for a term is found after any further
declarations, and the normal form of the term is the same; more fuel changes neither. -/
theorem Reachable.conservative (h : S.Reachable) (hS' : Relation.ReflTransGen Step S S') {t : Term}
    {n : Nat} {v : Value} (ht : Context.infer n (.empty S) t = .ok v) :
    (∀ m, n ≤ m → Context.infer m (.empty S') t = .ok v) ∧
    ∀ k q, t.normalize S k = .ok q → ∀ m, k ≤ m → t.normalize S' m = .ok q := by
  obtain ⟨Θ, hΘ⟩ := h.coherent
  have hM := hΘ.models
  have hle := h.le_of_steps hS'
  have hempty : Context.Declared S [] := fun _ hb => nomatch hb
  refine ⟨fun m hnm => ?_, fun k q hq m hkm => ?_⟩
  · exact ((Context.keeps hM hle hnm).infer hempty t v ht).1
  · have hall := ((Context.keeps hM hle (Nat.le_refl n)).infer hempty t v ht).2.1
    exact (Term.normalize_kept hM hle hkm hall q hq).1

theorem twiceOne_conservative : naturals.Reachable ∧
    (∃ S', naturals.define 9 "one" (.former ⟨0⟩ []) (.con ⟨1⟩ [.con ⟨0⟩ []]) = .ok S' ∧
      Context.infer 20 (.empty S') twiceOne = .ok (.former ⟨0⟩ []) ∧
      twiceOne.normalize S' 20 = .ok (.con ⟨1⟩ [.con ⟨1⟩ [.con ⟨0⟩ []]])) := by
  refine ⟨reachable_naturals, _, rfl, ?_⟩
  have h := reachable_naturals.conservative (t := twiceOne) (n := 20)
    (.single (.define 9 "one" (.former ⟨0⟩ []) (.con ⟨1⟩ [.con ⟨0⟩ []]) rfl)) rfl
  exact ⟨h.1 20 (Nat.le_refl 20), h.2 20 _ rfl 20 (Nat.le_refl 20)⟩

end Signature

end Constructions
