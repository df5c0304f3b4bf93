/-
# Inference decides typing

In a typed context, inference finds a type of a term that has one, and refuses a term only
if it has none (`Context.infer_post`); checking compares with an expected type in the same
sense (`Context.check_post`).

| outcome | means |
| --- | --- |
| a result | the term is typed, and everything in it is declared |
| an error | the term is not typed, or has a universe that is in no universe |
| `dangling` | the term is not typed |
| `exhausted`, `overflow` | nothing |

No other outcome is possible; in particular no violation is met.
-/

import Constructions.Proofs.Context
import Constructions.Typing

namespace Constructions

open Plain

/-! ### Refusals -/

/-- All universes in a term are elements of a universe. -/
def Term.Bounded (t : Term) : Prop :=
  t.All ⟨fun _ => True, fun _ => True, fun _ => True, Inhabits⟩

/-- A procedure stops for lack of resources, or because something does not hold. -/
def Refuses (J : Prop) : Stop KernelError → Prop
  | .halt h => h.Resource ∨ h = .dangling ∧ ¬ J
  | .error _ => ¬ J

namespace Refuses

variable {α : Type} {P : α → Prop} {J J' : Prop}

theorem mono (h : J' → J) : ∀ {s}, Refuses J s → Refuses J' s
  | .halt _, .inl hr => .inl hr
  | .halt _, .inr ⟨e, hJ⟩ => .inr ⟨e, fun h' => hJ (h h')⟩
  | .error _, hJ => fun h' => hJ (h h')

theorem imp {P' : α → Prop} {x : Check α} (h : Post x P (Refuses J)) (hP : ∀ a, P a → P' a)
    (hJ : J' → J) : Post x P' (Refuses J') := h.mono hP fun _ => mono hJ

/-- A computation that only lacks resources. -/
theorem lift {x : Except Halt α} (h : Post x P Halt.Resource) :
    Post (liftM x : Check α) P (Refuses J) := .liftM (h.mono (fun _ h => h) fun _ h => .inl h)

/-- A computation that only lacks resources, and then an error. -/
theorem lift_throw {β : Type} {x : Except Halt β} (h : Safe x) (hJ : ¬ J) {e : β → TypeError} :
    Post ((liftM x : Check β) >>= fun b => (e b).throw) P (Refuses J) :=
  Post.bind (lift h) fun _ _ _ => hJ

/-- What does not exist is refused. -/
theorem lift_orDangling {o : Option α} (h : ∀ a, o = some a → P a) (hJ : o = none → ¬ J) :
    Post (liftM (orDangling o) : Check α) P (Refuses J) := by
  cases o with
  | none => exact .inr ⟨rfl, hJ rfl⟩
  | some a => exact h a rfl

end Refuses

theorem Post.refuses {α : Type} {P : α → Prop} {J J' : Prop} {x : Check α}
    (h : Post x P (Refuses J)) (hJ : J' → J) : Post x P (Refuses J') :=
  Refuses.imp h (fun _ h => h) hJ

theorem toNat_of_nextLevel? {l next : UInt64} (h : nextLevel? l = some next) :
    next.toNat = l.toNat + 1 := by
  unfold nextLevel? at h
  split at h
  · next hlt =>
    cases h
    rw [UInt64.toNat_add]
    exact Nat.mod_eq_of_lt hlt
  · cases h

/-- A universe lies in the next one. -/
theorem HasType.type_next {Θ : Theory} {Δ : List Plain} {l next : UInt64}
    (h : nextLevel? l = some next) :
    HasType Θ Δ (.atom (.type l.toNat)) (.atom (.type next.toNat)) := by
  rw [toNat_of_nextLevel? h]
  exact .type l.toNat

namespace Context

variable {Θ : Theory} {Γ : Context} {Δ ε : List Plain} {ℓ : Nat → Plain} {L : Leaves} {n : Nat}

/-- A term has a type, and everything in it is declared. -/
structure Infers (Θ : Theory) (Γ : Context) (Δ ε : List Plain) (ℓ : Nat → Plain) (L : Leaves)
    (t : Term) (v : Value) : Prop where
  type : v.IsType Θ Δ L ℓ
  all : t.All Γ.signature.leaves
  typed : HasType Θ Δ (t.under ε) (v.plain ℓ)

/-- The procedures of the kernel with `n` units of fuel agree with the typing rules. -/
structure Correct (Θ : Theory) (n : Nat) : Prop where
  infer : ∀ {Γ : Context} {Δ ε ℓ L}, Γ.Typed Θ Δ ε ℓ L → ∀ t,
    Post (Context.infer n Γ t) (Γ.Infers Θ Δ ε ℓ L t)
      (Refuses (t.Bounded ∧ ∃ T, HasType Θ Δ (t.under ε) T))
  check : ∀ {Γ : Context} {Δ ε ℓ L}, Γ.Typed Θ Δ ε ℓ L → ∀ t {type : Value},
    type.IsType Θ Δ L ℓ →
    Post (Context.check n Γ t type)
      (fun _ => t.All Γ.signature.leaves ∧ HasType Θ Δ (t.under ε) (type.plain ℓ))
      (Refuses (t.Bounded ∧ HasType Θ Δ (t.under ε) (type.plain ℓ)))
  checkType : ∀ {Γ : Context} {Δ ε ℓ L}, Γ.Typed Θ Δ ε ℓ L → ∀ t,
    Post (Context.checkType n Γ t)
      (fun l => t.All Γ.signature.leaves ∧ HasType Θ Δ (t.under ε) (.atom (.type l.toNat)))
      (Refuses (t.Bounded ∧ ∃ m, HasType Θ Δ (t.under ε) (.atom (.type m))))
  inferArgument : ∀ {Γ : Context} {Δ ε ℓ L}, Γ.Typed Θ Δ ε ℓ L → ∀ {type : Value} {f : Plain} a,
    type.IsType Θ Δ L ℓ → HasType Θ Δ f (type.plain ℓ) →
    Post (Context.inferArgument n Γ type a)
      (fun v => v.IsType Θ Δ L ℓ ∧ a.All Γ.signature.leaves ∧
        HasType Θ Δ (.app f (a.under ε)) (v.plain ℓ))
      (Refuses (a.Bounded ∧ ∃ T, HasType Θ Δ (.app f (a.under ε)) T))
  inferSpine : ∀ {Γ : Context} {Δ ε ℓ L}, Γ.Typed Θ Δ ε ℓ L → ∀ {type : Value} {f : Plain} {k}
    (as : List Term), type.IsType Θ Δ L ℓ → HasType Θ Δ f (type.plain ℓ) →
    (∀ {T}, HasType Θ Δ (spine f (as.map (Term.under ε))) T → as.length ≤ k) →
    Post (Context.inferSpine n Γ k type as)
      (fun v => v.IsType Θ Δ L ℓ ∧ Term.Alls Γ.signature.leaves as ∧
        HasType Θ Δ (spine f (as.map (Term.under ε))) (v.plain ℓ))
      (Refuses ((∀ a ∈ as, a.Bounded) ∧ ∃ T, HasType Θ Δ (spine f (as.map (Term.under ε))) T))

section

variable (h : Γ.Typed Θ Δ ε ℓ L)

include h

theorem infer_var (label : Label) (i : Nat) :
    Post (Context.infer (n + 1) Γ (.var label i)) (Γ.Infers Θ Δ ε ℓ L (.var label i))
      (Refuses ((Term.var label i).Bounded ∧ ∃ T, HasType Θ Δ ((Term.var label i).under ε) T)) := by
  refine Post.bind (P := fun _ => True) (Refuses.lift (Safe.nextNumber i)) fun _ _ _ => ?_
  split
  · next b hb =>
    obtain ⟨a, ha, ht, _, hat, _⟩ := forall₂_getElem? h.entries hb
    have hu : (Term.var label i).under ε = a := ofList_eq ha
    exact ⟨ht, trivial, hu ▸ hat⟩
  · next hb =>
    rintro ⟨_, T, hT⟩
    exact h.not_hasType_of_none hb hT

theorem infer_const (c : Name) :
    Post (Context.infer (n + 1) Γ (.const c)) (Γ.Infers Θ Δ ε ℓ L (.const c))
      (Refuses ((Term.const c).Bounded ∧ ∃ T, HasType Θ Δ ((Term.const c).under ε) T)) := by
  rw [Context.infer]
  split
  · next g hg =>
    obtain ⟨hty, htyped⟩ := h.const_typed hg
    exact ⟨hty, ⟨g, hg⟩, htyped⟩
  · next hg =>
    have hc := h.models.describes.constant c ℓ
    rw [hg] at hc
    rintro ⟨_, T, hT⟩
    obtain ⟨A, hA, _⟩ := HasType.declared_inv (a := .const c) hT (by simp)
    cases hA.symm.trans hc

theorem infer_type (l : UInt64) :
    Post (Context.infer (n + 1) Γ (.type l)) (Γ.Infers Θ Δ ε ℓ L (.type l))
      (Refuses ((Term.type l).Bounded ∧ ∃ T, HasType Θ Δ ((Term.type l).under ε) T)) := by
  rw [Context.infer]
  split
  · next next hl =>
    exact ⟨⟨h.univ next, _, .type _⟩, fun e => (nomatch hl.symm.trans e), .type_next hl⟩
  · next hl => exact fun hJ => hJ.1 hl

variable (ih : Correct Θ n)

include ih

omit ih in
/-- **A type in the scope of one more variable is read back as the codomain of a function type.** -/
theorem Typed.codomain_post {d B : Value} (hd : d.IsType Θ Δ L ℓ)
    (hB : B.IsType Θ (d.plain ℓ :: Δ) (L.bind Γ.level) (extend ℓ Γ.level)) (label : Label)
    (n : Nat) :
    Post ((Γ.bind label d).quote n B) (fun q =>
      (Value.pi d (.mk Γ.env label q)).IsType Θ Δ L ℓ ∧
      Reds Θ (B.plain (extend ℓ Γ.level)) ((Closure.mk Γ.env label q).plain ℓ))
      Halt.Resource := by
  obtain ⟨u, hu⟩ := hd.typed
  obtain ⟨m, hm⟩ := hB.typed
  refine Post.mono (Value.readBack_post h.models.sound h.models.describes (h.bind hd label).scope
    (h.inverse.bind h.scope.below) hB.all hm n) (fun q ⟨hq, hr⟩ => ⟨?_, hr⟩) fun _ h => h
  exact ⟨⟨hd.all, h.alls_env, Term.all_bind.1 hq⟩, _, .pi hu (hm.reds h.models.sound hr)⟩

/-- An annotation is checked and computed. -/
theorem annotation_post {α : Type} {P : α → Prop} {J : Prop} {A : Term}
    {k : UInt64 → Value → Check α}
    (hJ : J → A.Bounded ∧ ∃ m, HasType Θ Δ (A.under ε) (.atom (.type m)))
    (hk : ∀ {l : UInt64} {d : Value}, A.All Γ.signature.leaves →
      HasType Θ Δ (A.under ε) (.atom (.type l.toNat)) → Reds Θ (A.under ε) (d.plain ℓ) →
      d.IsType Θ Δ L ℓ → Post (k l d) P (Refuses J)) :
    Post (do
      let l ← Context.checkType n Γ A
      let d ← Γ.eval n A
      k l d) P (Refuses J) := by
  refine Post.bind ((ih.checkType h A).refuses hJ) fun l _ ⟨hA, hAt⟩ => ?_
  refine Post.bind (Refuses.lift (h.eval_post hA hAt n)) fun d _ ⟨hd, hr⟩ => ?_
  exact hk hA hAt hr ⟨hd, _, hAt.reds h.models.sound hr⟩

theorem infer_pi (label : Label) (A B : Term) :
    Post (Context.infer (n + 1) Γ (.pi label A B)) (Γ.Infers Θ Δ ε ℓ L (.pi label A B))
      (Refuses ((Term.pi label A B).Bounded ∧
        ∃ T, HasType Θ Δ ((Term.pi label A B).under ε) T)) := by
  refine annotation_post h ih (fun ⟨hb, T, hT⟩ => ?_) fun {l d} hA hAt hr hd => ?_
  · obtain ⟨m, _, hm, _⟩ := HasType.pi_inv hT
    exact ⟨hb.1, m, hm⟩
  refine Post.bind ((ih.checkType (h.bind hd label) B).refuses fun ⟨hb, T, hT⟩ => ?_)
    fun m _ ⟨hB, hBt⟩ => ⟨⟨h.univ _, _, .type _⟩, ⟨hA, hB⟩, ?_⟩
  · obtain ⟨_, m, _, hm, _⟩ := HasType.pi_inv hT
    rw [← Term.under_bind] at hm
    exact ⟨hb.2, m, hm.change hr.equal⟩
  · rw [Term.under_bind] at hBt
    have hpi := HasType.pi hAt (hBt.change hr.equal.symm)
    rw [← UInt64.toNat_max] at hpi
    exact hpi

theorem infer_lam (label : Label) (A b : Term) :
    Post (Context.infer (n + 1) Γ (.lam label A b)) (Γ.Infers Θ Δ ε ℓ L (.lam label A b))
      (Refuses ((Term.lam label A b).Bounded ∧
        ∃ T, HasType Θ Δ ((Term.lam label A b).under ε) T)) := by
  refine annotation_post h ih (fun ⟨hb, T, hT⟩ => ?_) fun {l d} hA hAt hr hd => ?_
  · obtain ⟨m, _, hm, _⟩ := HasType.lam_inv hT
    exact ⟨hb.1, m, hm⟩
  have hbind := h.bind hd label
  refine Post.bind ((ih.infer hbind b).refuses fun ⟨hb, T, hT⟩ => ?_) fun type _ hty => ?_
  · obtain ⟨_, B, _, hB, _⟩ := HasType.lam_inv hT
    rw [← Term.under_bind] at hB
    exact ⟨hb.2, B, hB.change hr.equal⟩
  refine Post.bind (Refuses.lift (h.codomain_post hd hty.type label n)) fun B _ ⟨hpi, hBr⟩ => ?_
  refine ⟨hpi, ⟨hA, hty.all⟩, ?_⟩
  have hb := hty.typed
  rw [Term.under_bind] at hb
  exact .conv (.lam hAt (hb.change hr.equal.symm)) (.pi hr.equal hBr.equal)

theorem infer_letIn (label : Label) (A a b : Term) :
    Post (Context.infer (n + 1) Γ (.letIn label A a b)) (Γ.Infers Θ Δ ε ℓ L (.letIn label A a b))
      (Refuses ((Term.letIn label A a b).Bounded ∧
        ∃ T, HasType Θ Δ ((Term.letIn label A a b).under ε) T)) := by
  refine annotation_post h ih (fun ⟨hb, T, hT⟩ => ?_) fun {l d} hA hAt hr hd => ?_
  · obtain ⟨m, hm, _⟩ := HasType.letIn_inv hT
    exact ⟨hb.1, m, hm⟩
  refine Post.bind ((ih.check h a hd).refuses fun ⟨hb, T, hT⟩ => ?_) fun _ _ ⟨ha, hat⟩ => ?_
  · obtain ⟨_, _, ha, _⟩ := HasType.letIn_inv hT
    exact ⟨hb.2.1, ha.conv hr.equal⟩
  refine Post.bind (Refuses.lift (h.eval_post ha hat n)) fun v _ ⟨hv, hvr⟩ => ?_
  refine Refuses.imp (ih.infer (h.define hd hv hat hvr label) b)
    (fun w hw => ⟨hw.type, ⟨hA, ha, hw.all⟩, ?_⟩) fun ⟨hb, T, hT⟩ => ?_
  · refine .letIn hAt (hat.conv hr.equal.symm) ?_
    exact (Term.inst_under ε a b).symm ▸ hw.typed
  · obtain ⟨_, _, _, hT⟩ := HasType.letIn_inv hT
    exact ⟨hb.2.2, T, Term.inst_under ε a b ▸ hT⟩

theorem infer_app (f a : Term) :
    Post (Context.infer (n + 1) Γ (.app f a)) (Γ.Infers Θ Δ ε ℓ L (.app f a))
      (Refuses ((Term.app f a).Bounded ∧ ∃ T, HasType Θ Δ ((Term.app f a).under ε) T)) := by
  refine Post.bind ((ih.infer h f).refuses fun ⟨hb, T, hT⟩ => ?_) fun type _ hf => ?_
  · obtain ⟨A, B, hf, _⟩ := HasType.app_inv_of_not_partial hT (h.not_partial f)
    exact ⟨hb.1, _, hf⟩
  exact Refuses.imp (ih.inferArgument h a hf.type hf.typed)
    (fun v ⟨hv, ha, hvt⟩ => ⟨hv, ⟨hf.all, ha⟩, hvt⟩) fun ⟨hb, T, hT⟩ => ⟨hb.2, T, hT⟩

theorem infer_former (F : FamilyId) (as : List Term) :
    Post (Context.infer (n + 1) Γ (.former F as)) (Γ.Infers Θ Δ ε ℓ L (.former F as))
      (Refuses ((Term.former F as).Bounded ∧
        ∃ T, HasType Θ Δ ((Term.former F as).under ε) T)) := by
  rw [Context.infer, Term.under_former]
  refine Post.bind (Refuses.lift_orDangling (fun _ h => h) fun hF ⟨_, T, hT⟩ => ?_)
    fun G _ hG => ?_
  · obtain ⟨D, hD, _⟩ := hT.spine_former_inv
    obtain ⟨_, hG, _⟩ := h.models.describes.family?_of_eq_some hD
    cases hG.symm.trans hF
  obtain ⟨D, hD, dG⟩ := h.models.describes.family_of_eq_some hG
  obtain ⟨hty, hf⟩ := h.former_typed hG
  refine Refuses.imp (ih.inferSpine h as hty hf fun {T} hT => ?_) (fun v ⟨hv, has, hvt⟩ => ⟨hv, has, ?_⟩)
    fun ⟨hb, T, hT⟩ => ⟨Term.alls_iff.1 hb, T, hT⟩
  · obtain ⟨D', hD', hle, _⟩ := hT.spine_former_inv
    obtain rfl := Option.some.inj (hD.symm.trans hD')
    rwa [List.length_map, dG.parameters, dG.indices] at hle
  · rwa [Term.under_former]

theorem infer_con (c : ConstructorId) (as : List Term) :
    Post (Context.infer (n + 1) Γ (.con c as)) (Γ.Infers Θ Δ ε ℓ L (.con c as))
      (Refuses ((Term.con c as).Bounded ∧ ∃ T, HasType Θ Δ ((Term.con c as).under ε) T)) := by
  rw [Context.infer, Term.under_con]
  refine Post.bind (Refuses.lift_orDangling (fun _ h => h) fun hK ⟨_, T, hT⟩ => ?_)
    fun K _ hK => ?_
  · obtain ⟨C, hC, _⟩ := hT.spine_con_inv
    obtain ⟨_, hK', _⟩ := h.models.describes.constructor?_of_eq_some hC
    cases hK'.symm.trans hK
  obtain ⟨C, hC, dK⟩ := h.models.describes.constructor_of_eq_some hK
  obtain ⟨hty, hf⟩ := h.con_typed hK
  refine Refuses.imp (ih.inferSpine h as hty hf fun {T} hT => ?_) (fun v ⟨hv, has, hvt⟩ => ⟨hv, has, ?_⟩)
    fun ⟨hb, T, hT⟩ => ⟨Term.alls_iff.1 hb, T, hT⟩
  · obtain ⟨C', hC', hle, _⟩ := hT.spine_con_inv
    obtain rfl := Option.some.inj (hC.symm.trans hC')
    rwa [List.length_map, ConstructorShape.arity, dK.parameters, dK.fields] at hle
  · rwa [Term.under_con]

/-! ### Checking -/

/-- **A term that is inferred and compared.** -/
theorem compare_post (t : Term) {type : Value} (hty : type.IsType Θ Δ L ℓ) :
    Post (do
        let inferred ← Context.infer n Γ t
        if ← Γ.convert n inferred type then .ok ()
        else do
          let expected ← Γ.quote n type
          let found ← Γ.quote n inferred
          (TypeError.mismatch expected found).throw)
      (fun _ => t.All Γ.signature.leaves ∧ HasType Θ Δ (t.under ε) (type.plain ℓ))
      (Refuses (t.Bounded ∧ HasType Θ Δ (t.under ε) (type.plain ℓ))) := by
  refine Post.bind ((ih.infer h t).refuses fun ⟨hb, hT⟩ => ⟨hb, _, hT⟩) fun inferred _ ht => ?_
  refine Post.bind (Refuses.lift (h.convert_decides ht.type hty n)) fun b _ hb => ?_
  cases b with
  | true => exact ⟨ht.all, .conv ht.typed (hb.1 rfl)⟩
  | false =>
    obtain ⟨_, htyped⟩ := hty.typed
    obtain ⟨_, htyped'⟩ := ht.type.typed
    refine Post.bind (Refuses.lift (h.quote_safe hty.all htyped n)) fun _ _ _ => ?_
    refine Refuses.lift_throw (h.quote_safe ht.type.all htyped' n) fun ⟨_, hT⟩ => ?_
    exact Bool.false_ne_true (hb.2 (ht.typed.unique hT))

/-- **A function against a function type.** -/
theorem check_lam (label : Label) (A b : Term) {base : Value} {family : Closure}
    (hty : (Value.pi base family).IsType Θ Δ L ℓ) :
    Post (Context.check (n + 1) Γ (.lam label A b) (.pi base family))
      (fun _ => (Term.lam label A b).All Γ.signature.leaves ∧
        HasType Θ Δ ((Term.lam label A b).under ε) ((Value.pi base family).plain ℓ))
      (Refuses ((Term.lam label A b).Bounded ∧
        HasType Θ Δ ((Term.lam label A b).under ε) ((Value.pi base family).plain ℓ))) := by
  refine annotation_post h ih (fun ⟨hb, hT⟩ => ?_) fun {l d} hA hAt hr hd => ?_
  · obtain ⟨m, _, hm, _⟩ := HasType.lam_inv hT
    exact ⟨hb.1, m, hm⟩
  refine Post.bind (Refuses.lift (h.convert_decides hd hty.domain n)) fun eq _ heq => ?_
  cases eq with
  | false =>
    obtain ⟨_, hbase⟩ := hty.domain.typed
    obtain ⟨_, hdt⟩ := hd.typed
    refine Post.bind (Refuses.lift (h.quote_safe hty.domain.all hbase n)) fun _ _ _ => ?_
    refine Refuses.lift_throw (h.quote_safe hd.all hdt n) fun ⟨_, hT⟩ => ?_
    obtain ⟨_, _, _, _, e⟩ := HasType.lam_inv hT
    exact Bool.false_ne_true (heq.2 (hr.equal.symm.trans (Theory.Equal.pi_inj e).1))
  | true =>
    have e := heq.1 rfl
    refine Post.bind (Refuses.lift (hty.enter h.models.sound h.models.describes h.scope n))
      fun codomain _ ⟨hc, hcr⟩ => ?_
    -- The context holds the domain of the function, which is equal to that of the type.
    have hc' : codomain.IsType Θ (d.plain ℓ :: Δ) (L.bind Γ.level) (extend ℓ Γ.level) := by
      obtain ⟨m, hm⟩ := hc.typed
      exact ⟨hc.all, m, hm.change e.symm⟩
    refine Refuses.imp (ih.check (h.bind hd label) b hc') (fun _ ⟨hb, hbt⟩ => ⟨⟨hA, hb⟩, ?_⟩)
      fun ⟨hb, hT⟩ => ⟨hb.2, ?_⟩
    · rw [Term.under_bind] at hbt
      exact .conv (.lam hAt (hbt.change hr.equal.symm)) (.pi (hr.equal.trans e) hcr.equal.symm)
    · obtain ⟨_, _, _, hbt, e'⟩ := HasType.lam_inv hT
      rw [← Term.under_bind] at hbt
      exact (hbt.change hr.equal).conv ((Theory.Equal.pi_inj e').2.trans hcr.equal)

theorem check_letIn (label : Label) (A a b : Term) {type : Value} (hty : type.IsType Θ Δ L ℓ) :
    Post (Context.check (n + 1) Γ (.letIn label A a b) type)
      (fun _ => (Term.letIn label A a b).All Γ.signature.leaves ∧
        HasType Θ Δ ((Term.letIn label A a b).under ε) (type.plain ℓ))
      (Refuses ((Term.letIn label A a b).Bounded ∧
        HasType Θ Δ ((Term.letIn label A a b).under ε) (type.plain ℓ))) := by
  refine annotation_post h ih (fun ⟨hb, hT⟩ => ?_) fun {l d} hA hAt hr hd => ?_
  · obtain ⟨m, hm, _⟩ := HasType.letIn_inv hT
    exact ⟨hb.1, m, hm⟩
  refine Post.bind ((ih.check h a hd).refuses fun ⟨hb, hT⟩ => ?_) fun _ _ ⟨ha, hat⟩ => ?_
  · obtain ⟨_, _, ha, _⟩ := HasType.letIn_inv hT
    exact ⟨hb.2.1, ha.conv hr.equal⟩
  refine Post.bind (Refuses.lift (h.eval_post ha hat n)) fun v _ ⟨hv, hvr⟩ => ?_
  refine Refuses.imp (ih.check (h.define hd hv hat hvr label) b hty)
    (fun _ ⟨hb, hbt⟩ => ⟨⟨hA, ha, hb⟩, ?_⟩) fun ⟨hb, hT⟩ => ?_
  · refine .letIn hAt (hat.conv hr.equal.symm) ?_
    exact (Term.inst_under ε a b).symm ▸ hbt
  · obtain ⟨_, _, _, hT⟩ := HasType.letIn_inv hT
    exact ⟨hb.2.2, Term.inst_under ε a b ▸ hT⟩

theorem checkType_step (t : Term) :
    Post (Context.checkType (n + 1) Γ t)
      (fun l => t.All Γ.signature.leaves ∧ HasType Θ Δ (t.under ε) (.atom (.type l.toNat)))
      (Refuses (t.Bounded ∧ ∃ m, HasType Θ Δ (t.under ε) (.atom (.type m)))) := by
  refine Post.bind ((ih.infer h t).refuses fun ⟨hb, _, hT⟩ => ⟨hb, _, hT⟩) fun type _ ht => ?_
  split
  · exact ⟨ht.all, ht.typed⟩
  · next hne =>
    obtain ⟨_, htyped⟩ := ht.type.typed
    refine Refuses.lift_throw (h.quote_safe ht.type.all htyped n) fun ⟨_, m, hT⟩ => ?_
    obtain ⟨l, e, _⟩ := ht.type.eq_type h.scope (ht.typed.unique hT)
    exact hne l e

theorem inferArgument_step {type : Value} {f : Plain} (a : Term) (hty : type.IsType Θ Δ L ℓ)
    (hf : HasType Θ Δ f (type.plain ℓ)) :
    Post (Context.inferArgument (n + 1) Γ type a)
      (fun v => v.IsType Θ Δ L ℓ ∧ a.All Γ.signature.leaves ∧
        HasType Θ Δ (.app f (a.under ε)) (v.plain ℓ))
      (Refuses (a.Bounded ∧ ∃ T, HasType Θ Δ (.app f (a.under ε)) T)) := by
  unfold Context.inferArgument
  split
  · next base family =>
    refine Post.bind ((ih.check h a hty.domain).refuses fun ⟨hb, T, hT⟩ => ⟨hb, ?_⟩)
      fun _ _ ⟨ha, hat⟩ => ?_
    · obtain ⟨A, B, hf', ha, _⟩ := hT.app_inv_of_not_partial hf.not_partial
      exact ha.conv (Theory.Equal.pi_inj (hf'.unique hf)).1
    refine Post.bind (Refuses.lift (h.eval_post ha hat n)) fun v _ ⟨hv, hvr⟩ => ?_
    refine (Refuses.lift (hty.instantiate h.models.sound h.models.describes h.scope hv
      (hat.reds h.models.sound hvr) n)).mono (fun w ⟨hw, hwr⟩ => ⟨hw, ha, ?_⟩) fun _ h => h
    exact .conv (.app hf hat) (((Theory.Equal.refl _).inst hvr.equal).trans hwr.equal)
  · next hne =>
    obtain ⟨_, htyped⟩ := hty.typed
    refine Refuses.lift_throw (h.quote_safe hty.all htyped n) fun ⟨_, T, hT⟩ => ?_
    obtain ⟨A, B, hf', _⟩ := hT.app_inv_of_not_partial hf.not_partial
    obtain ⟨d, c, e⟩ := hty.eq_pi h.scope (hf.unique hf')
    exact hne d c e

/-- The arguments of a former or constructor are checked one after the other. -/
theorem inferArguments_post {as : List Term} {type : Value} {f : Plain}
    (hty : type.IsType Θ Δ L ℓ) (hf : HasType Θ Δ f (type.plain ℓ)) :
    Post (as.foldlM (fun type a => Context.inferArgument n Γ type a) type)
      (fun v => v.IsType Θ Δ L ℓ ∧ Term.Alls Γ.signature.leaves as ∧
        HasType Θ Δ (spine f (as.map (Term.under ε))) (v.plain ℓ))
      (Refuses ((∀ a ∈ as, a.Bounded) ∧
        ∃ T, HasType Θ Δ (spine f (as.map (Term.under ε))) T)) := by
  induction as generalizing type f with
  | nil => exact ⟨hty, trivial, hf⟩
  | cons a as ihas =>
    rw [List.foldlM_cons]
    refine Post.bind ((ih.inferArgument h a hty hf).refuses fun ⟨hb, T, hT⟩ => ?_)
      fun v _ ⟨hv, ha, hvt⟩ => ?_
    · exact ⟨hb a List.mem_cons_self,
        HasType.of_spine (f := .app f (a.under ε)) hT fun hp => hf.not_partial hp.of_app⟩
    exact Refuses.imp (ihas hv hvt) (fun w ⟨hw, has, hwt⟩ => ⟨hw, ⟨ha, has⟩, hwt⟩)
      fun ⟨hb, T, hT⟩ => ⟨fun x hx => hb x (List.mem_cons_of_mem a hx), T, hT⟩

/-! ### Eliminations -/

omit ih in
/-- **The type of a target is split into its family, parameters and indices.** -/
theorem splitTarget_post {type : Value} {J : Prop} (hty : type.IsType Θ Δ L ℓ)
    (hJ : J → ∃ F D as, Θ.family F = some D ∧
      as.length = D.parameters.length + D.indices.length ∧
      Θ.Equal (type.plain ℓ) (spine (.atom (.former F)) as)) :
    Post (Γ.splitTarget n type) (fun (F, ps, is) => ∃ id D, Γ.signature.family? id = some F ∧
        Θ.family id = some D ∧ D.Describes Θ id F ∧ type = .former id (ps ++ is) ∧
        ps.length = D.parameters.length ∧ is.length = D.indices.length)
      (Refuses J) := by
  obtain ⟨m, hm⟩ := hty.typed
  have hquote := h.quote_safe hty.all hm n
  unfold Context.splitTarget
  split
  · next id as =>
    obtain ⟨D, hD, _⟩ := HasType.spine_former_inv hm
    obtain ⟨F, hF, dF⟩ := h.models.describes.family?_of_eq_some hD
    refine Post.bind (P := (F = ·)) ?_ ?_
    · exact Refuses.lift_orDangling (fun G hG => Option.some.inj (hF.symm.trans hG))
        fun hn => nomatch hF.symm.trans hn
    rintro _ _ rfl
    have harity : F.arity = D.parameters.length + D.indices.length := by
      rw [Family.arity, dF.parameters, dF.indices]
    rw [harity, ← dF.parameters]
    split
    · next hl =>
      refine ⟨id, D, hF, hD, dF, ?_, ?_, ?_⟩
      · rw [List.take_append_drop]
      · exact List.length_take_of_le (by omega)
      · rw [List.length_drop, hl, Nat.add_sub_cancel_left]
    · next hl =>
      refine Refuses.lift_throw hquote fun j => hl ?_
      obtain ⟨F', D', bs, hD', hbs, e⟩ := hJ j
      obtain ⟨rfl, hall⟩ := Theory.Equal.former_inj e
      obtain rfl := Option.some.inj (hD.symm.trans hD')
      rw [← hbs, ← hall.length_eq, Value.length_plains]
  · next hne =>
    refine Refuses.lift_throw hquote fun j => ?_
    obtain ⟨F, D, bs, _, _, e⟩ := hJ j
    obtain ⟨cs, e, _⟩ := hty.eq_former h.scope e
    exact hne F cs e

/-- What is known about an elimination once its target is: the family, the parameters and the
indices. -/
structure Target (Θ : Theory) (Γ : Context) (Δ ε : List Plain) (ℓ : Nat → Plain) (L : Leaves)
    (t : Term) (id : FamilyId) (F : Family) (D : FamilyShape) (ps is : List Value) : Prop where
  typed : HasType Θ Δ (t.under ε)
    (spine (.atom (.former id)) (Value.plains ℓ ps ++ Value.plains ℓ is))
  family? : Γ.signature.family? id = some F
  family : Θ.family id = some D
  describes : D.Describes Θ id F
  parameters : Value.Alls L ps
  indices : Value.Alls L is
  instance_parameters : Instance Θ Δ [] D.parameters (Value.plains ℓ ps)
  instance_indices : Instance Θ Δ (Value.plains ℓ ps).reverse D.indices (Value.plains ℓ is)

omit h ih in
theorem Target.of_isType {t : Term} {id : FamilyId} {F : Family} {D : FamilyShape}
    {ps is : List Value} (hty : (Value.former id (ps ++ is)).IsType Θ Δ L ℓ)
    (htt : HasType Θ Δ (t.under ε) ((Value.former id (ps ++ is)).plain ℓ))
    (hF : Γ.signature.family? id = some F) (hD : Θ.family id = some D) (dF : D.Describes Θ id F)
    (hps : ps.length = D.parameters.length) (his : is.length = D.indices.length) :
    Target Θ Γ Δ ε ℓ L t id F D ps is := by
  obtain ⟨m, hm⟩ := hty.typed
  obtain ⟨hpsa, hisa⟩ := Value.alls_append.1 hty.all
  rw [Value.plain, Value.plains_append] at htt hm
  obtain ⟨D', hD', _, _, hfull⟩ := hm.spine_former_inv
  obtain rfl := Option.some.inj (hD.symm.trans hD')
  obtain ⟨hinst, _⟩ := hfull (by simp [hps, his])
  obtain ⟨hpi, hii⟩ := hinst.of_append (by simp [hps])
  rw [List.append_nil] at hii
  exact ⟨htt, hF, hD, dF, hpsa, hisa, hpi, hii⟩

section

variable {t M : Term} {ms : List Term} {id : FamilyId} {F : Family} {D : FamilyShape}
  {ps is : List Value} (tgt : Target Θ Γ Δ ε ℓ L t id F D ps is)

include tgt

omit h ih in
/-- The parts of an elimination of the target are typed. -/
theorem Target.elimination {T : Plain} (hT : HasType Θ Δ ((Term.elim t M ms).under ε) T) :
    ∃ cs u, HasType.Elimination Θ Δ (M.under ε) (ms.map (Term.under ε)) (t.under ε) id D cs
      (Value.plains ℓ ps) (Value.plains ℓ is) u := by
  rw [Term.under_elim] at hT
  exact hT.elimination tgt.family tgt.typed tgt.instance_parameters.length_eq
    tgt.instance_indices.length_eq

omit ih in
/-- **The type of an elimination is the motive at the indices and at the target.** -/
theorem Target.result_post {m a : Value} {u : Nat} (hm : m.All L)
    (hmt : HasType Θ Δ (m.plain ℓ) (D.motiveType id (Value.plains ℓ ps) u)) (ha : a.All L)
    (hat : HasType Θ Δ (a.plain ℓ)
      (spine (.atom (.former id)) (Value.plains ℓ ps ++ Value.plains ℓ is))) :
    Post (m.applyAll Γ.signature n (is ++ [a])) (fun v => v.IsType Θ Δ L ℓ ∧
      Reds Θ (spine (m.plain ℓ) (Value.plains ℓ is ++ [a.plain ℓ])) (v.plain ℓ))
      Halt.Resource := by
  have hmot := HasType.motive tgt.instance_parameters.length_eq tgt.instance_indices hmt hat
  have happ : Value.plains ℓ (is ++ [a]) = Value.plains ℓ is ++ [a.plain ℓ] :=
    Value.plains_append ℓ is [a]
  rw [← happ] at hmot ⊢
  refine .intro (fun v e => ?_) fun _ e => Post.of_error
    (Value.applyAll_safe h.models.sound h.models.describes h.scope.levelMap hmot) e
  have hr := Value.applyAll_reds (Value.apply_reds h.models.describes) e ℓ
  have hall : Value.Alls L (is ++ [a]) := Value.alls_append.2 ⟨tgt.indices, ha, trivial⟩
  exact ⟨⟨Value.applyAll_all (Value.apply_all h.scope.closed) hm hall e, u,
    hmot.reds h.models.sound hr⟩, hr⟩

omit ih in
/-- **The type that a method is expected to have is that of the rule.** -/
theorem Target.methodType_post {cs : List ConstructorId} (hcs : D.constructors = some cs)
    {c : ConstructorId} (hc : c ∈ cs) {m : Value} {u : Nat} (hm : m.All L)
    (hr : Reds Θ (M.under ε) (m.plain ℓ))
    (hmt : HasType Θ Δ (m.plain ℓ) (D.motiveType id (Value.plains ℓ ps) u)) {K : Constructor}
    (hK : Γ.signature.constructor? c = some K) :
    Post (methodType Γ.signature n Γ.level Γ.env K ps m) (fun v => v.IsType Θ Δ L ℓ ∧
      ∃ C, Θ.constructor c = some C ∧
        Θ.Equal (v.plain ℓ) (C.methodType c (Value.plains ℓ ps) (M.under ε))) Halt.Resource := by
  obtain ⟨C, hC, dK⟩ := h.models.describes.constructor_of_eq_some hK
  obtain ⟨C', hC', rfl⟩ := (h.models.sound.constructors tgt.family hcs c).1 hc
  obtain rfl := Option.some.inj (hC.symm.trans hC')
  obtain ⟨D', hD', hV⟩ := h.models.sound.constructor hC
  obtain rfl := Option.some.inj (tgt.family.symm.trans hD')
  refine Post.mono (Constructions.methodType_post h.models.sound h.models.describes h.scope hC dK
    ((h.models.grounded.constructor hK).mono h.leaves) tgt.family hV tgt.parameters
    tgt.instance_parameters hm hmt h.alls_env h.inverse n) (fun v ⟨hty, e⟩ => ?_) fun _ h => h
  exact ⟨hty, C, hC, e.trans (.subst_ofList _ (.cons hr.equal.symm (Theory.Equal.refls _)))⟩

/-- **A method is checked against the type of the rule.** -/
theorem method_post {cs : List ConstructorId} (hcs : D.constructors = some cs) {c : ConstructorId}
    (hc : c ∈ cs) {m : Value} {u : Nat} (hm : m.All L) (hr : Reds Θ (M.under ε) (m.plain ℓ))
    (hmt : HasType Θ Δ (m.plain ℓ) (D.motiveType id (Value.plains ℓ ps) u)) (method : Term) :
    Post (do
        let K ← orDangling (Γ.signature.constructor? c)
        let expected ← methodType Γ.signature n Γ.level Γ.env K ps m
        Context.check n Γ method expected : Check Unit)
      (fun _ => method.All Γ.signature.leaves ∧ ∀ {C}, Θ.constructor c = some C →
        HasType Θ Δ (method.under ε) (C.methodType c (Value.plains ℓ ps) (M.under ε)))
      (Refuses (method.Bounded ∧ ∀ {C}, Θ.constructor c = some C →
        HasType Θ Δ (method.under ε) (C.methodType c (Value.plains ℓ ps) (M.under ε)))) := by
  obtain ⟨C₀, hC₀, _⟩ := (h.models.sound.constructors tgt.family hcs c).1 hc
  obtain ⟨K, hK, _⟩ := h.models.describes.constructor?_of_eq_some hC₀
  refine Post.bind (P := (K = ·)) ?_ ?_
  · exact Refuses.lift_orDangling (fun G hG => Option.some.inj (hK.symm.trans hG))
      fun hn => nomatch hK.symm.trans hn
  rintro _ _ rfl
  refine Post.bind (Refuses.lift (tgt.methodType_post h hcs hc hm hr hmt hK))
    fun expected _ ⟨hty, C, hC, e⟩ => ?_
  refine Refuses.imp (ih.check h method hty) (fun _ ⟨ha, hat⟩ => ⟨ha, fun {C'} hC' => ?_⟩)
    fun ⟨hb, hT⟩ => ⟨hb, (hT hC).conv e.symm⟩
  obtain rfl := Option.some.inj (hC.symm.trans hC')
  exact hat.conv e

/-- **The methods of an elimination are checked.** -/
theorem methods_post {cs : List ConstructorId} (hcs : D.constructors = some cs)
    (hl : ms.length = cs.length) {m : Value} {u : Nat} (hm : m.All L)
    (hr : Reds Θ (M.under ε) (m.plain ℓ))
    (hmt : HasType Θ Δ (m.plain ℓ) (D.motiveType id (Value.plains ℓ ps) u)) :
    Post ((ms.zip cs).forM fun (method, c) => (do
        let K ← orDangling (Γ.signature.constructor? c)
        let expected ← methodType Γ.signature n Γ.level Γ.env K ps m
        Context.check n Γ method expected : Check Unit))
      (fun _ => Term.Alls Γ.signature.leaves ms ∧ ∀ {j : Nat} {a c C},
        (ms.map (Term.under ε))[j]? = some a → cs[j]? = some c → Θ.constructor c = some C →
        HasType Θ Δ a (C.methodType c (Value.plains ℓ ps) (M.under ε)))
      (Refuses ((Term.elim t M ms).Bounded ∧
        ∃ T, HasType Θ Δ ((Term.elim t M ms).under ε) T)) := by
  have hmem {a : Term} {c : ConstructorId} {j : Nat} (ha : ms[j]? = some a) (hc : cs[j]? = some c) :
      (a, c) ∈ ms.zip cs := List.mem_of_getElem? (List.getElem?_zip_eq_some.2 ⟨ha, hc⟩)
  refine Post.mono (Post.forM fun x hx => (method_post h ih tgt hcs (List.of_mem_zip hx).2 hm hr hmt
    x.1).refuses ?_) (fun _ hall => ⟨?_, ?_⟩) fun _ h => h
  · rintro ⟨hb, T, hT⟩
    obtain ⟨j, hj⟩ := List.getElem?_of_mem hx
    obtain ⟨hmj, hcj⟩ := List.getElem?_zip_eq_some.1 hj
    obtain ⟨cs', u, he⟩ := tgt.elimination hT
    obtain rfl := Option.some.inj (hcs.symm.trans he.constructors)
    refine ⟨Term.alls_iff.1 hb.2.2 _ (List.of_mem_zip hx).1, fun hC => he.method ?_ hcj hC⟩
    rw [List.getElem?_map, hmj]
    rfl
  · refine Term.alls_iff.2 fun a ha => ?_
    obtain ⟨j, hj⟩ := List.getElem?_of_mem ha
    have hjl : j < cs.length := hl ▸ (List.getElem?_eq_some_iff.1 hj).1
    exact (hall _ (hmem hj (List.getElem?_eq_getElem hjl))).1
  · intro j a c C ha hc hC
    rw [List.getElem?_map] at ha
    obtain ⟨b, hb, rfl⟩ := Option.map_eq_some_iff.1 ha
    exact (hall _ (hmem hb hc)).2 hC

end

/-- **An elimination.** -/
theorem infer_elim (t M : Term) (ms : List Term) :
    Post (Context.infer (n + 1) Γ (.elim t M ms)) (Γ.Infers Θ Δ ε ℓ L (.elim t M ms))
      (Refuses ((Term.elim t M ms).Bounded ∧
        ∃ T, HasType Θ Δ ((Term.elim t M ms).under ε) T)) := by
  refine Post.bind ((ih.infer h t).refuses fun ⟨hb, T, hT⟩ => ?_) fun type _ ht => ?_
  · rw [Term.under_elim] at hT
    obtain ⟨_, _, _, _, _, _, he, _⟩ := hT.elim_inv
    exact ⟨hb.1, _, he.target⟩
  refine Post.bind (splitTarget_post h ht.type fun ⟨hb, T, hT⟩ => ?_) ?_
  · rw [Term.under_elim] at hT
    obtain ⟨F, D, _, ps, is, _, he, _⟩ := hT.elim_inv
    refine ⟨F, D, ps ++ is, he.family, ?_, ht.typed.unique he.target⟩
    rw [List.length_append, he.parameters, he.indices]
  rintro ⟨F, ps, is⟩ _ ⟨id, D, hF, hD, dF, rfl, hps, his⟩
  have tgt := Target.of_isType ht.type ht.typed hF hD dF hps his
  refine Post.bind (P := fun table => D.constructors = some table.constructors) ?_
    fun table _ hcs => ?_
  · unfold dispatch
    split
    · next htable => exact dF.constructors.trans (congrArg _ htable)
    · next htable =>
      rintro ⟨_, T, hT⟩
      obtain ⟨_, _, he⟩ := tgt.elimination hT
      obtain ⟨_, htable', _⟩ := dF.exists_table he.constructors
      cases htable.symm.trans htable'
  split
  · next hl =>
    rintro ⟨_, T, hT⟩
    obtain ⟨_, _, he⟩ := tgt.elimination hT
    obtain rfl := Option.some.inj (hcs.symm.trans he.constructors)
    exact hl ((List.length_map _).symm.trans he.methods)
  · next hl =>
    rw [not_not] at hl
    refine Post.bind ((ih.infer h M).refuses fun ⟨hb, T, hT⟩ => ?_) fun motiveType _ hM => ?_
    · obtain ⟨_, _, he⟩ := tgt.elimination hT
      exact ⟨hb.2.1, _, he.motive⟩
    refine Post.bind (Refuses.lift (motiveDomains_post h.models.sound h.models.describes h.scope
      tgt.family tgt.describes ((h.models.grounded.family hF).mono h.leaves) tgt.parameters
      tgt.instance_parameters n)) fun ds _ ⟨hds, hmot⟩ => ?_
    obtain ⟨_, _, hdst⟩ := hmot 0
    refine Post.bind (Refuses.lift (motiveLevel?_post h.models.sound h.models.describes h.scope hds
      hdst hM.type n)) fun o _ ho => ?_
    cases o with
    | none =>
      obtain ⟨_, htyped⟩ := hM.type.typed
      refine Refuses.lift_throw (h.quote_safe hM.type.all htyped n) fun ⟨_, T, hT⟩ => ?_
      obtain ⟨_, u, he⟩ := tgt.elimination hT
      obtain ⟨_, e, _⟩ := (ho u).1 ((hM.typed.unique he.motive).trans (hmot u).1.symm)
      cases e
    | some l =>
      have hMt : HasType Θ Δ (M.under ε) (D.motiveType id (Value.plains ℓ ps) l.toNat) :=
        hM.typed.conv (((ho l.toNat).2 ⟨l, rfl, rfl⟩).trans (hmot l.toNat).1)
      refine Post.bind (Refuses.lift (h.eval_post hM.all hMt n)) fun m _ ⟨hm, hr⟩ => ?_
      have hmt := hMt.reds h.models.sound hr
      refine Post.bind (methods_post h ih tgt hcs hl hm hr hmt) fun _ _ ⟨hms, hmst⟩ => ?_
      refine Post.bind (Refuses.lift (h.eval_post ht.all tgt.typed n)) fun a _ ⟨ha, har⟩ => ?_
      refine Refuses.lift (Post.mono (tgt.result_post h hm hmt ha
        (tgt.typed.reds h.models.sound har)) (fun v ⟨hv, hvr⟩ => ⟨hv, ⟨ht.all, hM.all, hms⟩, ?_⟩)
        fun _ h => h)
      rw [Term.under_elim]
      refine .conv (.elim tgt.family hcs tgt.instance_parameters.length_eq
        tgt.instance_indices.length_eq (by rw [List.length_map, hl]) tgt.typed hMt hmst)
        (Theory.Equal.trans (.spine hr.equal ?_) hvr.equal)
      exact List.rel_append (Theory.Equal.refls _) (.cons har.equal .nil)

end

/-- **The procedures agree with the typing rules.** -/
theorem correct (Θ : Theory) (n : Nat) : Correct Θ n := by
  induction n with
  | zero =>
    have hex {J : Prop} : Refuses J (.halt .exhausted) := .inl (.inl rfl)
    exact ⟨fun _ _ => hex, fun _ _ _ _ => hex, fun _ _ => hex, fun _ _ _ _ _ _ => hex,
      fun _ _ _ _ _ _ _ _ => hex⟩
  | succ n ih =>
    refine ⟨?_, ?_, fun h t => checkType_step h ih t, fun h _ _ a => inferArgument_step h ih a, ?_⟩
    · intro Γ Δ ε ℓ L h t
      cases t with
      | var label i => exact infer_var h label i
      | const c => exact infer_const h c
      | letIn label A a b => exact infer_letIn h ih label A a b
      | type l => exact infer_type h l
      | pi label A B => exact infer_pi h ih label A B
      | lam label A b => exact infer_lam h ih label A b
      | app f a => exact infer_app h ih f a
      | former F as => exact infer_former h ih F as
      | con c as => exact infer_con h ih c as
      | elim t M ms => exact infer_elim h ih t M ms
    · intro Γ Δ ε ℓ L h t type hty
      cases t with
      | lam label A b =>
        cases type with
        | pi base family => exact check_lam h ih label A b hty
        | neutral | type | lam | former | con => exact compare_post h ih _ hty
      | letIn label A a b => exact check_letIn h ih label A a b hty
      | var | const | type | pi | app | former | con | elim => exact compare_post h ih _ hty
    · intro Γ Δ ε ℓ L h type f k as hty hf hle
      rw [Context.inferSpine]
      split
      · next hlt => exact fun ⟨_, T, hT⟩ => Nat.not_le.2 hlt (hle hT)
      · exact inferArguments_post h ih hty hf

variable (h : Γ.Typed Θ Δ ε ℓ L)

include h

/-- **Inference finds a type of a term, or there is none.** -/
theorem infer_post (n : Nat) (t : Term) :
    Post (Context.infer n Γ t) (Γ.Infers Θ Δ ε ℓ L t)
      (Refuses (t.Bounded ∧ ∃ T, HasType Θ Δ (t.under ε) T)) := (correct Θ n).infer h t

/-- **Checking decides whether a term has a type.** -/
theorem check_post (n : Nat) (t : Term) {type : Value} (hty : type.IsType Θ Δ L ℓ) :
    Post (Context.check n Γ t type)
      (fun _ => t.All Γ.signature.leaves ∧ HasType Θ Δ (t.under ε) (type.plain ℓ))
      (Refuses (t.Bounded ∧ HasType Θ Δ (t.under ε) (type.plain ℓ))) :=
  (correct Θ n).check h t hty

/-- **Checking decides whether a term is a type, and finds its universe.** -/
theorem checkType_post (n : Nat) (t : Term) :
    Post (Context.checkType n Γ t)
      (fun l => t.All Γ.signature.leaves ∧ HasType Θ Δ (t.under ε) (.atom (.type l.toNat)))
      (Refuses (t.Bounded ∧ ∃ m, HasType Θ Δ (t.under ε) (.atom (.type m)))) :=
  (correct Θ n).checkType h t

end Context

end Constructions
