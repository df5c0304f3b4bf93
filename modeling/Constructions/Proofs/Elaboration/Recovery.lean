/-
# Elaborating what was printed

The expression that a typed term is printed as elaborates to the term itself, unless fuel is
lacking (`Context.recovers`).  The conditions on the term are that its names are resolved as they
were, that arguments are where they belong, that each universe has a successor (`Term.Legible`),
and that no domain is there to be computed (`Term.Settled`).

| form | comes back because |
| --- | --- |
| a variable, a declared name | the innermost binder with the name is looked for first |
| a function | its domain is printed, and computes to itself or is only compared |
| a local definition | its type is printed |
| a call | an argument is taken into the list of a former or constructor |
| an elimination | the domains of its motive are printed, so none is filled in |

Types are compared on the way.  They are equal by the typing rules, so no comparison fails; but it
may run out of fuel, and the first elaboration of the term says nothing about that.
-/

import Constructions.Proofs.Elaboration
import Constructions.Proofs.Elaboration.Settled
import Constructions.Proofs.Registry.Runs
import Constructions.Proofs.Relabelling.Kernel

namespace Constructions

/-! ### Terms that can be read -/

/-- A term that a reader of its text can put together again: names are resolved as they were,
arguments are where they belong, and each universe has a successor. -/
structure Term.Legible (S : Signature) (ls : List Label) (t : Term) : Prop where
  named : t.Named S ls
  flat : t.Flat
  bounded : t.Bounded

namespace Term

variable {S : Signature} {ls : List Label} {fs : List Bool} {label : Label} {A B a b f t M : Term}
  {as ms : List Term}

theorem legible_pi (h : (Term.pi label A B).Legible S ls) :
    A.Legible S ls ∧ B.Legible S (label :: ls) :=
  ⟨⟨h.named.1, h.flat.1, h.bounded.1⟩, h.named.2, h.flat.2, h.bounded.2⟩

theorem legible_lam (h : (Term.lam label A b).Legible S ls) :
    A.Legible S ls ∧ b.Legible S (label :: ls) :=
  ⟨⟨h.named.1, h.flat.1, h.bounded.1⟩, h.named.2, h.flat.2, h.bounded.2⟩

theorem legible_letIn (h : (Term.letIn label A a b).Legible S ls) :
    A.Legible S ls ∧ a.Legible S ls ∧ b.Legible S (label :: ls) :=
  ⟨⟨h.named.1, h.flat.1, h.bounded.1⟩, ⟨h.named.2.1, h.flat.2.1, h.bounded.2.1⟩,
    h.named.2.2, h.flat.2.2, h.bounded.2.2⟩

theorem legible_app (h : (Term.app f a).Legible S ls) : f.Legible S ls ∧ a.Legible S ls :=
  ⟨⟨h.named.1, h.flat.2.1, h.bounded.1⟩, h.named.2, h.flat.2.2, h.bounded.2⟩

theorem legible_all (hn : AllNamed S ls as) (hf : AllFlat as) (hb : ∀ a ∈ as, a.Bounded) :
    ∀ a ∈ as, a.Legible S ls :=
  fun a ha => ⟨allNamed_iff.1 hn a ha, allFlat_iff.1 hf a ha, hb a ha⟩

theorem legible_former {id : FamilyId} : (Term.former id as).Legible S ls ↔
    some (S.familyName id) ∉ ls ∧ ∀ a ∈ as, a.Legible S ls := by
  constructor
  · exact fun h => ⟨h.named.1, legible_all h.named.2 h.flat (alls_iff.1 h.bounded)⟩
  · exact fun ⟨hname, h⟩ => ⟨⟨hname, allNamed_iff.2 fun a ha => (h a ha).named⟩,
      allFlat_iff.2 fun a ha => (h a ha).flat, alls_iff.2 fun a ha => (h a ha).bounded⟩

theorem legible_con {id : ConstructorId} : (Term.con id as).Legible S ls ↔
    some (S.constructorName id) ∉ ls ∧ ∀ a ∈ as, a.Legible S ls := by
  constructor
  · exact fun h => ⟨h.named.1, legible_all h.named.2 h.flat (alls_iff.1 h.bounded)⟩
  · exact fun ⟨hname, h⟩ => ⟨⟨hname, allNamed_iff.2 fun a ha => (h a ha).named⟩,
      allFlat_iff.2 fun a ha => (h a ha).flat, alls_iff.2 fun a ha => (h a ha).bounded⟩

theorem legible_elim (h : (Term.elim t M ms).Legible S ls) :
    t.Legible S ls ∧ M.Legible S ls ∧ ∀ m ∈ ms, m.Legible S ls :=
  ⟨⟨h.named.1, h.flat.1, h.bounded.1⟩, ⟨h.named.2.1, h.flat.2.1, h.bounded.2.1⟩,
    legible_all h.named.2.2 h.flat.2.2 (alls_iff.1 h.bounded.2.2)⟩

theorem expression_former_concat (S : Signature) (id : FamilyId) (as : List Term) (a : Term) :
    (Term.former id (as ++ [a])).expression S =
      .call default ((Term.former id as).expression S) (a.expression S) := by
  rw [expression, expression, expressions_eq_map, expressions_eq_map, List.map_append,
    List.foldl_append]
  rfl

theorem expression_con_concat (S : Signature) (id : ConstructorId) (as : List Term) (a : Term) :
    (Term.con id (as ++ [a])).expression S =
      .call default ((Term.con id as).expression S) (a.expression S) := by
  rw [expression, expression, expressions_eq_map, expressions_eq_map, List.map_append,
    List.foldl_append]
  rfl

/-- A function is printed with its domain. -/
theorem expression_ne_lam (t : Term) (span : Span) (label : Located Label) (body : Expression) :
    t.expression S ≠ .lam span label body := by
  cases t with
  | former id as =>
    obtain rfl | ⟨as, a, rfl⟩ := List.eq_nil_or_concat' as
    · rintro ⟨⟩
    · rw [expression_former_concat]
      rintro ⟨⟩
  | con id as =>
    obtain rfl | ⟨as, a, rfl⟩ := List.eq_nil_or_concat' as
    · rintro ⟨⟩
    · rw [expression_con_concat]
      rintro ⟨⟩
  | var | const | letIn | type | pi | lam | app | elim => rintro ⟨⟩

end Term

namespace Context

/-! ### Names in scope -/

/-- The labels of the variables in scope, the innermost first. -/
def labels (Γ : Context) : List Label := Γ.bindings.map (·.label)

variable {Θ : Theory} {S : Signature} {Γ : Context} {Δ ε : List Plain} {ℓ : Nat → Plain}
  {L : Leaves} {n : Nat} {fs : List Bool}

theorem length_labels (Γ : Context) : Γ.labels.length = Γ.level := List.length_map _

theorem Reads.signature (h : Reads Θ S Γ Δ ε ℓ L) : Γ.signature = S := by
  induction h with
  | empty => rfl
  | bind _ _ _ ih => exact ih
  | define _ _ _ _ _ _ ih => exact ih

theorem mirrors_bind (h : Γ.env.Mirrors Γ.labels fs) (label : Label) (d : Value) :
    (Γ.bind label d).env.Mirrors (Γ.bind label d).labels (true :: fs) := by
  have hcons := h.cons label
  rw [length_labels] at hcons
  exact hcons

/-- Nothing is asked of a local definition. -/
theorem mirrors_define (h : Γ.env.Mirrors Γ.labels fs) (label : Label) (d v : Value) :
    (Γ.define label d v).env.Mirrors (Γ.define label d v).labels (false :: fs) := by
  intro i label' hl hf
  cases i with
  | zero => cases hf
  | succ i =>
    have hi := h i label' hl hf
    rw [length_labels] at hi ⊢
    rw [level_define, Nat.add_sub_add_right]
    exact hi

theorem lookup?_of_idxOf? {x : Name} {i : Nat} (h : Γ.labels.idxOf? (some x) = some i) :
    ∃ A, Γ.lookup? x = some (i, A) := by
  rw [labels, List.idxOf?, List.findIdx?_map] at h
  obtain ⟨hi, _⟩ := List.findIdx?_eq_some_iff_getElem.1 h
  refine ⟨Γ.bindings[i].type, Option.bind_eq_some_iff.2 ⟨i, h, ?_⟩⟩
  exact Option.bind_eq_some_iff.2 ⟨_, List.getElem?_eq_getElem hi, rfl⟩

theorem lookup?_of_notMem {x : Name} (h : some x ∉ Γ.labels) : Γ.lookup? x = none := by
  refine Option.bind_eq_none_iff.2 fun i hi => ?_
  obtain ⟨hlt, hx, _⟩ := List.findIdx?_eq_some_iff_getElem.1 hi
  exact (h (List.mem_map.2 ⟨_, List.getElem_mem hlt, eq_of_beq hx⟩)).elim

/-! ### What is recovered -/

/-- The procedures of elaboration with `n` units of fuel find a typed term in the expression that
it is printed as. -/
structure Recovers (Θ : Theory) (S : Signature) (n : Nat) : Prop where
  elaborate : ∀ {Γ : Context} {Δ ε ℓ L fs}, Reads Θ S Γ Δ ε ℓ L → Γ.env.Mirrors Γ.labels fs →
    ∀ {t : Term} {T : Plain} {expected : Option Value}, t.Legible S Γ.labels →
    t.Settled S fs expected.isSome → Expects Θ Δ ℓ L expected → HasType Θ Δ (t.under ε) T →
    (∀ A, expected = some A → T = A.plain ℓ) →
    Post (Context.elaborate n Γ (t.expression S) expected) (fun p => p.1 = t)
      (Stop.Lacks Halt.Resource)
  elaborateType : ∀ {Γ : Context} {Δ ε ℓ L fs}, Reads Θ S Γ Δ ε ℓ L →
    Γ.env.Mirrors Γ.labels fs → ∀ {t : Term} {m : Nat}, t.Legible S Γ.labels →
    t.Settled S fs false → HasType Θ Δ (t.under ε) (.atom (.type m)) →
    Post (Context.elaborateType n Γ (t.expression S)) (fun p => p.1 = t)
      (Stop.Lacks Halt.Resource)
  elaborateMotive : ∀ {Γ : Context} {Δ ε ℓ L fs}, Reads Θ S Γ Δ ε ℓ L →
    Γ.env.Mirrors Γ.labels fs → ∀ {t : Term} {T : Plain} {ds : List Value},
    t.Legible S Γ.labels → t.Settled S fs false → HasType Θ Δ (t.under ε) T →
    Post (Context.elaborateMotive n Γ (t.expression S) ds) (fun p => p.1 = t)
      (Stop.Lacks Halt.Resource)

namespace Recovers

variable (ih : Recovers Θ S n) (h : Reads Θ S Γ Δ ε ℓ L) (hm : Γ.env.Mirrors Γ.labels fs)
  {t : Term}

include ih h hm

theorem synthesize {T : Plain} (hl : t.Legible S Γ.labels) (hs : t.Settled S fs false)
    (hT : HasType Θ Δ (t.under ε) T) :
    Post (Context.elaborate n Γ (t.expression S) none) (fun p => p.1 = t)
      (Stop.Lacks Halt.Resource) :=
  ih.elaborate h hm hl hs .none hT (by rintro _ ⟨⟩)

theorem verify {A : Value} (hl : t.Legible S Γ.labels) (hs : t.Settled S fs true)
    (hA : A.IsType Θ Δ L ℓ) (hT : HasType Θ Δ (t.under ε) (A.plain ℓ)) :
    Post (Context.elaborate n Γ (t.expression S) (some A)) (fun p => p.1 = t)
      (Stop.Lacks Halt.Resource) :=
  ih.elaborate h hm hl hs (.some hA) hT (by rintro _ ⟨⟩; rfl)

end Recovers

/-- A procedure of the kernel that is not allowed to refuse. -/
theorem at_post {α : Type} {P : α → Prop} {J : Prop} {span : Span} {x : Check α}
    (h : Post x P (Refuses J)) (hJ : J) :
    Post (Check.at span x) P (Stop.Lacks Halt.Resource) := by
  cases x with
  | ok a => exact h
  | error s =>
    cases s with
    | halt stop => exact Or.resolve_right h fun h => h.2 hJ
    | error e => exact (h hJ).elim

section

variable (hΘ : Θ.Models S) (hS : S.Registered) (h : Reads Θ S Γ Δ ε ℓ L)
  (hm : Γ.env.Mirrors Γ.labels fs)

/-! ### Names and universes -/

theorem recover_var {label : Label} {i : Nat} (hn : (Term.var label i).Named S Γ.labels) :
    Post (Context.elaborate (n + 1) Γ ((Term.var label i).expression S) none)
      (fun p => p.1 = .var label i) (Stop.Lacks Halt.Resource) := by
  cases label with
  | none => exact (hn.1 rfl).elim
  | some x =>
    obtain ⟨A, hA⟩ := lookup?_of_idxOf? hn.2
    have he : Context.elaborate (n + 1) Γ (.var default x) none = .ok (.var (some x) i, A) := by
      rw [Context.elaborate, hA]
    change Post (Context.elaborate (n + 1) Γ (.var default x) none) _ _
    rw [he]
    rfl

/-- A declared name that no binder hides. -/
theorem recover_declared {x : Name} {t : Term} {A : Value} (hx : some x ∉ Γ.labels)
    (hg : Γ.lookupGlobal? x = some (t, A)) :
    Post (Context.elaborate (n + 1) Γ (.var default x) none) (fun p => p.1 = t)
      (Stop.Lacks Halt.Resource) := by
  have he : Context.elaborate (n + 1) Γ (.var default x) none = .ok (t, A) := by
    rw [Context.elaborate, lookup?_of_notMem hx]
    dsimp only
    rw [hg]
  rw [he]
  rfl

include hΘ hS h

theorem recover_const {c : Name} {T : Plain} (hc : some c ∉ Γ.labels)
    (hT : HasType Θ Δ ((Term.const c).under ε) T) :
    Post (Context.elaborate (n + 1) Γ ((Term.const c).expression S) none)
      (fun p => p.1 = .const c) (Stop.Lacks Halt.Resource) := by
  obtain rfl := h.signature
  obtain ⟨A, hA, _⟩ := HasType.declared_inv (a := .const c) hT (by simp)
  cases hg : Γ.signature.global? c with
  | none =>
    have hd := hΘ.describes.constant c ℓ
    rw [hg] at hd
    cases hA.symm.trans hd
  | some g =>
    refine recover_declared (A := g.type) hc ?_
    rw [lookupGlobal?, (hS.entry c .global).2 ⟨g, hg⟩, hg]
    rfl

theorem recover_former_nil {id : FamilyId} {T : Plain} (hc : some (S.familyName id) ∉ Γ.labels)
    (hT : HasType Θ Δ ((Term.former id []).under ε) T) :
    Post (Context.elaborate (n + 1) Γ ((Term.former id []).expression S) none)
      (fun p => p.1 = .former id []) (Stop.Lacks Halt.Resource) := by
  obtain rfl := h.signature
  rw [Term.under_former] at hT
  obtain ⟨D, hD, _⟩ := hT.spine_former_inv
  obtain ⟨F, hF, _⟩ := hΘ.describes.family?_of_eq_some hD
  have hname : Γ.signature.familyName id = F.name := by rw [Signature.familyName, hF]; rfl
  refine recover_declared (A := F.type) hc ?_
  rw [hname, lookupGlobal?, (hS.entry F.name (.family id)).2 ⟨F, hF, rfl⟩]
  change (Γ.signature.family? id >>= fun F => some (Term.former id [], F.type)) = _
  rw [hF]
  rfl

theorem recover_con_nil {id : ConstructorId} {T : Plain}
    (hc : some (S.constructorName id) ∉ Γ.labels)
    (hT : HasType Θ Δ ((Term.con id []).under ε) T) :
    Post (Context.elaborate (n + 1) Γ ((Term.con id []).expression S) none)
      (fun p => p.1 = .con id []) (Stop.Lacks Halt.Resource) := by
  obtain rfl := h.signature
  rw [Term.under_con] at hT
  obtain ⟨C, hC, _⟩ := hT.spine_con_inv
  obtain ⟨K, hK, _⟩ := hΘ.describes.constructor?_of_eq_some hC
  have hname : Γ.signature.constructorName id = K.name := by rw [Signature.constructorName, hK]; rfl
  refine recover_declared (A := K.type) hc ?_
  rw [hname, lookupGlobal?, (hS.entry K.name (.constructor id)).2 ⟨K, hK, rfl⟩]
  change (Γ.signature.constructor? id >>= fun K => some (Term.con id [], K.type)) = _
  rw [hK]
  rfl

omit hΘ hS h in
theorem recover_type {l : UInt64} (hb : (Term.type l).Bounded) :
    Post (Context.elaborate (n + 1) Γ ((Term.type l).expression S) none)
      (fun p => p.1 = .type l) (Stop.Lacks Halt.Resource) := by
  change Post (Context.elaborate (n + 1) Γ (.type default l) none) _ _
  rw [Context.elaborate]
  split
  · rfl
  · next hl => exact (hb hl).elim

/-! ### Functions and local definitions -/

variable (ih : Recovers Θ S n)

omit hS in
/-- What was elaborated as a type is computed. -/
theorem annotated_post {e : Expression} {D : Term} {l : UInt64}
    (hD : Context.elaborateType n Γ e = .ok (D, l)) :
    Post (liftM (Γ.eval n D) : Elaborate Value)
      (fun d => Γ.eval n D = .ok d ∧ Reds Θ (D.under ε) (d.plain ℓ) ∧ d.IsType Θ Δ L ℓ)
      (Stop.Lacks Halt.Resource) := by
  obtain ⟨hDall, hDt⟩ := (sound hΘ n).elaborateType h hD
  refine .liftM (.intro (fun d hd => ?_) fun s hs => ?_)
  · obtain ⟨_, _, hr, hdt⟩ := annotation_sound hΘ h (sound hΘ n) hD hd
    exact ⟨hd, hr, hdt⟩
  · exact ((h.typed hΘ).eval_all_post hDall hDt n).of_error hs

include ih hm

omit hS in
theorem recover_pi {label : Label} {A B : Term} {T : Plain}
    (hl : (Term.pi label A B).Legible S Γ.labels) (hs : (Term.pi label A B).Settled S fs false)
    (hT : HasType Θ Δ ((Term.pi label A B).under ε) T) :
    Post (Context.elaborate (n + 1) Γ ((Term.pi label A B).expression S) none)
      (fun p => p.1 = .pi label A B) (Stop.Lacks Halt.Resource) := by
  obtain ⟨hlA, hlB⟩ := Term.legible_pi hl
  obtain ⟨m, m', hA, hB, _⟩ := HasType.pi_inv hT
  refine Post.bind (ih.elaborateType h hm hlA hs.1 hA) ?_
  rintro ⟨_, l⟩ hD rfl
  refine Post.bind (annotated_post hΘ h hD) ?_
  rintro d _ ⟨_, hr, hd⟩
  rw [← Term.under_bind] at hB
  refine Post.bind (ih.elaborateType (h.bind label hd) (mirrors_bind hm label d) hlB hs.2
    (hB.change hr.equal)) ?_
  rintro ⟨_, l'⟩ _ rfl
  rfl

omit hS in
/-- **A function whose type is synthesized**: its domain is computed and read back. -/
theorem recover_lam {label : Label} {A b : Term} {T : Plain}
    (hl : (Term.lam label A b).Legible S Γ.labels) (hs : (Term.lam label A b).Settled S fs false)
    (hT : HasType Θ Δ ((Term.lam label A b).under ε) T) :
    Post (Context.elaborate (n + 1) Γ ((Term.lam label A b).expression S) none)
      (fun p => p.1 = .lam label A b) (Stop.Lacks Halt.Resource) := by
  have hΓ := h.typed hΘ
  obtain ⟨hlA, hlb⟩ := Term.legible_lam hl
  obtain ⟨hstill, hsA, hsb⟩ := hs
  obtain ⟨m, B, hA, hB, _⟩ := HasType.lam_inv hT
  refine Post.bind (ih.elaborateType h hm hlA hsA hA) ?_
  rintro ⟨D, l⟩ hD hDA
  obtain rfl : A = D := hDA.symm
  refine Post.bind (annotated_post hΘ h hD) ?_
  rintro d _ ⟨hd, hr, hdt⟩
  obtain ⟨u, hu⟩ := hdt.typed
  refine Post.bind (P := (· = A)) ?_ ?_
  · refine .liftM (.intro (fun q hq => ?_) fun s hs => ?_)
    · rw [Context.eval, h.signature] at hd
      rw [Context.quote, h.signature, ← length_labels] at hq
      exact (Term.eval_still A hm (Term.Named.labelled A hlA.named) (hstill rfl) hd).1 n q hq
    · exact (hΓ.quote_safe hdt.all hu n).of_error hs
  rintro _ _ rfl
  rw [← Term.under_bind] at hB
  refine Post.bind (ih.synthesize (h.bind label hdt) (mirrors_bind hm label d) hlb hsb
    (hB.change hr.equal)) ?_
  rintro ⟨_, C⟩ hb rfl
  have hbe := ((sound hΘ n).elaborate (h.bind label hdt) .none hb).1
  refine Post.bind (.liftM (hΓ.codomain_post hdt hbe.type label n)) fun _ _ _ => ?_
  rfl

omit hS in
/-- **A function that is checked against its type** keeps its domain. -/
theorem recover_checked_lam {label : Label} {A b : Term} {v : Value}
    (hl : (Term.lam label A b).Legible S Γ.labels) (hs : (Term.lam label A b).Settled S fs true)
    (hv : v.IsType Θ Δ L ℓ) (hT : HasType Θ Δ ((Term.lam label A b).under ε) (v.plain ℓ)) :
    Post (Context.elaborate (n + 1) Γ ((Term.lam label A b).expression S) (some v))
      (fun p => p.1 = .lam label A b) (Stop.Lacks Halt.Resource) := by
  have hΓ := h.typed hΘ
  obtain ⟨hlA, hlb⟩ := Term.legible_lam hl
  obtain ⟨m, B, hA, hB, e⟩ := HasType.lam_inv hT
  obtain ⟨base, family, rfl⟩ := hv.eq_pi hΓ.scope e.symm
  obtain ⟨hdomain, hcodomain⟩ := Theory.Equal.pi_inj e
  refine Post.bind (ih.elaborateType h hm hlA hs.2.1 hA) ?_
  rintro ⟨_, l⟩ hD rfl
  refine Post.bind (annotated_post hΘ h hD) ?_
  rintro d _ ⟨_, hr, hdt⟩
  refine Post.bind (.liftM (hΓ.convert_decides hdt hv.domain n)) fun eq _ heq => ?_
  obtain rfl := heq.2 (hr.equal.symm.trans hdomain)
  refine Post.bind (.liftM (hv.enter hΓ.models.sound hΓ.models.describes hΓ.scope n))
    fun codomain _ ⟨hc, hcr⟩ => ?_
  rw [← Term.under_bind] at hB
  refine Post.bind (ih.verify (h.bind label hv.domain) (mirrors_bind hm label base) hlb hs.2.2 hc
    ((hB.change hdomain).conv (hcodomain.trans hcr.equal))) ?_
  rintro ⟨_, C⟩ _ rfl
  rfl

omit hS in
theorem recover_letIn {label : Label} {A a b : Term} {T : Plain} {expected : Option Value}
    (hl : (Term.letIn label A a b).Legible S Γ.labels)
    (hs : (Term.letIn label A a b).Settled S fs expected.isSome)
    (hx : Expects Θ Δ ℓ L expected) (hT : HasType Θ Δ ((Term.letIn label A a b).under ε) T)
    (hTx : ∀ A, expected = some A → T = A.plain ℓ) :
    Post (Context.elaborate (n + 1) Γ ((Term.letIn label A a b).expression S) expected)
      (fun p => p.1 = .letIn label A a b) (Stop.Lacks Halt.Resource) := by
  have hΓ := h.typed hΘ
  obtain ⟨hlA, hla, hlb⟩ := Term.legible_letIn hl
  obtain ⟨m, hA, ha, hb⟩ := HasType.letIn_inv hT
  refine Post.bind (ih.elaborateType h hm hlA hs.1 hA) ?_
  rintro ⟨_, l⟩ hD rfl
  refine Post.bind (annotated_post hΘ h hD) ?_
  rintro d _ ⟨_, hr, hdt⟩
  refine Post.bind (ih.verify h hm hla hs.2.1 hdt (ha.conv hr.equal)) ?_
  rintro ⟨_, d'⟩ hae rfl
  have hae := verify_sound h (sound hΘ n) hdt hae
  refine Post.bind (.liftM (hΓ.eval_all_post hae.all hae.typed n)) fun v _ ⟨hv, hvr⟩ => ?_
  refine Post.bind (ih.elaborate (h.define label hdt hv hae.typed hvr) (mirrors_define hm label d v)
    hlb hs.2.2 hx (Term.inst_under ε _ b ▸ hb) hTx) ?_
  rintro ⟨_, C⟩ _ rfl
  rfl

/-! ### Calls and eliminations -/

omit hS in
/-- **An argument is taken back to where it was.** -/
theorem recover_call {f a : Term} {T : Plain} (hlf : f.Legible S Γ.labels)
    (hla : a.Legible S Γ.labels) (hsf : f.Settled S fs false) (hsa : a.Settled S fs true)
    (hT : HasType Θ Δ ((f.apply a).under ε) T) :
    Post (Context.elaborate (n + 1) Γ (.call default (f.expression S) (a.expression S)) none)
      (fun p => p.1 = f.apply a) (Stop.Lacks Halt.Resource) := by
  have hΓ := h.typed hΘ
  rw [Term.under_apply] at hT
  obtain ⟨A, B, hf, ha, _⟩ := hT.app_inv_of_not_partial (hΓ.not_partial f)
  refine Post.bind (ih.synthesize h hm hlf hsf hf) ?_
  rintro ⟨_, F⟩ hfe rfl
  have hfe := ((sound hΘ n).elaborate h .none hfe).1
  obtain ⟨d, c, rfl⟩ := hfe.type.eq_pi hΓ.scope (hfe.typed.unique hf)
  have ha : HasType Θ Δ (a.under ε) (d.plain ℓ) :=
    ha.conv (Theory.Equal.pi_inj (hf.unique hfe.typed)).1
  refine Post.bind (ih.verify h hm hla hsa hfe.type.domain ha) ?_
  rintro ⟨_, d'⟩ hae rfl
  have hae := verify_sound h (sound hΘ n) hfe.type.domain hae
  refine Post.bind (.liftM (hΓ.eval_all_post hae.all hae.typed n)) fun v _ ⟨hv, hvr⟩ => ?_
  refine Post.bind (.liftM (hfe.type.instantiate hΓ.models.sound hΓ.models.describes hΓ.scope hv
    (hae.typed.reds hΘ.sound hvr) n)) fun _ _ _ => ?_
  rfl

theorem recover_former {id : FamilyId} {as : List Term} {T : Plain}
    (hl : (Term.former id as).Legible S Γ.labels) (hs : (Term.former id as).Settled S fs false)
    (hT : HasType Θ Δ ((Term.former id as).under ε) T) :
    Post (Context.elaborate (n + 1) Γ ((Term.former id as).expression S) none)
      (fun p => p.1 = .former id as) (Stop.Lacks Halt.Resource) := by
  obtain rfl | ⟨as, a, rfl⟩ := List.eq_nil_or_concat' as
  · exact recover_former_nil hΘ hS h hl.named.1 hT
  · obtain ⟨hname, hlas⟩ := Term.legible_former.1 hl
    obtain ⟨hlas, hla⟩ := List.forall_mem_append.1 hlas
    obtain ⟨hsas, hsa⟩ := List.forall_mem_append.1 (Term.allSettled_iff.1 hs)
    rw [Term.expression_former_concat]
    exact recover_call hΘ h hm ih (f := .former id as) (Term.legible_former.2 ⟨hname, hlas⟩)
      (hla a List.mem_cons_self) (Term.allSettled_iff.2 hsas) (hsa a List.mem_cons_self) hT

theorem recover_con {id : ConstructorId} {as : List Term} {T : Plain}
    (hl : (Term.con id as).Legible S Γ.labels) (hs : (Term.con id as).Settled S fs false)
    (hT : HasType Θ Δ ((Term.con id as).under ε) T) :
    Post (Context.elaborate (n + 1) Γ ((Term.con id as).expression S) none)
      (fun p => p.1 = .con id as) (Stop.Lacks Halt.Resource) := by
  obtain rfl | ⟨as, a, rfl⟩ := List.eq_nil_or_concat' as
  · exact recover_con_nil hΘ hS h hl.named.1 hT
  · obtain ⟨hname, hlas⟩ := Term.legible_con.1 hl
    obtain ⟨hlas, hla⟩ := List.forall_mem_append.1 hlas
    obtain ⟨hsas, hsa⟩ := List.forall_mem_append.1 (Term.allSettled_iff.1 hs)
    rw [Term.expression_con_concat]
    exact recover_call hΘ h hm ih (f := .con id as) (Term.legible_con.2 ⟨hname, hlas⟩)
      (hla a List.mem_cons_self) (Term.allSettled_iff.2 hsas) (hsa a List.mem_cons_self) hT

omit hS in
/-- **The methods of an elimination are recovered**, each against the type of the rule. -/
theorem recover_methods {t M : Term} {ms : List Term} {id : FamilyId} {F : Family}
    {D : FamilyShape} {ps is : List Value} (tgt : Target Θ Γ Δ ε ℓ L t id F D ps is)
    {cs : List ConstructorId} {v : Value} {u u' : Nat} (hv : v.All L)
    (hr : Reds Θ (M.under ε) (v.plain ℓ))
    (hvt : HasType Θ Δ (v.plain ℓ) (D.motiveType id (Value.plains ℓ ps) u))
    (he : HasType.Elimination Θ Δ (M.under ε) (ms.map (Term.under ε)) (t.under ε) id D cs
      (Value.plains ℓ ps) (Value.plains ℓ is) u')
    (hl : ∀ m ∈ ms, m.Legible S Γ.labels) (hs : ∀ m ∈ ms, m.Settled S fs true) :
    Post (((Term.expressions S ms).zip cs).mapM fun (method, c) => (do
        let K ← orDangling (Γ.signature.constructor? c)
        let type ← methodType Γ.signature n Γ.level Γ.env K ps v
        let (a, _) ← Context.elaborate n Γ method (some type)
        Except.ok a : Elaborate Term)) (fun ms' => ms' = ms) (Stop.Lacks Halt.Resource) := by
  have hΓ := h.typed hΘ
  have hlen : ms.length = cs.length := (List.length_map _).symm.trans he.methods
  rw [Term.expressions_eq_map, List.zip_map_left, List.mapM_map]
  refine Post.mono (Post.mapM (R := fun x a => x.1 = a) fun x hx => ?_) (fun ms' hms => ?_)
    fun _ h => h
  · obtain ⟨j, hj⟩ := List.getElem?_of_mem hx
    obtain ⟨hmj, hcj⟩ := List.getElem?_zip_eq_some.1 hj
    obtain ⟨hmem, hc⟩ := List.of_mem_zip hx
    obtain ⟨C₀, hC₀, _⟩ := (hΓ.models.sound.constructors tgt.family he.constructors x.2).1 hc
    obtain ⟨K, hK, _⟩ := hΓ.models.describes.constructor?_of_eq_some hC₀
    refine Post.bind (P := (K = ·)) ?_ ?_
    · change Post (liftM (orDangling (Γ.signature.constructor? x.2))) _ _
      rw [hK]
      rfl
    rintro _ _ rfl
    refine Post.bind (.liftM (tgt.methodType_post hΓ he.constructors hc hv hr hvt hK)) ?_
    rintro type _ ⟨hty, C, hC, heq⟩
    have hmt : HasType Θ Δ (x.1.under ε) (C.methodType x.2 (Value.plains ℓ ps) (M.under ε)) := by
      refine he.method ?_ hcj hC
      rw [List.getElem?_map, hmj]
      rfl
    refine Post.bind (ih.verify h hm (hl x.1 hmem) (hs x.1 hmem) hty (hmt.conv heq.symm)) ?_
    rintro ⟨a, _⟩ _ ha
    exact ha.symm
  · have hmap := List.forall₂_map_left_iff.2 hms
    rw [List.forall₂_eq_eq_eq, List.map_fst_zip hlen.le] at hmap
    exact hmap.symm

omit hS in
theorem recover_elim {t M : Term} {ms : List Term} {T : Plain}
    (hl : (Term.elim t M ms).Legible S Γ.labels) (hs : (Term.elim t M ms).Settled S fs false)
    (hT : HasType Θ Δ ((Term.elim t M ms).under ε) T) :
    Post (Context.elaborate (n + 1) Γ ((Term.elim t M ms).expression S) none)
      (fun p => p.1 = .elim t M ms) (Stop.Lacks Halt.Resource) := by
  have hΓ := h.typed hΘ
  obtain ⟨hlt, hlM, hlms⟩ := Term.legible_elim hl
  obtain ⟨hst, hsM, hsms⟩ := hs
  have hT' := hT
  rw [Term.under_elim] at hT'
  obtain ⟨F₀, D₀, _, ps₀, is₀, _, he₀, _⟩ := hT'.elim_inv
  refine Post.bind (ih.synthesize h hm hlt hst he₀.target) ?_
  rintro ⟨_, type⟩ hte rfl
  have hte := ((sound hΘ n).elaborate h .none hte).1
  refine Post.bind (at_post (splitTarget_post hΓ hte.type (J := True) fun _ => ?_) trivial) ?_
  · refine ⟨F₀, D₀, ps₀ ++ is₀, he₀.family, ?_, hte.typed.unique he₀.target⟩
    rw [List.length_append, he₀.parameters, he₀.indices]
  rintro ⟨F, ps, is⟩ _ ⟨id, D, hF, hD, dF, rfl, hps, his⟩
  have tgt := Target.of_isType hte.type hte.typed hF hD dF hps his
  obtain ⟨cs, u, he⟩ := tgt.elimination hT
  obtain ⟨table, htable, rfl⟩ := dF.exists_table he.constructors
  refine Post.bind (P := (table = ·)) ?_ ?_
  · rw [dispatch, htable]
    rfl
  rintro _ _ rfl
  have hlen : (Term.expressions S ms).length = table.constructors.length := by
    rw [Term.expressions_eq_map, List.length_map, ← he.methods, List.length_map]
  rw [if_neg (not_not.2 hlen)]
  refine Post.bind (.liftM (motiveDomains_post hΓ.models.sound hΓ.models.describes hΓ.scope
    tgt.family tgt.describes ((hΓ.models.grounded.family hF).mono hΓ.leaves) tgt.parameters
    tgt.instance_parameters n)) fun ds _ ⟨hds, hmot⟩ => ?_
  obtain ⟨_, _, hdst⟩ := hmot 0
  refine Post.bind (ih.elaborateMotive h hm hlM hsM he.motive) ?_
  rintro ⟨_, motiveType⟩ hMe rfl
  have hMe := (sound hΘ n).elaborateMotive h hds hdst hMe
  refine Post.bind (.liftM (motiveLevel?_post hΓ.models.sound hΓ.models.describes hΓ.scope hds
    hdst hMe.type n)) fun o _ ho => ?_
  obtain ⟨l, rfl, _⟩ := (ho u).1 ((hMe.typed.unique he.motive).trans (hmot u).1.symm)
  refine Post.bind (.liftM (hΓ.eval_all_post hMe.all he.motive n)) fun v _ ⟨hv, hvr⟩ => ?_
  have hvt := he.motive.reds hΘ.sound hvr
  refine Post.bind (recover_methods hΘ h hm ih tgt hv hvr hvt he hlms
    (Term.allSettled_iff.1 hsms)) ?_
  rintro _ _ rfl
  refine Post.bind (.liftM (hΓ.eval_all_post hte.all tgt.typed n)) fun a _ ⟨ha, har⟩ => ?_
  refine Post.bind (.liftM (tgt.result_post hΓ hv hvt ha (tgt.typed.reds hΘ.sound har)))
    fun _ _ _ => ?_
  rfl

/-! ### All forms -/

omit hS hm ih in
/-- A term that is synthesized and compared with its type. -/
theorem recover_compared {e : Expression} {t : Term} {A : Value} {span : Span}
    (hA : A.IsType Θ Δ L ℓ) (hT : HasType Θ Δ (t.under ε) (A.plain ℓ))
    (he : Post (Context.elaborate n Γ e none) (fun p => p.1 = t) (Stop.Lacks Halt.Resource)) :
    Post (do
      let (t, synthesized) ← Context.elaborate n Γ e none
      if ← Γ.convert n synthesized A then .ok (t, A)
      else do
        let found ← Γ.quote n synthesized
        let wanted ← Γ.quote n A
        (ElaborationCause.mismatch found wanted).throwAt span : Elaborate (Term × Value))
      (fun p => p.1 = t) (Stop.Lacks Halt.Resource) := by
  refine Post.bind he ?_
  rintro ⟨_, synthesized⟩ hte rfl
  have hte := ((sound hΘ n).elaborate h .none hte).1
  refine Post.bind (.liftM ((h.typed hΘ).convert_decides hte.type hA n)) fun eq _ heq => ?_
  obtain rfl := heq.2 (hte.typed.unique hT)
  rfl

theorem recover_synthesized {t : Term} {T : Plain} (hl : t.Legible S Γ.labels)
    (hs : t.Settled S fs false) (hT : HasType Θ Δ (t.under ε) T) :
    Post (Context.elaborate (n + 1) Γ (t.expression S) none) (fun p => p.1 = t)
      (Stop.Lacks Halt.Resource) := by
  cases t with
  | var label i => exact recover_var hl.named
  | const c => exact recover_const hΘ hS h hl.named hT
  | letIn label A a b => exact recover_letIn hΘ h hm ih hl hs .none hT (by rintro _ ⟨⟩)
  | type l => exact recover_type hl.bounded
  | pi label A B => exact recover_pi hΘ h hm ih hl hs hT
  | lam label A b => exact recover_lam hΘ h hm ih hl hs hT
  | app f a =>
    obtain ⟨hlf, hla⟩ := Term.legible_app hl
    have happly := hl.flat.1
    rw [← happly] at hT
    have hcall := recover_call hΘ h hm ih hlf hla hs.1 hs.2 hT
    rw [happly] at hcall
    exact hcall
  | former id as => exact recover_former hΘ hS h hm ih hl hs hT
  | con id as => exact recover_con hΘ hS h hm ih hl hs hT
  | elim t M ms => exact recover_elim hΘ h hm ih hl hs hT

omit hS in
theorem recover_checked {t : Term} {A : Value} (hl : t.Legible S Γ.labels)
    (hs : t.Settled S fs true) (hA : A.IsType Θ Δ L ℓ) (hT : HasType Θ Δ (t.under ε) (A.plain ℓ)) :
    Post (Context.elaborate (n + 1) Γ (t.expression S) (some A)) (fun p => p.1 = t)
      (Stop.Lacks Halt.Resource) := by
  have hcompare (hs : t.Settled S fs false) := ih.synthesize h hm hl hs hT
  cases t with
  | letIn label A' a b =>
    exact recover_letIn hΘ h hm ih hl hs (.some hA) hT (by rintro _ ⟨⟩; rfl)
  | lam label A' b => exact recover_checked_lam hΘ h hm ih hl hs hA hT
  | former id as =>
    have he := hcompare hs
    obtain rfl | ⟨as, a, rfl⟩ := List.eq_nil_or_concat' as
    · exact recover_compared hΘ h hA hT he
    · rw [Term.expression_former_concat] at he ⊢
      exact recover_compared hΘ h hA hT he
  | con id as =>
    have he := hcompare hs
    obtain rfl | ⟨as, a, rfl⟩ := List.eq_nil_or_concat' as
    · exact recover_compared hΘ h hA hT he
    · rw [Term.expression_con_concat] at he ⊢
      exact recover_compared hΘ h hA hT he
  | var | const | type | pi | app | elim => exact recover_compared hΘ h hA hT (hcompare hs)

omit hS in
theorem recover_asType {t : Term} {m : Nat} (hl : t.Legible S Γ.labels)
    (hs : t.Settled S fs false) (hT : HasType Θ Δ (t.under ε) (.atom (.type m))) :
    Post (Context.elaborateType (n + 1) Γ (t.expression S)) (fun p => p.1 = t)
      (Stop.Lacks Halt.Resource) := by
  refine Post.bind (ih.synthesize h hm hl hs hT) ?_
  rintro ⟨_, type⟩ hte rfl
  have hte := ((sound hΘ n).elaborate h .none hte).1
  obtain ⟨l, rfl, _⟩ := hte.type.eq_type (h.typed hΘ).scope (hte.typed.unique hT)
  rfl

omit hΘ hS in
/-- A motive is printed with the domains of its functions, so none is filled in. -/
theorem recover_motive {t : Term} {T : Plain} {ds : List Value} (hl : t.Legible S Γ.labels)
    (hs : t.Settled S fs false) (hT : HasType Θ Δ (t.under ε) T) :
    Post (Context.elaborateMotive (n + 1) Γ (t.expression S) ds) (fun p => p.1 = t)
      (Stop.Lacks Halt.Resource) := by
  have he := ih.synthesize h hm hl hs hT
  have hne := t.expression_ne_lam (S := S)
  cases hexpr : t.expression S with
  | lam span label body => exact (hne span label body hexpr).elim
  | var | ascribe | letIn | typedLet | type | pi | typedLam | call | elim =>
    rw [hexpr] at he
    exact he

end

/-- **A typed term is recovered from the expression that it is printed as**, unless fuel is
lacking, by induction on the fuel. -/
theorem recovers (hΘ : Θ.Models S) (hS : S.Registered) (n : Nat) : Recovers Θ S n := by
  induction n with
  | zero =>
    have hex : Stop.Lacks Halt.Resource (.halt .exhausted : Stop ElaborationError) := .inl rfl
    exact ⟨fun _ _ _ _ _ _ _ _ _ _ => hex, fun _ _ _ _ _ _ _ => hex, fun _ _ _ _ _ _ _ _ => hex⟩
  | succ n ih =>
    refine ⟨?_, fun h hm _ _ => recover_asType hΘ h hm ih, fun h hm _ _ _ => recover_motive h hm ih⟩
    intro Γ Δ ε ℓ L fs h hm t T expected hl hs hx hT hTx
    cases expected with
    | none => exact recover_synthesized hΘ hS h hm ih hl hs hT
    | some A => exact recover_checked hΘ h hm ih hl hs (hx A rfl) (hTx A rfl ▸ hT)

end Context

/-! ### Closed terms -/

/-- **The expression that a closed term is printed as elaborates to the term**, against its type,
unless fuel is lacking.  The second check of the term accepts it. -/
theorem Term.elaborate_expression {Θ : Theory} {S : Signature} (hΘ : Θ.Models S)
    (hS : S.Registered) {t : Term} (hl : t.Legible S []) (hs : t.Settled S [] true) {A : Value}
    (hA : A.IsType Θ [] S.valueLeaves noLevels)
    (hT : HasType Θ [] (t.under []) (A.plain noLevels)) (n : Nat) :
    Post ((t.expression S).elaborate S n (some A)) (fun p => p = (t, A))
      (Stop.Lacks Halt.Resource) := by
  have hread := Context.Reads.empty (Θ := Θ) (S := S)
  have hmirrors : (Context.empty S).env.Mirrors (Context.empty S).labels [] := by
    rintro i label ⟨⟩
  refine Post.bind ((Context.recovers hΘ hS n).verify hread hmirrors hl hs hA hT) ?_
  rintro ⟨_, B⟩ he rfl
  obtain rfl := ((Context.sound hΘ n).elaborate hread (.some hA) he).2 A rfl
  refine Post.bind (Context.at_post (Context.check_post (.empty hΘ) n _ hA) ⟨hl.bounded, hT⟩)
    fun _ _ _ => ?_
  rfl

end Constructions
