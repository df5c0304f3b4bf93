/-
# Elaboration is sound

Whatever elaboration returns has its type by the typing rules.  The types that the source leaves
out are read back from values: the domain of a function from the expected type, the type of a
local definition from its argument, the domains of a motive from the family.  A type that is read
back stands for the type it was read from, so the rules hold of the annotated term.

| filled in | read back from |
| --- | --- |
| the domain of `\|x\| b` | the domain of the expected function type |
| the type of `let x = a; b` | the synthesized type of `a` |
| the domains of a motive | the indices of the eliminated family |

The term is checked once more.  The rules know a universe above each universe and the checker does
not: `Type 18446744073709551614` has a type, which itself has none.  A term that mentions this last
universe is refused, and nothing else is (`Signature.Reachable.recheck_iff`).
-/

import Constructions.Elaboration
import Constructions.Proofs.Agreement

namespace Constructions

open Plain

/-! ### Terms that elaboration puts together -/

theorem Check.at_eq_ok {α : Type} {span : Span} {x : Check α} {a : α} :
    Check.at span x = .ok a ↔ x = .ok a := by
  cases x with
  | ok b => simp [Check.at]
  | error s => cases s <;> simp [Check.at]

/-- An argument is taken into the list of a former or constructor, which means the same. -/
theorem Term.under_apply (ε : List Plain) (f a : Term) :
    (f.apply a).under ε = .app (f.under ε) (a.under ε) := by
  cases f with
  | former F as =>
    rw [Term.apply, Term.under_former, Term.under_former, List.map_append]
    exact spine_concat _ _ _
  | con c as =>
    rw [Term.apply, Term.under_con, Term.under_con, List.map_append]
    exact spine_concat _ _ _
  | var | const | letIn | type | pi | lam | app | elim => rfl

theorem Term.apply_all {L : Leaves} {f a : Term} (hf : f.All L) (ha : a.All L) :
    (f.apply a).All L := by
  have hconcat {as : List Term} (has : Term.Alls L as) : Term.Alls L (as ++ [a]) := by
    rw [Term.alls_iff] at has ⊢
    intro t ht
    rcases List.mem_append.1 ht with ht | ht
    · exact has t ht
    · rwa [List.mem_singleton.1 ht]
  cases f with
  | former F as => exact hconcat hf
  | con c as => exact hconcat hf
  | var | const | letIn | type | pi | lam | app | elim => exact ⟨hf, ha⟩

namespace Context

variable {Θ : Theory} {S : Signature} {Γ : Context} {Δ ε : List Plain} {ℓ : Nat → Plain}
  {L : Leaves} {n : Nat} {t : Term} {A : Value}

/-- **A level stands for the same variable among the terms of a context as among its values**,
since only a variable that stands for itself has a level. -/
theorem Reads.inverse (hΘ : Θ.Models S) (h : Reads Θ S Γ Δ ε ℓ L) :
    Inverse L Γ.level ℓ (ofList ε) := by
  induction h with
  | empty => exact fun _ hl => hl.elim
  | bind label h₀ _ ih =>
    have hb := ih.bind (h₀.typed hΘ).scope.below
    rwa [liftSub_ofList] at hb
  | @define Γ₀ Δ ε ℓ L d v a label h₀ _ _ _ _ ih =>
    intro l hl
    have hlt : l < Γ₀.level := (h₀.typed hΘ).scope.below l hl
    rw [level_define, show Γ₀.level + 1 - (l + 1) = Γ₀.level - (l + 1) + 1 by omega, ← ih l hl]
    rfl

/-- **A typed value is read back as a term for it.** -/
theorem Reads.quote_reds (hΘ : Θ.Models S) (h : Reads Θ S Γ Δ ε ℓ L) {v : Value} {T : Plain}
    (hv : v.All L) (hvT : HasType Θ Δ (v.plain ℓ) T) {q : Term} (hq : Γ.quote n v = .ok q) :
    q.All L ∧ Reds Θ (v.plain ℓ) (q.under ε) := by
  have hΓ := h.typed hΘ
  exact (Value.readBack_post hΓ.models.sound hΓ.models.describes hΓ.scope (h.inverse hΘ) hv hvT
    n).of_ok hq

/-! ### What elaboration promises -/

/-- A term has a type, and its constants are declared.  Unlike for a term that was inferred, the
universes in it may have no successor. -/
structure Elaborates (Θ : Theory) (Δ ε : List Plain) (ℓ : Nat → Plain) (L : Leaves) (t : Term)
    (A : Value) : Prop where
  type : A.IsType Θ Δ L ℓ
  all : t.All L
  typed : HasType Θ Δ (t.under ε) (A.plain ℓ)

/-- An expected type is a type, if there is one. -/
def Expects (Θ : Theory) (Δ : List Plain) (ℓ : Nat → Plain) (L : Leaves) (expected : Option Value) :
    Prop :=
  ∀ A, expected = some A → A.IsType Θ Δ L ℓ

theorem Expects.none : Expects Θ Δ ℓ L none := by
  rintro A ⟨⟩

theorem Expects.some (h : A.IsType Θ Δ L ℓ) : Expects Θ Δ ℓ L (some A) := by
  rintro B ⟨⟩
  exact h

/-- The procedures of elaboration with `n` units of fuel agree with the typing rules. -/
structure Sound (Θ : Theory) (S : Signature) (n : Nat) : Prop where
  elaborate : ∀ {Γ : Context} {Δ ε ℓ L}, Reads Θ S Γ Δ ε ℓ L → ∀ {e expected t A},
    Expects Θ Δ ℓ L expected → Context.elaborate n Γ e expected = .ok (t, A) →
    Elaborates Θ Δ ε ℓ L t A ∧ ∀ B, expected = some B → A = B
  elaborateType : ∀ {Γ : Context} {Δ ε ℓ L}, Reads Θ S Γ Δ ε ℓ L → ∀ {e t} {l : UInt64},
    Context.elaborateType n Γ e = .ok (t, l) →
    t.All L ∧ HasType Θ Δ (t.under ε) (.atom (.type l.toNat))
  elaborateMotive : ∀ {Γ : Context} {Δ ε ℓ L}, Reads Θ S Γ Δ ε ℓ L → ∀ {e t A ds B u},
    TeleAll L Γ.level ds → HasType Θ Δ (pis (telePlain ℓ Γ.level ds) B) (.atom (.type u)) →
    Context.elaborateMotive n Γ e ds = .ok (t, A) → Elaborates Θ Δ ε ℓ L t A

/-- **A function over a type that stands for the domain.** -/
theorem hasType_lam {label : Label} {D b : Term} {d : Value} {B : Plain} {m : Nat}
    (hD : HasType Θ Δ (D.under ε) (.atom (.type m))) (heq : Θ.Equal (D.under ε) (d.plain ℓ))
    (hb : HasType Θ (d.plain ℓ :: Δ) (b.under (.var 0 :: ε.map shift)) B) :
    HasType Θ Δ ((Term.lam label D b).under ε) (.pi (d.plain ℓ) B) := by
  rw [Term.under_bind] at hb
  exact .conv (.lam hD (hb.change heq.symm)) (.pi heq (.refl _))

/-- **A local definition with a type that stands for the type of its argument.** -/
theorem elaborates_letIn {label : Label} {D a b : Term} {d : Value} {m : Nat} (hD : D.All L)
    (hDt : HasType Θ Δ (D.under ε) (.atom (.type m))) (heq : Θ.Equal (D.under ε) (d.plain ℓ))
    (ha : a.All L) (hat : HasType Θ Δ (a.under ε) (d.plain ℓ))
    (hb : Elaborates Θ Δ (a.under ε :: ε) ℓ L b A) :
    Elaborates Θ Δ ε ℓ L (.letIn label D a b) A := by
  refine ⟨hb.type, ⟨hD, ha, hb.all⟩, .letIn hDt (hat.conv heq.symm) ?_⟩
  exact (Term.inst_under ε a b).symm ▸ hb.typed

section

variable (hΘ : Θ.Models S) (h : Reads Θ S Γ Δ ε ℓ L)

include hΘ h

/-! ### Names and universes -/

/-- **A variable has the type of its binder.** -/
theorem lookup?_sound {name : Name} {i : Nat} (e : Γ.lookup? name = some (i, A)) :
    Elaborates Θ Δ ε ℓ L (.var (some name) i) A := by
  obtain ⟨j, _, e⟩ := Option.bind_eq_some_iff.1 e
  obtain ⟨b, hb, e⟩ := Option.bind_eq_some_iff.1 e
  cases e
  obtain ⟨a, ha, ht, _, hat, _⟩ := forall₂_getElem? (h.typed hΘ).entries hb
  have hu : (Term.var (some name) i).under ε = a := ofList_eq ha
  exact ⟨ht, trivial, hu ▸ hat⟩

/-- **A declared name has the type it was declared with.** -/
theorem lookupGlobal?_sound {name : Name} (e : Γ.lookupGlobal? name = some (t, A)) :
    Elaborates Θ Δ ε ℓ L t A := by
  have hΓ := h.typed hΘ
  obtain ⟨entry, _, e⟩ := Option.bind_eq_some_iff.1 e
  cases entry with
  | global =>
    obtain ⟨g, hg, e⟩ := Option.bind_eq_some_iff.1 e
    cases e
    obtain ⟨hty, htyped⟩ := hΓ.const_typed hg
    exact ⟨hty, hΓ.leaves.name ⟨g, hg⟩, htyped⟩
  | family id =>
    obtain ⟨F, hF, e⟩ := Option.bind_eq_some_iff.1 e
    cases e
    obtain ⟨hty, htyped⟩ := hΓ.former_typed hF
    exact ⟨hty, trivial, htyped⟩
  | constructor id =>
    obtain ⟨K, hK, e⟩ := Option.bind_eq_some_iff.1 e
    cases e
    obtain ⟨hty, htyped⟩ := hΓ.con_typed hK
    exact ⟨hty, trivial, htyped⟩

theorem elaborate_var_sound {span : Span} {name : Name}
    (e : Context.elaborate (n + 1) Γ (.var span name) none = .ok (t, A)) :
    Elaborates Θ Δ ε ℓ L t A := by
  rw [Context.elaborate] at e
  split at e
  · next i B hlookup =>
    cases e
    exact lookup?_sound hΘ h hlookup
  · split at e
    · next found hlookup =>
      cases e
      exact lookupGlobal?_sound hΘ h hlookup
    · cases e

theorem elaborate_type_sound {span : Span} {level : UInt64}
    (e : Context.elaborate (n + 1) Γ (.type span level) none = .ok (t, A)) :
    Elaborates Θ Δ ε ℓ L t A := by
  have hΓ := h.typed hΘ
  rw [Context.elaborate] at e
  split at e
  · next next hnext =>
    cases e
    exact ⟨⟨hΓ.univ next, _, .type _⟩, hΓ.univ level, .type_next hnext⟩
  · cases e

/-! ### Functions and local definitions -/

/-- **A domain and the way to elaborate a body over it make a function.** -/
theorem abstraction_sound {label : Label} {d : Value} (hd : d.IsType Θ Δ L ℓ)
    {body : Context → Elaborate (Term × Value)}
    (hbody : ∀ {b B}, body (Γ.bind label d) = .ok (b, B) →
      Elaborates Θ (d.plain ℓ :: Δ) (.var 0 :: ε.map shift) (extend ℓ Γ.level) (L.bind Γ.level) b B)
    (e : Γ.abstraction n label d body = .ok (t, A)) : Elaborates Θ Δ ε ℓ L t A := by
  have hΓ := h.typed hΘ
  obtain ⟨D, hD, e⟩ := bind_eq_ok.1 e
  obtain ⟨⟨b, B⟩, hb, e⟩ := bind_eq_ok.1 e
  obtain ⟨q, hq, e⟩ := bind_eq_ok.1 e
  cases e
  obtain ⟨m, hm⟩ := hd.typed
  obtain ⟨hDall, hDr⟩ := h.quote_reds hΘ hd.all hm (liftM_eq_ok.1 hD)
  have hbe := hbody hb
  obtain ⟨hpi, hqr⟩ := (hΓ.codomain_post hd hbe.type label n).of_ok (liftM_eq_ok.1 hq)
  refine ⟨hpi, ⟨hDall, Term.all_bind.1 hbe.all⟩, ?_⟩
  exact hasType_lam (hm.reds hΘ.sound hDr) hDr.equal.symm (hbe.typed.conv hqr.equal)

variable (ih : Sound Θ S n)

include ih

/-- **An annotation is elaborated and computed.** -/
theorem annotation_sound {e : Expression} {D : Term} {l : UInt64} {d : Value}
    (hD : Context.elaborateType n Γ e = .ok (D, l)) (hd : Γ.eval n D = .ok d) :
    D.All L ∧ HasType Θ Δ (D.under ε) (.atom (.type l.toNat)) ∧ Reds Θ (D.under ε) (d.plain ℓ) ∧
      d.IsType Θ Δ L ℓ := by
  obtain ⟨hDall, hDt⟩ := ih.elaborateType h hD
  obtain ⟨hdall, hr⟩ := ((h.typed hΘ).eval_all_post hDall hDt n).of_ok hd
  exact ⟨hDall, hDt, hr, hdall, _, hDt.reds hΘ.sound hr⟩

omit hΘ in
/-- **An expression that is elaborated against a type has it.** -/
theorem verify_sound {e : Expression} {B : Value} (hA : A.IsType Θ Δ L ℓ)
    (ht : Context.elaborate n Γ e (some A) = .ok (t, B)) : Elaborates Θ Δ ε ℓ L t A := by
  obtain ⟨hE, hB⟩ := ih.elaborate h (.some hA) ht
  exact hB A rfl ▸ hE

theorem elaborate_letIn_sound {span : Span} {label : Located Label} {argument body : Expression}
    {expected : Option Value} (hx : Expects Θ Δ ℓ L expected)
    (e : Context.elaborate (n + 1) Γ (.letIn span label argument body) expected = .ok (t, A)) :
    Elaborates Θ Δ ε ℓ L t A ∧ ∀ B, expected = some B → A = B := by
  have hΓ := h.typed hΘ
  obtain ⟨⟨a, d⟩, ha, e⟩ := bind_eq_ok.1 e
  obtain ⟨D, hD, e⟩ := bind_eq_ok.1 e
  obtain ⟨v, hv, e⟩ := bind_eq_ok.1 e
  obtain ⟨⟨b, B⟩, hb, e⟩ := bind_eq_ok.1 e
  cases e
  have hae := (ih.elaborate h .none ha).1
  obtain ⟨m, hm⟩ := hae.type.typed
  obtain ⟨hDall, hDr⟩ := h.quote_reds hΘ hae.type.all hm (liftM_eq_ok.1 hD)
  obtain ⟨hvall, hvr⟩ := (hΓ.eval_all_post hae.all hae.typed n).of_ok (liftM_eq_ok.1 hv)
  obtain ⟨hbe, hB⟩ := ih.elaborate (h.define label.value hae.type hvall hae.typed hvr) hx hb
  exact ⟨elaborates_letIn hDall (hm.reds hΘ.sound hDr) hDr.equal.symm hae.all hae.typed hbe, hB⟩

theorem elaborate_typedLet_sound {span : Span} {label : Located Label}
    {type argument body : Expression} {expected : Option Value}
    (hx : Expects Θ Δ ℓ L expected)
    (e : Context.elaborate (n + 1) Γ (.typedLet span label type argument body) expected =
      .ok (t, A)) :
    Elaborates Θ Δ ε ℓ L t A ∧ ∀ B, expected = some B → A = B := by
  have hΓ := h.typed hΘ
  obtain ⟨⟨D, l⟩, hD, e⟩ := bind_eq_ok.1 e
  obtain ⟨d, hd, e⟩ := bind_eq_ok.1 e
  obtain ⟨⟨a, d'⟩, ha, e⟩ := bind_eq_ok.1 e
  obtain ⟨v, hv, e⟩ := bind_eq_ok.1 e
  obtain ⟨⟨b, B⟩, hb, e⟩ := bind_eq_ok.1 e
  cases e
  obtain ⟨hDall, hDt, hDr, hdt⟩ := annotation_sound hΘ h ih hD (liftM_eq_ok.1 hd)
  have hae := verify_sound h ih hdt ha
  obtain ⟨hvall, hvr⟩ := (hΓ.eval_all_post hae.all hae.typed n).of_ok (liftM_eq_ok.1 hv)
  obtain ⟨hbe, hB⟩ := ih.elaborate (h.define label.value hdt hvall hae.typed hvr) hx hb
  exact ⟨elaborates_letIn hDall hDt hDr.equal hae.all hae.typed hbe, hB⟩

theorem elaborate_ascribe_sound {span : Span} {term type : Expression}
    (e : Context.elaborate (n + 1) Γ (.ascribe span term type) none = .ok (t, A)) :
    Elaborates Θ Δ ε ℓ L t A := by
  obtain ⟨⟨D, l⟩, hD, e⟩ := bind_eq_ok.1 e
  obtain ⟨d, hd, e⟩ := bind_eq_ok.1 e
  obtain ⟨⟨a, d'⟩, ha, e⟩ := bind_eq_ok.1 e
  cases e
  obtain ⟨_, _, _, hdt⟩ := annotation_sound hΘ h ih hD (liftM_eq_ok.1 hd)
  exact verify_sound h ih hdt ha

theorem elaborate_pi_sound {span : Span} {label : Located Label} {domain codomain : Expression}
    (e : Context.elaborate (n + 1) Γ (.pi span label domain codomain) none = .ok (t, A)) :
    Elaborates Θ Δ ε ℓ L t A := by
  have hΓ := h.typed hΘ
  obtain ⟨⟨D, l⟩, hD, e⟩ := bind_eq_ok.1 e
  obtain ⟨d, hd, e⟩ := bind_eq_ok.1 e
  obtain ⟨⟨B, m⟩, hB, e⟩ := bind_eq_ok.1 e
  cases e
  obtain ⟨hDall, hDt, hDr, hdt⟩ := annotation_sound hΘ h ih hD (liftM_eq_ok.1 hd)
  obtain ⟨hBall, hBt⟩ := ih.elaborateType (h.bind label.value hdt) hB
  rw [Term.under_bind] at hBt
  have hpi := HasType.pi hDt (hBt.change hDr.equal.symm)
  rw [← UInt64.toNat_max] at hpi
  exact ⟨⟨hΓ.univ _, _, .type _⟩, ⟨hDall, Term.all_bind.1 hBall⟩, hpi⟩

theorem elaborate_typedLam_sound {span : Span} {label : Located Label} {domain body : Expression}
    (e : Context.elaborate (n + 1) Γ (.typedLam span label domain body) none = .ok (t, A)) :
    Elaborates Θ Δ ε ℓ L t A := by
  obtain ⟨⟨D, l⟩, hD, e⟩ := bind_eq_ok.1 e
  obtain ⟨d, hd, e⟩ := bind_eq_ok.1 e
  obtain ⟨_, _, _, hdt⟩ := annotation_sound hΘ h ih hD (liftM_eq_ok.1 hd)
  refine abstraction_sound hΘ h hdt (fun hb => ?_) e
  exact (ih.elaborate (h.bind label.value hdt) .none hb).1

/-- **A body that has the codomain makes a function of the expected type.** -/
theorem body_sound {label : Label} {D b : Term} {d B : Value} {c : Closure} {body : Expression}
    {C : Value} {m : Nat} (hty : (Value.pi d c).IsType Θ Δ L ℓ) (hD : D.All L)
    (hDt : HasType Θ Δ (D.under ε) (.atom (.type m))) (heq : Θ.Equal (D.under ε) (d.plain ℓ))
    (hC : c.enter Γ.signature n Γ.level = .ok C)
    (hb : Context.elaborate n (Γ.bind label d) body (some C) = .ok (b, B)) :
    Elaborates Θ Δ ε ℓ L (.lam label D b) (.pi d c) := by
  have hΓ := h.typed hΘ
  obtain ⟨hCt, hCr⟩ :=
    (hty.enter hΓ.models.sound hΓ.models.describes hΓ.scope n).of_ok hC
  have hbe := verify_sound (h.bind label hty.domain) ih hCt hb
  refine ⟨hty, ⟨hD, Term.all_bind.1 hbe.all⟩, ?_⟩
  exact hasType_lam hDt heq (hbe.typed.conv hCr.equal.symm)

theorem elaborate_lam_sound {span : Span} {label : Located Label} {body : Expression} {B : Value}
    (hB : B.IsType Θ Δ L ℓ)
    (e : Context.elaborate (n + 1) Γ (.lam span label body) (some B) = .ok (t, A)) :
    Elaborates Θ Δ ε ℓ L t A ∧ A = B := by
  cases B with
  | pi d c =>
    obtain ⟨D, hD, e⟩ := bind_eq_ok.1 e
    obtain ⟨C, hC, e⟩ := bind_eq_ok.1 e
    obtain ⟨⟨b, B'⟩, hb, e⟩ := bind_eq_ok.1 e
    cases e
    obtain ⟨m, hm⟩ := hB.domain.typed
    obtain ⟨hDall, hDr⟩ := h.quote_reds hΘ hB.domain.all hm (liftM_eq_ok.1 hD)
    exact ⟨body_sound hΘ h ih hB hDall (hm.reds hΘ.sound hDr) hDr.equal.symm (liftM_eq_ok.1 hC) hb,
      rfl⟩
  | neutral | type | lam | former | con =>
    obtain ⟨_, _, e⟩ := bind_eq_ok.1 e
    cases e

theorem verify_typedLam_sound {span : Span} {label : Located Label} {domain body : Expression}
    {B : Value} (hB : B.IsType Θ Δ L ℓ)
    (e : Context.elaborate (n + 1) Γ (.typedLam span label domain body) (some B) = .ok (t, A)) :
    Elaborates Θ Δ ε ℓ L t A ∧ A = B := by
  have hΓ := h.typed hΘ
  cases B with
  | pi d c =>
    obtain ⟨⟨D, l⟩, hD, e⟩ := bind_eq_ok.1 e
    obtain ⟨v, hv, e⟩ := bind_eq_ok.1 e
    obtain ⟨p, hp, e⟩ := bind_eq_ok.1 e
    obtain ⟨hDall, hDt, hDr, hvt⟩ := annotation_sound hΘ h ih hD (liftM_eq_ok.1 hv)
    have hdec := (hΓ.convert_decides hvt hB.domain n).of_ok (liftM_eq_ok.1 hp)
    cases p with
    | true =>
      obtain ⟨C, hC, e⟩ := bind_eq_ok.1 e
      obtain ⟨⟨b, B'⟩, hb, e⟩ := bind_eq_ok.1 e
      cases e
      have heq : Θ.Equal (D.under ε) (d.plain ℓ) := hDr.equal.trans (hdec.1 rfl)
      exact ⟨body_sound hΘ h ih hB hDall hDt heq (liftM_eq_ok.1 hC) hb, rfl⟩
    | false =>
      obtain ⟨_, _, e⟩ := bind_eq_ok.1 e
      cases e
  | neutral | type | lam | former | con =>
    obtain ⟨_, _, e⟩ := bind_eq_ok.1 e
    cases e

/-! ### Calls and eliminations -/

theorem elaborate_call_sound {span : Span} {callee argument : Expression}
    (e : Context.elaborate (n + 1) Γ (.call span callee argument) none = .ok (t, A)) :
    Elaborates Θ Δ ε ℓ L t A := by
  have hΓ := h.typed hΘ
  obtain ⟨⟨f, F⟩, hf, e⟩ := bind_eq_ok.1 e
  have hfe := (ih.elaborate h .none hf).1
  cases F with
  | pi d c =>
    obtain ⟨⟨a, d'⟩, ha, e⟩ := bind_eq_ok.1 e
    obtain ⟨v, hv, e⟩ := bind_eq_ok.1 e
    obtain ⟨w, hw, e⟩ := bind_eq_ok.1 e
    cases e
    have hae := verify_sound h ih hfe.type.domain ha
    obtain ⟨hvall, hvr⟩ := (hΓ.eval_all_post hae.all hae.typed n).of_ok (liftM_eq_ok.1 hv)
    obtain ⟨hwt, hwr⟩ := (hfe.type.instantiate hΓ.models.sound hΓ.models.describes hΓ.scope hvall
      (hae.typed.reds hΘ.sound hvr) n).of_ok (liftM_eq_ok.1 hw)
    refine ⟨hwt, Term.apply_all hfe.all hae.all, ?_⟩
    rw [Term.under_apply]
    refine .conv (.app hfe.typed hae.typed) ?_
    exact (Theory.Equal.inst (.refl _) hvr.equal).trans hwr.equal
  | neutral | type | lam | former | con =>
    obtain ⟨_, _, e⟩ := bind_eq_ok.1 e
    cases e

/-- **The methods of an elimination have the types of the rule.** -/
theorem methods_sound {M : Term} {id : FamilyId} {F : Family} {D : FamilyShape}
    {ps is : List Value} (tgt : Target Θ Γ Δ ε ℓ L t id F D ps is) {cs : List ConstructorId}
    (hcs : D.constructors = some cs) {m : Value} {u : Nat} (hm : m.All L)
    (hr : Reds Θ (M.under ε) (m.plain ℓ))
    (hmt : HasType Θ Δ (m.plain ℓ) (D.motiveType id (Value.plains ℓ ps) u))
    {methods : List Expression} (hl : methods.length = cs.length) {ms : List Term}
    (e : ((methods.zip cs).mapM fun (method, c) => (do
      let K ← orDangling (Γ.signature.constructor? c)
      let type ← methodType Γ.signature n Γ.level Γ.env K ps m
      let (a, _) ← Context.elaborate n Γ method (some type)
      Except.ok a : Elaborate Term)) = .ok ms) :
    ms.length = cs.length ∧ Term.Alls L ms ∧ ∀ {j : Nat} {a c C},
      (ms.map (Term.under ε))[j]? = some a → cs[j]? = some c → Θ.constructor c = some C →
      HasType Θ Δ a (C.methodType c (Value.plains ℓ ps) (M.under ε)) := by
  have hms : List.Forall₂ (fun x a => a.All L ∧ ∀ {C}, Θ.constructor x.2 = some C →
      HasType Θ Δ (a.under ε) (C.methodType x.2 (Value.plains ℓ ps) (M.under ε)))
      (methods.zip cs) ms := by
    refine forall₂_of_mem (mapM_eq_ok.1 e) fun ⟨method, c⟩ hx a ha => ?_
    obtain ⟨K, hK, ha⟩ := bind_eq_ok.1 ha
    obtain ⟨T, hT, ha⟩ := bind_eq_ok.1 ha
    obtain ⟨⟨a', T'⟩, ha', ha⟩ := bind_eq_ok.1 ha
    cases ha
    have hK := orDangling_eq_ok.1 (liftM_eq_ok.1 hK)
    obtain ⟨hTt, C, hC, heq⟩ := (tgt.methodType_post (h.typed hΘ) hcs (List.of_mem_zip hx).2 hm hr
      hmt hK).of_ok (liftM_eq_ok.1 hT)
    have hae := verify_sound h ih hTt ha'
    refine ⟨hae.all, fun {C'} hC' => ?_⟩
    obtain rfl := Option.some.inj (hC.symm.trans hC')
    exact hae.typed.conv heq
  refine ⟨?_, ?_, ?_⟩
  · have hzip : (methods.zip cs).length = cs.length := by rw [List.length_zip, hl, Nat.min_self]
    rw [← hms.length_eq, hzip]
  · exact Term.alls_iff.2 (forall_mem_of_forall₂ (hms.imp fun _ _ h => h.1))
  · intro j a c C ha hc hC
    rw [List.getElem?_map] at ha
    obtain ⟨b, hb, rfl⟩ := Option.map_eq_some_iff.1 ha
    obtain ⟨x, hx, _, hbt⟩ := forall₂_getElem? hms.flip hb
    obtain ⟨_, hxc⟩ := List.getElem?_zip_eq_some.1 hx
    obtain rfl := Option.some.inj (hc.symm.trans hxc)
    exact hbt hC

theorem elaborate_elim_sound {span : Span} {target motive : Expression}
    {methods : List Expression}
    (e : Context.elaborate (n + 1) Γ (.elim span target motive methods) none = .ok (t, A)) :
    Elaborates Θ Δ ε ℓ L t A := by
  have hΓ := h.typed hΘ
  obtain ⟨⟨t, T⟩, ht, e⟩ := bind_eq_ok.1 e
  obtain ⟨⟨F, ps, is⟩, hsplit, e⟩ := bind_eq_ok.1 e
  obtain ⟨table, hdispatch, hrest⟩ := bind_eq_ok.1 e
  have hte := (ih.elaborate h .none ht).1
  obtain ⟨id, D, hF, hD, dF, rfl, hps, his⟩ :=
    (splitTarget_post hΓ hte.type (J := False) False.elim).of_ok (Check.at_eq_ok.1 hsplit)
  have tgt := Target.of_isType hte.type hte.typed hF hD dF hps his
  have hcs : D.constructors = some table.constructors := by
    have hd := Check.at_eq_ok.1 hdispatch
    unfold dispatch at hd
    split at hd
    · next htable =>
      cases hd
      rw [dF.constructors, htable, Option.map_some]
    · cases hd
  by_cases hl : methods.length ≠ table.constructors.length
  · rw [if_pos hl] at hrest
    cases hrest
  · rw [if_neg hl] at hrest
    rw [not_not] at hl
    obtain ⟨ds, hds, hrest⟩ := bind_eq_ok.1 hrest
    obtain ⟨⟨M, MT⟩, hM, hrest⟩ := bind_eq_ok.1 hrest
    obtain ⟨o, ho, hrest⟩ := bind_eq_ok.1 hrest
    obtain ⟨hdsall, hmot⟩ := (motiveDomains_post hΓ.models.sound hΓ.models.describes hΓ.scope
      tgt.family tgt.describes ((hΓ.models.grounded.family hF).mono hΓ.leaves) tgt.parameters
      tgt.instance_parameters n).of_ok (liftM_eq_ok.1 hds)
    obtain ⟨_, _, hdst⟩ := hmot 0
    have hMe := ih.elaborateMotive h hdsall hdst hM
    have hlevel := (motiveLevel?_post hΓ.models.sound hΓ.models.describes hΓ.scope hdsall hdst
      hMe.type n).of_ok (liftM_eq_ok.1 ho)
    cases o with
    | none =>
      obtain ⟨_, _, hrest⟩ := bind_eq_ok.1 hrest
      cases hrest
    | some l =>
      have hMt : HasType Θ Δ (M.under ε) (D.motiveType id (Value.plains ℓ ps) l.toNat) :=
        hMe.typed.conv (((hlevel l.toNat).2 ⟨l, rfl, rfl⟩).trans (hmot l.toNat).1)
      obtain ⟨m, hm, hrest⟩ := bind_eq_ok.1 hrest
      obtain ⟨ms, hms, hrest⟩ := bind_eq_ok.1 hrest
      obtain ⟨a, ha, hrest⟩ := bind_eq_ok.1 hrest
      obtain ⟨r, hr, hrest⟩ := bind_eq_ok.1 hrest
      cases hrest
      obtain ⟨hmall, hmr⟩ := (hΓ.eval_all_post hMe.all hMt n).of_ok (liftM_eq_ok.1 hm)
      have hmt := hMt.reds hΘ.sound hmr
      obtain ⟨hlen, hmsall, hmst⟩ := methods_sound hΘ h ih tgt hcs hmall hmr hmt hl hms
      obtain ⟨haall, har⟩ := (hΓ.eval_all_post hte.all tgt.typed n).of_ok (liftM_eq_ok.1 ha)
      obtain ⟨hrt, hrr⟩ := (tgt.result_post hΓ hmall hmt haall
        (tgt.typed.reds hΘ.sound har)).of_ok (liftM_eq_ok.1 hr)
      refine ⟨hrt, ⟨hte.all, hMe.all, hmsall⟩, ?_⟩
      rw [Term.under_elim]
      refine .conv (.elim tgt.family hcs tgt.instance_parameters.length_eq
        tgt.instance_indices.length_eq (by rw [List.length_map, hlen]) tgt.typed hMt hmst)
        (Theory.Equal.trans (.spine hmr.equal ?_) hrr.equal)
      exact List.rel_append (Theory.Equal.refls _) (.cons har.equal .nil)

/-! ### All forms -/

/-- **An expression that is synthesized and compared.** -/
theorem compare_sound {e : Expression} {B : Value} {span : Span} (hB : B.IsType Θ Δ L ℓ)
    (hc : (do
      let (t, synthesized) ← Context.elaborate n Γ e none
      if ← Γ.convert n synthesized B then .ok (t, B)
      else do
        let found ← Γ.quote n synthesized
        let wanted ← Γ.quote n B
        (ElaborationCause.mismatch found wanted).throwAt span : Elaborate (Term × Value)) =
      .ok (t, A)) :
    Elaborates Θ Δ ε ℓ L t A ∧ A = B := by
  obtain ⟨⟨t', T⟩, ht, hc⟩ := bind_eq_ok.1 hc
  obtain ⟨p, hp, hc⟩ := bind_eq_ok.1 hc
  have hte := (ih.elaborate h .none ht).1
  have hdec := ((h.typed hΘ).convert_decides hte.type hB n).of_ok (liftM_eq_ok.1 hp)
  cases p with
  | true =>
    cases hc
    exact ⟨⟨hB, hte.all, hte.typed.conv (hdec.1 rfl)⟩, rfl⟩
  | false =>
    obtain ⟨_, _, hc⟩ := bind_eq_ok.1 hc
    obtain ⟨_, _, hc⟩ := bind_eq_ok.1 hc
    cases hc

theorem synthesize_step {e : Expression}
    (he : Context.elaborate (n + 1) Γ e none = .ok (t, A)) : Elaborates Θ Δ ε ℓ L t A := by
  cases e with
  | var => exact elaborate_var_sound hΘ h he
  | ascribe => exact elaborate_ascribe_sound hΘ h ih he
  | letIn => exact (elaborate_letIn_sound hΘ h ih .none he).1
  | typedLet => exact (elaborate_typedLet_sound hΘ h ih .none he).1
  | type => exact elaborate_type_sound hΘ h he
  | pi => exact elaborate_pi_sound hΘ h ih he
  | lam => cases he
  | typedLam => exact elaborate_typedLam_sound hΘ h ih he
  | call => exact elaborate_call_sound hΘ h ih he
  | elim => exact elaborate_elim_sound hΘ h ih he

theorem verify_step {e : Expression} {B : Value} (hB : B.IsType Θ Δ L ℓ)
    (he : Context.elaborate (n + 1) Γ e (some B) = .ok (t, A)) :
    Elaborates Θ Δ ε ℓ L t A ∧ A = B := by
  cases e with
  | letIn =>
    obtain ⟨hte, hA⟩ := elaborate_letIn_sound hΘ h ih (.some hB) he
    exact ⟨hte, hA B rfl⟩
  | typedLet =>
    obtain ⟨hte, hA⟩ := elaborate_typedLet_sound hΘ h ih (.some hB) he
    exact ⟨hte, hA B rfl⟩
  | lam => exact elaborate_lam_sound hΘ h ih hB he
  | typedLam => exact verify_typedLam_sound hΘ h ih hB he
  | var | ascribe | type | pi | call | elim =>
    exact compare_sound hΘ h ih hB he

omit hΘ in
theorem elaborateType_step {e : Expression} {l : UInt64}
    (he : Context.elaborateType (n + 1) Γ e = .ok (t, l)) :
    t.All L ∧ HasType Θ Δ (t.under ε) (.atom (.type l.toNat)) := by
  obtain ⟨⟨t', T⟩, ht, he⟩ := bind_eq_ok.1 he
  have hte := (ih.elaborate h .none ht).1
  cases T with
  | type level =>
    cases he
    exact ⟨hte.all, hte.typed⟩
  | neutral | pi | lam | former | con =>
    obtain ⟨_, _, he⟩ := bind_eq_ok.1 he
    cases he

theorem elaborateMotive_step {e : Expression} {ds : List Value} {B : Plain} {u : Nat}
    (hds : TeleAll L Γ.level ds)
    (hdst : HasType Θ Δ (pis (telePlain ℓ Γ.level ds) B) (.atom (.type u)))
    (he : Context.elaborateMotive (n + 1) Γ e ds = .ok (t, A)) : Elaborates Θ Δ ε ℓ L t A := by
  unfold Context.elaborateMotive at he
  split at he
  · next span label body d ds =>
    rw [telePlain, pis_cons] at hdst
    obtain ⟨m, m', hd, hrest, _⟩ := hdst.pi_inv
    have hdt : d.IsType Θ Δ L ℓ := ⟨hds.1, m, hd⟩
    refine abstraction_sound hΘ h hdt (fun hb => ?_) he
    exact ih.elaborateMotive (h.bind label.value hdt) hds.2 hrest hb
  · exact (ih.elaborate h .none he).1

end

/-- **Elaboration is sound**, by induction on the fuel. -/
theorem sound (hΘ : Θ.Models S) (n : Nat) : Sound Θ S n := by
  induction n with
  | zero =>
    refine ⟨fun _ _ _ _ _ _ he => ?_, fun _ _ _ _ he => ?_, fun _ _ _ _ _ _ _ _ _ he => ?_⟩
    all_goals cases he
  | succ n ih =>
    refine ⟨fun h e expected t A hx he => ?_, fun h e t l he => elaborateType_step h ih he,
      fun h e t A ds B u hds hdst he => elaborateMotive_step hΘ h ih hds hdst he⟩
    cases expected with
    | none => exact ⟨synthesize_step hΘ h ih he, by rintro B ⟨⟩⟩
    | some B =>
      obtain ⟨hte, rfl⟩ := verify_step hΘ h ih (hx B rfl) he
      exact ⟨hte, by rintro _ ⟨⟩; rfl⟩

end Context

/-! ### The second check -/

variable {Θ : Theory} {S : Signature} {n : Nat} {e : Expression} {expected : Option Value}
  {t : Term} {A : Value}

/-- **A closed expression that has to be a type computes to one.** -/
theorem Expression.elaborateType_sound (hΘ : Θ.Models S)
    (he : e.elaborateType S n = .ok (t, A)) : A.IsType Θ [] S.valueLeaves noLevels := by
  obtain ⟨⟨t', l⟩, ht, he⟩ := bind_eq_ok.1 he
  obtain ⟨v, hv, he⟩ := bind_eq_ok.1 he
  cases he
  have hread := Context.Reads.empty (Θ := Θ) (S := S)
  obtain ⟨_, _, _, hA⟩ := Context.annotation_sound hΘ hread (Context.sound hΘ n) ht
    (liftM_eq_ok.1 hv)
  exact hA

/-- **The second check of a term that was elaborated** succeeds if and only if each universe in
the term has a successor. -/
theorem Context.check_elaborated_post (hΘ : Θ.Models S)
    (hx : ∀ v, expected = some v → ∃ m e' T, Expression.elaborateType S m e' = .ok (T, v))
    (he : Context.elaborate n (.empty S) e expected = .ok (t, A)) (k : Nat) :
    Post (Context.check k (.empty S) t A) (fun _ => t.Bounded) (Refuses t.Bounded) := by
  have hexpects : Expects Θ [] noLevels S.valueLeaves expected := by
    intro v hv
    obtain ⟨m, e', T, hT⟩ := hx v hv
    exact Expression.elaborateType_sound hΘ hT
  obtain ⟨hte, _⟩ := (Context.sound hΘ n).elaborate .empty hexpects he
  refine (Context.check_post (.empty hΘ) k t hte.type).mono (fun _ h => h.1.bounded) fun s hs => ?_
  exact hs.mono fun hb => ⟨hb, hte.typed⟩

/-- **The second check refuses a term only for its universes.**  A term that was elaborated passes
the check if and only if each universe it mentions has a successor; and if each has one, then
elaboration of the closed expression reports no error. -/
theorem Signature.Reachable.recheck_iff (h : S.Reachable)
    (hx : ∀ v, expected = some v → ∃ m e' T, Expression.elaborateType S m e' = .ok (T, v))
    (he : Context.elaborate n (.empty S) e expected = .ok (t, A)) :
    (∀ k, Context.Returns (Context.check k (.empty S) t A) →
      (Context.check k (.empty S) t A = .ok () ↔ t.Bounded)) ∧
    (t.Bounded → ∀ error, e.elaborate S n expected ≠ .error (.error error)) := by
  obtain ⟨Θ, hΘ⟩ := h.coherent
  have hpost (k : Nat) := Context.check_elaborated_post hΘ.models hx he k
  refine ⟨fun k hk => ⟨fun hc => (hpost k).of_ok hc, fun hb => ?_⟩, fun hb error herror => ?_⟩
  · obtain ⟨_, hc, _⟩ := hk.exists_ok (hpost k) hb
    exact hc
  · rw [Expression.elaborate, he] at herror
    change (Check.at e.span (Context.check n (.empty S) t A) >>= fun _ => .ok (t, A)) =
      .error (.error error) at herror
    cases hc : Context.check n (.empty S) t A with
    | ok u =>
      rw [hc] at herror
      cases herror
    | error s =>
      cases s with
      | halt stop =>
        rw [hc] at herror
        cases herror
      | error cause => exact (hpost n).of_error hc hb

/-- The source text `Nat -> Nat`. -/
def numberMapSource : Expression :=
  .pi default ⟨none, 0⟩ (.var default "Nat") (.var default "Nat")

/-- The source text `|n| let m = succ n; m`, which names no type. -/
def successorSource : Expression :=
  .lam default ⟨some "n", 0⟩ (.letIn default ⟨some "m", 0⟩
    (.call default (.var default "succ") (.var default "n")) (.var default "m"))

/-- The domain is read back from the expected type and the type of the local definition from its
argument.  Neither mentions a universe, and the check accepts them. -/
theorem successor_recheck_iff :
    let N := Term.former ⟨0⟩ []
    let map : Value := .pi (.former ⟨0⟩ []) (.mk [] none N)
    let t : Term := .lam (some "n") N
      (.letIn (some "m") N (.con ⟨1⟩ [.var (some "n") 0]) (.var (some "m") 0))
    naturals.Reachable ∧ numberMapSource.elaborateType naturals 9 = .ok (.pi none N N, map) ∧
    Context.elaborate 9 (.empty naturals) successorSource (some map) = .ok (t, map) ∧
    Context.check 9 (.empty naturals) t map = .ok () ∧ t.Bounded ∧
    ∀ error, successorSource.elaborate naturals 9 (some map) ≠ .error (.error error) := by
  intro N map t
  have hx : ∀ v, some map = some v →
      ∃ m e' T, Expression.elaborateType naturals m e' = .ok (T, v) := by
    rintro v ⟨⟩
    exact ⟨9, numberMapSource, .pi none N N, rfl⟩
  have he : Context.elaborate 9 (.empty naturals) successorSource (some map) = .ok (t, map) := rfl
  have hc : Context.check 9 (.empty naturals) t map = .ok () := rfl
  have hr : Context.Returns (Context.check 9 (.empty naturals) t map) := by
    rw [hc]
    rintro stop ⟨⟩
  obtain ⟨hiff, herror⟩ := reachable_naturals.recheck_iff hx he
  have hb : t.Bounded := (hiff 9 hr).1 hc
  exact ⟨reachable_naturals, rfl, he, hc, hb, herror hb⟩

/-- The source text `let x = Type 18446744073709551614; x`. -/
def lastUniverseSource : Expression :=
  .letIn default ⟨some "x", 0⟩ (.type default 18446744073709551614) (.var default "x")

/-- **The check refuses a term that was elaborated.**  The type of `x` is filled in with the last
universe, which has no type of its own. -/
theorem lastUniverse_overruled :
    let last : UInt64 := 18446744073709551615
    let t : Term := .letIn (some "x") (.type last) (.type 18446744073709551614) (.var (some "x") 0)
    Signature.empty.Reachable ∧
    Context.elaborate 9 (.empty .empty) lastUniverseSource none = .ok (t, .type last) ∧
    Context.check 9 (.empty .empty) t (.type last) =
      .error (.error (.type (.universeOverflow last))) :=
  ⟨.refl, rfl, rfl⟩

end Constructions
