/-
# Elaboration returns flat terms

In a term that was elaborated no former or constructor is applied: its arguments are in its list
(`Context.flattens`).  A call is put together with `Term.apply`, which takes an argument into the
list, and a term that is read back only applies what waits for a variable or a constant.  So
flatness of a term that comes out of a session need not be assumed.
-/

import Constructions.Proofs.Elaboration
import Constructions.Proofs.Elaboration.Settled

namespace Constructions

theorem Term.Flat.apply {f a : Term} (hf : f.Flat) (ha : a.Flat) : (f.apply a).Flat := by
  cases f with
  | former id as | con id as =>
    refine Term.allFlat_iff.2 (List.forall_mem_append.2 ⟨Term.allFlat_iff.1 hf, ?_⟩)
    exact List.forall_mem_singleton.2 ha
  | var | const | letIn | type | pi | lam | app | elim => exact ⟨rfl, hf, ha⟩

/-- **What is read back is flat**: the head of an application is neutral. -/
theorem readBack_flat (S : Signature) (n : Nat) :
    (∀ {level : Nat} {v : Value} {t : Term}, v.readBack S n level = .ok t → t.Flat) ∧
    (∀ {level : Nat} {k : Neutral} {t : Term}, k.readBack S n level = .ok t →
      t.Flat ∧ ∀ a, t.apply a = .app t a) := by
  induction n with
  | zero => exact ⟨fun h => (nomatch h), fun h => (nomatch h)⟩
  | succ n ih =>
    obtain ⟨ihv, ihk⟩ := ih
    have ihvs {level : Nat} {vs : List Value} {ts : List Term}
        (h : vs.mapM (fun v => v.readBack S n level) = .ok ts) : Term.AllFlat ts :=
      Term.allFlat_iff.2 (forall_mem_of_forall₂ ((mapM_eq_ok.1 h).imp fun _ _ ht => ihv ht))
    refine ⟨?_, ?_⟩
    · intro level v t h
      cases v with
      | neutral k => exact (ihk h).1
      | type l =>
        cases h
        trivial
      | pi d c | lam d c =>
        obtain ⟨A, hA, h⟩ := bind_eq_ok.1 h
        obtain ⟨w, _, h⟩ := bind_eq_ok.1 h
        obtain ⟨inner, _, h⟩ := bind_eq_ok.1 h
        obtain ⟨b, hb, h⟩ := bind_eq_ok.1 h
        cases h
        exact ⟨ihv hA, ihv hb⟩
      | former F as | con c as =>
        obtain ⟨ts, hts, h⟩ := bind_eq_ok.1 h
        cases h
        exact ihvs hts
    · intro level k t h
      cases k with
      | var label l =>
        rw [Neutral.readBack] at h
        split at h
        · cases h
          exact ⟨trivial, fun _ => rfl⟩
        · cases h
      | const c =>
        cases h
        exact ⟨trivial, fun _ => rfl⟩
      | app k v =>
        obtain ⟨f, hf, h⟩ := bind_eq_ok.1 h
        obtain ⟨a, ha, h⟩ := bind_eq_ok.1 h
        cases h
        exact ⟨⟨(ihk hf).2 a, (ihk hf).1, ihv ha⟩, fun _ => rfl⟩
      | elim k v vs =>
        obtain ⟨t, ht, h⟩ := bind_eq_ok.1 h
        obtain ⟨M, hM, h⟩ := bind_eq_ok.1 h
        obtain ⟨ms, hms, h⟩ := bind_eq_ok.1 h
        cases h
        exact ⟨⟨(ihk ht).1, ihv hM, ihvs hms⟩, fun _ => rfl⟩

namespace Context

variable {Γ : Context} {n : Nat} {t : Term} {A : Value}

theorem quote_flat {v : Value} (h : Γ.quote n v = .ok t) : t.Flat :=
  (readBack_flat Γ.signature n).1 h

/-- The procedures of elaboration with `n` units of fuel return flat terms. -/
structure Flattens (n : Nat) : Prop where
  elaborate : ∀ {Γ : Context} {e : Expression} {expected : Option Value} {t : Term} {A : Value},
    Context.elaborate n Γ e expected = .ok (t, A) → t.Flat
  elaborateType : ∀ {Γ : Context} {e : Expression} {t : Term} {l : UInt64},
    Context.elaborateType n Γ e = .ok (t, l) → t.Flat
  elaborateMotive : ∀ {Γ : Context} {e : Expression} {ds : List Value} {t : Term} {A : Value},
    Context.elaborateMotive n Γ e ds = .ok (t, A) → t.Flat

theorem abstraction_flat {label : Label} {d : Value} {body : Context → Elaborate (Term × Value)}
    (hbody : ∀ {Δ b B}, body Δ = .ok (b, B) → b.Flat)
    (h : Γ.abstraction n label d body = .ok (t, A)) : t.Flat := by
  obtain ⟨D, hD, h⟩ := bind_eq_ok.1 h
  obtain ⟨⟨b, B⟩, hb, h⟩ := bind_eq_ok.1 h
  obtain ⟨q, _, h⟩ := bind_eq_ok.1 h
  cases h
  exact ⟨quote_flat (liftM_eq_ok.1 hD), hbody hb⟩

section

variable (ih : Flattens n)

include ih

omit ih in
theorem elaborate_var_flat {span : Span} {x : Name}
    (h : Context.elaborate (n + 1) Γ (.var span x) none = .ok (t, A)) : t.Flat := by
  rw [Context.elaborate] at h
  split at h
  · cases h
    trivial
  split at h
  · next found hfound =>
    cases h
    obtain ⟨entry, _, hfound⟩ := Option.bind_eq_some_iff.1 hfound
    cases entry with
    | global | family id | constructor id =>
      obtain ⟨_, _, hfound⟩ := Option.bind_eq_some_iff.1 hfound
      cases hfound
      trivial
  · cases h

theorem elaborate_let_flat {span : Span} {label : Located Label} {argument body : Expression}
    {expected : Option Value}
    (h : Context.elaborate (n + 1) Γ (.letIn span label argument body) expected = .ok (t, A)) :
    t.Flat := by
  obtain ⟨⟨a, d⟩, ha, h⟩ := bind_eq_ok.1 h
  obtain ⟨D, hD, h⟩ := bind_eq_ok.1 h
  obtain ⟨v, _, h⟩ := bind_eq_ok.1 h
  obtain ⟨⟨b, B⟩, hb, h⟩ := bind_eq_ok.1 h
  cases h
  exact ⟨quote_flat (liftM_eq_ok.1 hD), ih.elaborate ha, ih.elaborate hb⟩

theorem elaborate_typedLet_flat {span : Span} {label : Located Label}
    {type argument body : Expression} {expected : Option Value}
    (h : Context.elaborate (n + 1) Γ (.typedLet span label type argument body) expected =
      .ok (t, A)) : t.Flat := by
  obtain ⟨⟨D, l⟩, hD, h⟩ := bind_eq_ok.1 h
  obtain ⟨d, _, h⟩ := bind_eq_ok.1 h
  obtain ⟨⟨a, d'⟩, ha, h⟩ := bind_eq_ok.1 h
  obtain ⟨v, _, h⟩ := bind_eq_ok.1 h
  obtain ⟨⟨b, B⟩, hb, h⟩ := bind_eq_ok.1 h
  cases h
  exact ⟨ih.elaborateType hD, ih.elaborate ha, ih.elaborate hb⟩

theorem elaborate_elim_flat {span : Span} {target motive : Expression} {methods : List Expression}
    (h : Context.elaborate (n + 1) Γ (.elim span target motive methods) none = .ok (t, A)) :
    t.Flat := by
  obtain ⟨⟨t, T⟩, ht, h⟩ := bind_eq_ok.1 h
  obtain ⟨⟨F, ps, is⟩, _, h⟩ := bind_eq_ok.1 h
  obtain ⟨table, _, h⟩ := bind_eq_ok.1 h
  by_cases hl : methods.length ≠ table.constructors.length
  · rw [if_pos hl] at h
    cases h
  rw [if_neg hl] at h
  obtain ⟨ds, _, h⟩ := bind_eq_ok.1 h
  obtain ⟨⟨M, MT⟩, hM, h⟩ := bind_eq_ok.1 h
  obtain ⟨o, _, h⟩ := bind_eq_ok.1 h
  cases o with
  | none =>
    obtain ⟨_, _, h⟩ := bind_eq_ok.1 h
    cases h
  | some l =>
    obtain ⟨m, _, h⟩ := bind_eq_ok.1 h
    obtain ⟨ms, hms, h⟩ := bind_eq_ok.1 h
    obtain ⟨a, _, h⟩ := bind_eq_ok.1 h
    obtain ⟨r, _, h⟩ := bind_eq_ok.1 h
    cases h
    refine ⟨ih.elaborate ht, ih.elaborateMotive hM, Term.allFlat_iff.2 ?_⟩
    refine forall_mem_of_forall₂ ((mapM_eq_ok.1 hms).imp fun _ a ha => ?_)
    obtain ⟨K, _, ha⟩ := bind_eq_ok.1 ha
    obtain ⟨T', _, ha⟩ := bind_eq_ok.1 ha
    obtain ⟨⟨a', _⟩, ha', ha⟩ := bind_eq_ok.1 ha
    cases ha
    exact ih.elaborate ha'

theorem synthesize_flat {e : Expression}
    (h : Context.elaborate (n + 1) Γ e none = .ok (t, A)) : t.Flat := by
  cases e with
  | var => exact elaborate_var_flat h
  | letIn => exact elaborate_let_flat ih h
  | typedLet => exact elaborate_typedLet_flat ih h
  | ascribe =>
    obtain ⟨⟨D, l⟩, _, h⟩ := bind_eq_ok.1 h
    obtain ⟨d, _, h⟩ := bind_eq_ok.1 h
    obtain ⟨⟨a, d'⟩, ha, h⟩ := bind_eq_ok.1 h
    cases h
    exact ih.elaborate ha
  | type =>
    rw [Context.elaborate] at h
    split at h
    · cases h
      trivial
    · cases h
  | pi =>
    obtain ⟨⟨D, l⟩, hD, h⟩ := bind_eq_ok.1 h
    obtain ⟨d, _, h⟩ := bind_eq_ok.1 h
    obtain ⟨⟨B, m⟩, hB, h⟩ := bind_eq_ok.1 h
    cases h
    exact ⟨ih.elaborateType hD, ih.elaborateType hB⟩
  | lam => cases h
  | typedLam =>
    obtain ⟨⟨D, l⟩, _, h⟩ := bind_eq_ok.1 h
    obtain ⟨d, _, h⟩ := bind_eq_ok.1 h
    exact abstraction_flat (fun hb => ih.elaborate hb) h
  | call =>
    obtain ⟨⟨f, F⟩, hf, h⟩ := bind_eq_ok.1 h
    cases F with
    | pi d c =>
      obtain ⟨⟨a, d'⟩, ha, h⟩ := bind_eq_ok.1 h
      obtain ⟨v, _, h⟩ := bind_eq_ok.1 h
      obtain ⟨w, _, h⟩ := bind_eq_ok.1 h
      cases h
      exact (ih.elaborate hf).apply (ih.elaborate ha)
    | neutral | type | lam | former | con =>
      obtain ⟨_, _, h⟩ := bind_eq_ok.1 h
      cases h
  | elim => exact elaborate_elim_flat ih h

theorem verify_flat {e : Expression} {B : Value}
    (h : Context.elaborate (n + 1) Γ e (some B) = .ok (t, A)) : t.Flat := by
  cases e with
  | letIn => exact elaborate_let_flat ih h
  | typedLet => exact elaborate_typedLet_flat ih h
  | lam =>
    cases B with
    | pi d c =>
      obtain ⟨D, hD, h⟩ := bind_eq_ok.1 h
      obtain ⟨C, _, h⟩ := bind_eq_ok.1 h
      obtain ⟨⟨b, B'⟩, hb, h⟩ := bind_eq_ok.1 h
      cases h
      exact ⟨quote_flat (liftM_eq_ok.1 hD), ih.elaborate hb⟩
    | neutral | type | lam | former | con =>
      obtain ⟨_, _, h⟩ := bind_eq_ok.1 h
      cases h
  | typedLam =>
    cases B with
    | pi d c =>
      obtain ⟨⟨D, l⟩, hD, h⟩ := bind_eq_ok.1 h
      obtain ⟨v, _, h⟩ := bind_eq_ok.1 h
      obtain ⟨p, _, h⟩ := bind_eq_ok.1 h
      cases p with
      | true =>
        obtain ⟨C, _, h⟩ := bind_eq_ok.1 h
        obtain ⟨⟨b, B'⟩, hb, h⟩ := bind_eq_ok.1 h
        cases h
        exact ⟨ih.elaborateType hD, ih.elaborate hb⟩
      | false =>
        obtain ⟨_, _, h⟩ := bind_eq_ok.1 h
        cases h
    | neutral | type | lam | former | con =>
      obtain ⟨_, _, h⟩ := bind_eq_ok.1 h
      cases h
  | var | ascribe | type | pi | call | elim =>
    obtain ⟨⟨t', T⟩, ht, h⟩ := bind_eq_ok.1 h
    obtain ⟨p, _, h⟩ := bind_eq_ok.1 h
    cases p with
    | true =>
      cases h
      exact ih.elaborate ht
    | false =>
      obtain ⟨_, _, h⟩ := bind_eq_ok.1 h
      obtain ⟨_, _, h⟩ := bind_eq_ok.1 h
      cases h

theorem elaborateType_flat {e : Expression} {l : UInt64}
    (h : Context.elaborateType (n + 1) Γ e = .ok (t, l)) : t.Flat := by
  obtain ⟨⟨t', T⟩, ht, h⟩ := bind_eq_ok.1 h
  cases T with
  | type level =>
    cases h
    exact ih.elaborate ht
  | neutral | pi | lam | former | con =>
    obtain ⟨_, _, h⟩ := bind_eq_ok.1 h
    cases h

theorem elaborateMotive_flat {e : Expression} {ds : List Value}
    (h : Context.elaborateMotive (n + 1) Γ e ds = .ok (t, A)) : t.Flat := by
  unfold Context.elaborateMotive at h
  split at h
  · exact abstraction_flat (fun hb => ih.elaborateMotive hb) h
  · exact ih.elaborate h

end

/-- **Elaboration returns flat terms**, by induction on the fuel. -/
theorem flattens (n : Nat) : Flattens n := by
  induction n with
  | zero => exact ⟨fun h => (nomatch h), fun h => (nomatch h), fun h => (nomatch h)⟩
  | succ n ih =>
    refine ⟨fun {Γ e expected t A} h => ?_, fun h => elaborateType_flat ih h,
      fun h => elaborateMotive_flat ih h⟩
    cases expected with
    | none => exact synthesize_flat ih h
    | some B => exact verify_flat ih h

end Context

end Constructions
