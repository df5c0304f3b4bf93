/-
# More fuel and more declarations keep results

A computation is compared with the same computation for more fuel, or in a signature that
declares more.  The outcome stays the same, unless it was of a kind that fuel or
declarations can mend.

| compared with | may be mended |
| --- | --- |
| more fuel | `exhausted` |
| a larger signature | `violation`, `dangling` |

One induction covers both (`eval_mends`): it is about two signatures that agree on what is
looked up, and two amounts of fuel.
-/

import Constructions.Proofs.Telescope

namespace Constructions

variable {α β ε : Type}

/-- The second outcome is the first, unless that is a failure that may be mended. -/
def Mends (Q : ε → Prop) (r r' : Except ε α) : Prop := (∃ e, r = .error e ∧ Q e) ∨ r' = r

namespace Mends

variable {Q : ε → Prop}

theorem refl (r : Except ε α) : Mends Q r r := .inr rfl

theorem eq_ok {r r' : Except ε α} {a : α} (h : Mends Q r r') (hr : r = .ok a) : r' = .ok a := by
  obtain ⟨e, he, _⟩ | h := h
  · cases hr.symm.trans he
  · exact h.trans hr

theorem bind {x x' : Except ε α} {f f' : α → Except ε β} (hx : Mends Q x x')
    (hf : ∀ a, x = .ok a → Mends Q (f a) (f' a)) : Mends Q (x >>= f) (x' >>= f') := by
  obtain ⟨e, rfl, he⟩ | rfl := hx
  · exact .inl ⟨e, rfl, he⟩
  · cases x' with
    | ok a => exact hf a rfl
    | error e => exact .refl _

theorem mapM {f f' : α → Except ε β} {as : List α} (h : ∀ a ∈ as, Mends Q (f a) (f' a)) :
    Mends Q (as.mapM f) (as.mapM f') := by
  induction as with
  | nil => exact .refl _
  | cons a as ih =>
    rw [List.mapM_cons, List.mapM_cons]
    refine .bind (h a List.mem_cons_self) fun b _ => ?_
    exact .bind (ih fun x hx => h x (List.mem_cons_of_mem a hx)) fun bs _ => .refl _

/-- Outcomes of a loop, with an invariant of the first one. -/
theorem foldlM {f f' : β → α → Except ε β} {P : β → Prop} {as : List α} {b : β} (hb : P b)
    (h : ∀ b, P b → ∀ a ∈ as, Mends Q (f b a) (f' b a) ∧ ∀ b', f b a = .ok b' → P b') :
    Mends Q (as.foldlM f b) (as.foldlM f' b) := by
  induction as generalizing b with
  | nil => exact .refl _
  | cons a as ih =>
    rw [List.foldlM_cons, List.foldlM_cons]
    obtain ⟨hm, hP⟩ := h b hb a List.mem_cons_self
    refine .bind hm fun b' hb' => ih (hP b' hb') fun c hc x hx => ?_
    exact h c hc x (List.mem_cons_of_mem a hx)

theorem mapError {ε' : Type} {f : ε → ε'} {Q' : ε' → Prop} {r r' : Except ε α}
    (h : Mends (fun e => Q' (f e)) r r') : Mends Q' (r.mapError f) (r'.mapError f) := by
  obtain ⟨e, rfl, he⟩ | rfl := h
  · exact .inl ⟨f e, rfl, he⟩
  · exact .refl _

theorem liftM {Q : Halt → Prop} {Q' : Stop ε → Prop} (hQ : ∀ e, Q e → Q' (.halt e))
    {r r' : Except Halt α} (h : Mends Q r r') :
    Mends Q' (liftM r : Except (Stop ε) α) (liftM r') := by
  obtain ⟨e, rfl, he⟩ | rfl := h
  · exact .inl ⟨.halt e, rfl, hQ e he⟩
  · exact .refl _

end Mends

/-! ### Computing -/

namespace Signature

/-- Two signatures agree on what is looked up while computing with constants of a kind, unless
the first one fails in a way that may be mended. -/
structure Agrees (Q : Halt → Prop) (L : Leaves) (S S' : Signature) : Prop where
  closed : L.Closed S
  unfold : ∀ {c}, L.name c → S'.unfold c = S.unfold c
  constructor : ∀ c, Mends Q (orDangling (S.constructor? c)) (orDangling (S'.constructor? c))
  family : ∀ id, Mends Q (orDangling (S.family? id)) (orDangling (S'.family? id)) ∨
    ∃ F F', S.family? id = some F ∧ S'.family? id = some F' ∧
      (F.dispatch? = none ∧ (∀ v, Q (.violation v)) ∨ F'.dispatch? = F.dispatch?)

theorem Agrees.refl (Q : Halt → Prop) {L : Leaves} {S : Signature} (h : L.Closed S) :
    S.Agrees Q L S := ⟨h, fun _ => rfl, fun _ => .refl _, fun _ => .inl (.refl _)⟩

end Signature

variable {Q : Halt → Prop} {L : Leaves} {S S' : Signature}

/-- The dispatch of an elimination. -/
theorem Signature.Agrees.dispatch (h : S.Agrees Q L S') (id : FamilyId)
    {f f' : Dispatch → Except (Stop Violation) Value}
    (hf : ∀ table, Mends (fun s => Q s.toHalt) (f table) (f' table)) :
    Mends (fun s => Q s.toHalt)
      (do
        let F ← (liftM (orDangling (S.family? id)) : Except (Stop Violation) Family)
        match F.dispatch? with
        | none => .error (.error (.unfinalizedFamily id))
        | some table => f table)
      (do
        let F ← (liftM (orDangling (S'.family? id)) : Except (Stop Violation) Family)
        match F.dispatch? with
        | none => .error (.error (.unfinalizedFamily id))
        | some table => f' table) := by
  obtain hm | ⟨F, F', hF, hF', hd⟩ := h.family id
  · refine .bind (.liftM (fun _ h => h) hm) fun F _ => ?_
    cases F.dispatch? with
    | none => exact .refl _
    | some table => exact hf table
  · rw [hF, hF']
    change Mends _ (match F.dispatch? with | none => _ | some table => f table)
      (match F'.dispatch? with | none => _ | some table => f' table)
    obtain ⟨hd, hQ⟩ | hd := hd
    · rw [hd]
      exact .inl ⟨_, rfl, hQ _⟩
    · rw [hd]
      cases F.dispatch? with
      | none => exact .refl _
      | some table => exact hf table

/-- **Computing is stable.** -/
theorem eval_mends (h : S.Agrees Q L S') {n m : Nat} (hnm : n ≤ m) (hQ : n < m → Q .exhausted) :
    (∀ {env : Env} {t : Term}, Value.Alls L env → t.All L →
      Mends Q (t.eval S n env) (t.eval S' m env)) ∧
    (∀ {f a : Value}, f.All L → a.All L → Mends Q (f.apply S n a) (f.apply S' m a)) ∧
    (∀ {M t : Value} {ms : List Value}, M.All L → Value.Alls L ms → t.All L →
      Mends (fun s => Q s.toHalt) (Value.eliminate S n M ms t) (Value.eliminate S' m M ms t)) := by
  induction n generalizing m with
  | zero =>
    cases m with
    | zero => exact ⟨fun _ _ => .refl _, fun _ _ => .refl _, fun _ _ _ => .refl _⟩
    | succ m =>
      have hQ := hQ (Nat.succ_pos m)
      exact ⟨fun _ _ => .inl ⟨_, rfl, hQ⟩, fun _ _ => .inl ⟨_, rfl, hQ⟩,
        fun _ _ _ => .inl ⟨_, rfl, hQ⟩⟩
  | succ n ih =>
    obtain ⟨m, rfl⟩ : ∃ k, m = k + 1 := ⟨m - 1, by omega⟩
    obtain ⟨ihe, iha, ihm⟩ := ih (Nat.le_of_succ_le_succ hnm) fun hlt => hQ (Nat.succ_lt_succ hlt)
    have hall {env : Env} {t : Term} {v : Value} (henv : Value.Alls L env) (ht : t.All L)
        (e : t.eval S n env = .ok v) : v.All L := Term.eval_all h.closed henv ht e
    have ihes {env : Env} {ts : List Term} (henv : Value.Alls L env) (hts : Term.Alls L ts) :
        Mends Q (ts.mapM fun t => t.eval S n env) (ts.mapM fun t => t.eval S' m env) :=
      .mapM fun t ht => ihe henv (Term.alls_iff.1 hts t ht)
    refine ⟨?_, ?_, ?_⟩
    · intro env t henv ht
      cases t with
      | var label i => exact .refl _
      | const c => exact .inr (congrArg Except.ok (h.unfold ht))
      | letIn label A a b =>
        exact .bind (ihe henv ht.2.1) fun v hv => ihe (.cons (hall henv ht.2.1 hv) henv) ht.2.2
      | type l => exact .refl _
      | pi label A B => exact .bind (ihe henv ht.1) fun _ _ => .refl _
      | lam label A b => exact .bind (ihe henv ht.1) fun _ _ => .refl _
      | app f a =>
        refine .bind (ihe henv ht.1) fun g hg => .bind (ihe henv ht.2) fun v hv => ?_
        exact iha (hall henv ht.1 hg) (hall henv ht.2 hv)
      | former F as => exact .bind (ihes henv ht) fun _ _ => .refl _
      | con c as => exact .bind (ihes henv ht) fun _ _ => .refl _
      | elim t M ms =>
        refine .bind (ihe henv ht.1) fun v hv => .bind (ihe henv ht.2.1) fun N hN =>
          .bind (ihes henv ht.2.2) fun ns hns => .mapError ?_
        have hns : Value.Alls L ns := by
          refine Value.alls_iff.2 (forall_mem_of_forall₂ (forall₂_of_mem (mapM_eq_ok.1 hns) ?_))
          exact fun m hm _ e => hall henv (Term.alls_iff.1 ht.2.2 m hm) e
        exact ihm (hall henv ht.2.1 hN) hns (hall henv ht.1 hv)
    · intro f a hf ha
      cases f with
      | lam d c =>
        obtain ⟨env, label, body⟩ := c
        exact ihe (.cons ha hf.2.1) hf.2.2
      | neutral | former | con | type | pi => exact .refl _
    · intro M t ms hM hms ht
      cases t with
      | con c as =>
        have has := Value.alls_iff.1 ht
        rw [Value.eliminate, Value.eliminate]
        refine .bind (.liftM (fun _ h => h) (h.constructor c)) fun K _ => ?_
        by_cases hl : as.length ≠ K.arity
        · rw [if_pos hl, if_pos hl]
          exact .refl _
        rw [if_neg hl, if_neg hl]
        refine h.dispatch K.family fun table => ?_
        cases hmethod : table.select? c ms with
        | none => exact .refl _
        | some method =>
          obtain ⟨i, _, hi⟩ := Dispatch.select?_eq_some hmethod
          refine .bind (.mapM fun i _ => .bind (.refl _) fun a ha => ?_) fun rs hrs => ?_
          · rw [liftM_eq_ok, orDangling_eq_ok] at ha
            exact ihm hM hms (has a (List.mem_of_getElem? ha))
          have hrs : Value.Alls L rs := by
            refine Value.alls_iff.2 (forall_mem_of_forall₂ ((mapM_eq_ok.1 hrs).imp ?_))
            intro i r hr
            obtain ⟨a, ha, hr⟩ := bind_eq_ok.1 hr
            rw [liftM_eq_ok, orDangling_eq_ok] at ha
            exact (eval_apply_eliminate_all h.closed n).2.2 hM hms
              (has a (List.mem_of_getElem? ha)) hr
          have hargs : Value.Alls L (as.drop K.parameterCount ++ rs) :=
            Value.alls_append.2 ⟨Value.alls_iff.2 fun a ha => has a (List.mem_of_mem_drop ha), hrs⟩
          refine .foldlM (P := Value.All L)
            (Value.alls_iff.1 hms method (List.mem_of_getElem? hi)) fun f hf a ha => ?_
          have ha := Value.alls_iff.1 hargs a ha
          exact ⟨.liftM (fun _ h => h) (iha hf ha),
            fun g hg => Value.apply_all h.closed hf ha (liftM_eq_ok.1 hg)⟩
      | neutral | type | pi | lam | former => exact .refl _

section

variable (h : S.Agrees Q L S') (hl : ∀ l, L.level l) {n m : Nat} (hnm : n ≤ m)
  (hQ : n < m → Q .exhausted)

include h hl hnm hQ

theorem Closure.enter_mends {c : Closure} (hc : c.All L) (level : Nat) :
    Mends Q (c.enter S n level) (c.enter S' m level) := by
  obtain ⟨env, label, body⟩ := c
  exact (eval_mends h hnm hQ).1 (.cons (hl level) hc.1) hc.2

/-- **Opening a type is stable.** -/
theorem Value.telescope_mends {level : Nat} {limit : Option Nat} {ty : Value} (hty : ty.All L) :
    Mends Q (ty.telescope S n level limit) (ty.telescope S' m level limit) := by
  induction n generalizing m level limit ty with
  | zero =>
    cases m with
    | zero => exact .refl _
    | succ m => exact .inl ⟨_, rfl, hQ (Nat.succ_pos m)⟩
  | succ n ih =>
    obtain ⟨m, rfl⟩ : ∃ k, m = k + 1 := ⟨m - 1, by omega⟩
    have hnm := Nat.le_of_succ_le_succ hnm
    have hQ : n < m → Q .exhausted := fun hlt => hQ (Nat.succ_lt_succ hlt)
    by_cases hstop : limit ≠ some 0 → ∀ d c, ty ≠ .pi d c
    · rw [telescope_stop S n level hstop, telescope_stop S' m level hstop]
      exact .refl _
    simp only [not_forall, not_not] at hstop
    obtain ⟨hlimit, d, c, rfl⟩ := hstop
    rw [telescope_pi S n level hlimit, telescope_pi S' m level hlimit]
    refine .bind (Closure.enter_mends h hl hnm hQ hty.2 level) fun body hb => ?_
    exact .bind (ih hnm hQ (Closure.enter_all h.closed hl hty.2 hb)) fun _ _ => .refl _

/-- **Reading back is stable.** -/
theorem readBack_mends :
    (∀ {level : Nat} {v : Value}, v.All L →
      Mends Q (v.readBack S n level) (v.readBack S' m level)) ∧
    (∀ {level : Nat} {k : Neutral}, k.All L →
      Mends Q (k.readBack S n level) (k.readBack S' m level)) := by
  induction n generalizing m with
  | zero =>
    cases m with
    | zero => exact ⟨fun _ => .refl _, fun _ => .refl _⟩
    | succ m =>
      have hQ := hQ (Nat.succ_pos m)
      exact ⟨fun _ => .inl ⟨_, rfl, hQ⟩, fun _ => .inl ⟨_, rfl, hQ⟩⟩
  | succ n ih =>
    obtain ⟨m, rfl⟩ : ∃ k, m = k + 1 := ⟨m - 1, by omega⟩
    have hnm := Nat.le_of_succ_le_succ hnm
    have hQ : n < m → Q .exhausted := fun hlt => hQ (Nat.succ_lt_succ hlt)
    obtain ⟨ihv, ihm⟩ := ih hnm hQ
    have ihvs {level : Nat} {vs : List Value} (hvs : Value.Alls L vs) :
        Mends Q (vs.mapM fun v => v.readBack S n level) (vs.mapM fun v => v.readBack S' m level) :=
      .mapM fun v hv => ihv (Value.alls_iff.1 hvs v hv)
    have ihb {level : Nat} {d : Value} {c : Closure} {g : Term → Term → Term} (hd : d.All L)
        (hc : c.All L) :
        Mends Q
          (do
            let d ← d.readBack S n level
            let v ← c.enter S n level
            let inner ← nextNumber level
            let b ← v.readBack S n inner
            .ok (g d b))
          (do
            let d ← d.readBack S' m level
            let v ← c.enter S' m level
            let inner ← nextNumber level
            let b ← v.readBack S' m inner
            .ok (g d b)) := by
      refine .bind (ihv hd) fun _ _ => .bind (Closure.enter_mends h hl hnm hQ hc level) fun v hv =>
        .bind (.refl _) fun inner _ => .bind (ihv ?_) fun _ _ => .refl _
      exact Closure.enter_all h.closed hl hc hv
    refine ⟨?_, ?_⟩
    · intro level v hv
      cases v with
      | neutral k => exact ihm hv
      | type l => exact .refl _
      | pi d c => exact ihb hv.1 hv.2
      | lam d c => exact ihb hv.1 hv.2
      | former F as => exact .bind (ihvs hv) fun _ _ => .refl _
      | con c as => exact .bind (ihvs hv) fun _ _ => .refl _
    · intro level k hk
      cases k with
      | var label l => exact .refl _
      | const c => exact .refl _
      | app f a => exact .bind (ihm hk.1) fun _ _ => .bind (ihv hk.2) fun _ _ => .refl _
      | elim t M ms =>
        exact .bind (ihm hk.1) fun _ _ => .bind (ihv hk.2.1) fun _ _ =>
          .bind (ihvs hk.2.2) fun _ _ => .refl _

end

/-! ### More fuel -/

/-- All leaves. -/
def Leaves.any : Leaves := ⟨fun _ => True, fun _ => True, fun _ => True, fun _ => True⟩

mutual

theorem Term.all_any : ∀ t : Term, t.All .any
  | .var _ _ => trivial
  | .const _ => trivial
  | .letIn _ A a b => ⟨A.all_any, a.all_any, b.all_any⟩
  | .type _ => trivial
  | .pi _ A B => ⟨A.all_any, B.all_any⟩
  | .lam _ A b => ⟨A.all_any, b.all_any⟩
  | .app f a => ⟨f.all_any, a.all_any⟩
  | .former _ as => Term.alls_any as
  | .con _ as => Term.alls_any as
  | .elim t M ms => ⟨t.all_any, M.all_any, Term.alls_any ms⟩

theorem Term.alls_any : ∀ ts : List Term, Term.Alls .any ts
  | [] => trivial
  | t :: ts => ⟨t.all_any, Term.alls_any ts⟩

end

mutual

theorem Value.all_any : ∀ v : Value, v.All .any
  | .neutral m => m.all_any
  | .type _ => trivial
  | .pi d c => ⟨d.all_any, c.all_any⟩
  | .lam d c => ⟨d.all_any, c.all_any⟩
  | .former _ as => Value.alls_any as
  | .con _ as => Value.alls_any as

theorem Neutral.all_any : ∀ m : Neutral, m.All .any
  | .var _ _ => trivial
  | .const _ => trivial
  | .app f a => ⟨f.all_any, a.all_any⟩
  | .elim t M ms => ⟨t.all_any, M.all_any, Value.alls_any ms⟩

theorem Closure.all_any : ∀ c : Closure, c.All .any
  | .mk env _ body => ⟨Value.alls_any env, body.all_any⟩

theorem Value.alls_any : ∀ vs : List Value, Value.Alls .any vs
  | [] => trivial
  | v :: vs => ⟨v.all_any, Value.alls_any vs⟩

end

theorem Leaves.closed_any (S : Signature) : Leaves.any.Closed S := fun c _ => (S.unfold c).all_any

/-- **A computation that more fuel only mends has one result.** -/
theorem Mends.unique {f : Nat → Except ε α} {Q : ε → Prop}
    (h : ∀ {n m}, n ≤ m → Mends Q (f n) (f m)) {n m : Nat} {a b : α} (ha : f n = .ok a)
    (hb : f m = .ok b) : a = b := by
  obtain hnm | hmn := Nat.le_total n m
  · exact Except.ok.inj (((h hnm).eq_ok ha).symm.trans hb)
  · exact Except.ok.inj (ha.symm.trans ((h hmn).eq_ok hb))

theorem Value.telescope_unique {n m level : Nat} {limit : Option Nat} {ty : Value}
    {T T' : Telescope} (h : ty.telescope S n level limit = .ok T)
    (h' : ty.telescope S m level limit = .ok T') : T = T' :=
  Mends.unique (f := fun n => ty.telescope S n level limit) (fun hnm => Value.telescope_mends
    (.refl (· = .exhausted) (Leaves.closed_any S)) (fun _ => trivial) hnm (fun _ => rfl) ty.all_any)
    h h'

theorem Value.readBack_unique {n m level : Nat} {v : Value} {t t' : Term}
    (h : v.readBack S n level = .ok t) (h' : v.readBack S m level = .ok t') : t = t' :=
  Mends.unique (f := fun n => v.readBack S n level) (fun hnm => (readBack_mends
    (.refl (· = .exhausted) (Leaves.closed_any S)) (fun _ => trivial) hnm (fun _ => rfl)).1
    v.all_any) h h'

end Constructions
