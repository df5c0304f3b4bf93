/-
# Results that a larger signature keeps

A computation that succeeds in a signature has the same result in every signature that
declares more, for the same fuel or more (`Kept`).  This takes that everything in reach of
the computation is declared, so the fact goes along with the result: a kept value has only
declared constants.

| procedure | kept by |
| --- | --- |
| computing, reading back | `Term.eval_kept`, `Value.readBack_kept` |
| comparing | `Value.convert_kept` |
| opening a type | `Value.telescope_kept` |
| motives and methods | `motiveDomains_kept`, `motiveLevel?_kept`, `methodType_kept` |
-/

import Constructions.Proofs.Growth

namespace Constructions

variable {α β ε : Type}

/-- A result of the first outcome is the result of the second, and satisfies `P`. -/
def Kept (P : α → Prop) (r r' : Except ε α) : Prop := ∀ a, r = .ok a → r' = .ok a ∧ P a

namespace Kept

variable {P : α → Prop} {Q : β → Prop}

theorem ok {a : α} (h : P a) : Kept P (.ok a : Except ε α) (.ok a) := by
  rintro _ ⟨⟩
  exact ⟨rfl, h⟩

theorem error {e : ε} {r : Except ε α} : Kept P (.error e) r := fun _ h => nomatch h

theorem mono {R : α → Prop} {r r' : Except ε α} (h : Kept P r r') (hPR : ∀ a, P a → R a) :
    Kept R r r' := by
  intro a ha
  obtain ⟨hr, hP⟩ := h a ha
  exact ⟨hr, hPR a hP⟩

/-- Two sequences whose first results may differ. -/
theorem bind_of {γ : Type} {x : Except ε α} {x' : Except ε γ} {f : α → Except ε β}
    {f' : γ → Except ε β}
    (h : ∀ a, x = .ok a → ∃ a', x' = .ok a' ∧ Kept Q (f a) (f' a')) :
    Kept Q (x >>= f) (x' >>= f') := by
  intro b hb
  obtain ⟨a, ha, hb⟩ := bind_eq_ok.1 hb
  obtain ⟨a', ha', hf⟩ := h a ha
  obtain ⟨hb', hP⟩ := hf b hb
  exact ⟨bind_eq_ok.2 ⟨a', ha', hb'⟩, hP⟩

theorem bind {x x' : Except ε α} {f f' : α → Except ε β} (hx : Kept P x x')
    (hf : ∀ a, P a → Kept Q (f a) (f' a)) : Kept Q (x >>= f) (x' >>= f') := by
  refine bind_of fun a ha => ?_
  obtain ⟨ha', hP⟩ := hx a ha
  exact ⟨a, ha', hf a hP⟩

/-- A sequence that ends with an error. -/
theorem bind_error {x : Except ε α} {f : α → Except ε β} {r : Except ε β}
    (h : ∀ a b, f a ≠ .ok b) : Kept Q (x >>= f) r := by
  intro b hb
  obtain ⟨a, _, hb⟩ := bind_eq_ok.1 hb
  exact (h a b hb).elim

theorem mapM {f f' : α → Except ε β} {as : List α} (h : ∀ a ∈ as, Kept Q (f a) (f' a)) :
    Kept (fun bs => ∀ b ∈ bs, Q b) (as.mapM f) (as.mapM f') := by
  induction as with
  | nil => exact .ok (by simp)
  | cons a as ih =>
    rw [List.mapM_cons, List.mapM_cons]
    refine .bind (h a List.mem_cons_self) fun b hb => ?_
    refine .bind (ih fun x hx => h x (List.mem_cons_of_mem a hx)) fun bs hbs => ?_
    exact .ok (List.forall_mem_cons.2 ⟨hb, hbs⟩)

theorem foldlM {f f' : β → α → Except ε β} {as : List α} {b : β} (hb : Q b)
    (h : ∀ b, Q b → ∀ a ∈ as, Kept Q (f b a) (f' b a)) :
    Kept Q (as.foldlM f b) (as.foldlM f' b) := by
  induction as generalizing b with
  | nil => exact .ok hb
  | cons a as ih =>
    rw [List.foldlM_cons, List.foldlM_cons]
    refine .bind (h b hb a List.mem_cons_self) fun c hc => ih hc fun d hd x hx => ?_
    exact h d hd x (List.mem_cons_of_mem a hx)

theorem forM {f f' : α → Except ε PUnit} {as : List α}
    (h : ∀ a ∈ as, Kept (fun _ => P a) (f a) (f' a)) :
    Kept (fun _ => ∀ a ∈ as, P a) (as.forM f) (as.forM f') := by
  induction as with
  | nil => exact .ok (by simp)
  | cons a as ih =>
    refine .bind (h a List.mem_cons_self) fun _ ha => ?_
    refine (ih fun x hx => h x (List.mem_cons_of_mem a hx)).mono fun _ has => ?_
    exact List.forall_mem_cons.2 ⟨ha, has⟩

theorem liftM {r r' : Except Halt α} (h : Kept P r r') :
    Kept P (liftM r : Except (Stop ε) α) (liftM r') := by
  intro a ha
  obtain ⟨hr, hP⟩ := h a (liftM_eq_ok.1 ha)
  exact ⟨liftM_eq_ok.2 hr, hP⟩

theorem and {x x' y y' : Except Halt Bool} (hx : Kept (fun _ => True) x x')
    (hy : Kept (fun _ => True) y y') :
    Kept (fun _ => True) (do if ← x then y else .ok false) (do if ← x' then y' else .ok false) := by
  refine .bind hx fun b _ => ?_
  cases b with
  | true => exact hy
  | false => exact .ok trivial

end Kept

theorem Mends.kept {Q : ε → Prop} {P : α → Prop} {r r' : Except ε α} (h : Mends Q r r')
    (hP : ∀ a, r = .ok a → P a) : Kept P r r' := fun a e => ⟨h.eq_ok e, hP a e⟩

/-! ### Computing -/

theorem Mends.mono {Q Q' : ε → Prop} {r r' : Except ε α} (h : Mends Q r r')
    (hQ : ∀ e, Q e → Q' e) : Mends Q' r r' := by
  obtain ⟨e, he, hQe⟩ | h := h
  · exact .inl ⟨e, he, hQ e hQe⟩
  · exact .inr h

variable {Θ : Theory} {S S' : Signature}

namespace Signature

/-- Leaves whose constants are declared, also those that a value waits for. -/
def declared (S : Signature) : Leaves :=
  ⟨fun _ => True, fun c => ∃ g, S.global? c = some g, fun c => ∃ g, S.global? c = some g,
    fun _ => True⟩

theorem leaves_le_declared (S : Signature) : S.leaves.Le S.declared where
  level _ := trivial
  stuck := by
    rintro c ⟨g, hg, _⟩
    exact ⟨g, hg⟩
  name h := h
  univ _ := trivial

/-- **Signatures with more declarations agree** on what succeeds. -/
theorem Le.agrees_declared (hle : S.Le S') (h : Θ.Models S) :
    S.Agrees (fun _ => True) S.declared S' := by
  have ha := hle.agrees h
  refine ⟨fun c hc => (h.closed c hc).mono S.leaves_le_declared, ha.unfold,
    fun c => (ha.constructor c).mono fun _ _ => trivial, fun id => ?_⟩
  obtain hm | ⟨F, F', hF, hF', hd⟩ := ha.family id
  · exact .inl (hm.mono fun _ _ => trivial)
  · refine .inr ⟨F, F', hF, hF', ?_⟩
    obtain ⟨hn, _⟩ | hd := hd
    · exact .inl ⟨hn, fun _ => trivial⟩
    · exact .inr hd

end Signature

/-- What an opened type consists of. -/
structure Telescope.All (L : Leaves) (T : Telescope) : Prop where
  domains : Value.Alls L T.domains
  parameters : Value.Alls L T.parameters
  body : T.body.All L

section

variable (hM : Θ.Models S) (hle : S.Le S') {n m : Nat} (hnm : n ≤ m)

include hM hle hnm

theorem Term.eval_kept {env : Env} {t : Term} (henv : Value.Alls S.declared env)
    (ht : t.All S.declared) : Kept (Value.All S.declared) (t.eval S n env) (t.eval S' m env) := by
  have ha := hle.agrees_declared hM
  exact ((eval_mends ha hnm fun _ => trivial).1 henv ht).kept fun v e =>
    Term.eval_all ha.closed henv ht e

theorem Value.apply_kept {f a : Value} (hf : f.All S.declared) (ha : a.All S.declared) :
    Kept (Value.All S.declared) (f.apply S n a) (f.apply S' m a) := by
  have hag := hle.agrees_declared hM
  exact ((eval_mends hag hnm fun _ => trivial).2.1 hf ha).kept fun v e =>
    Value.apply_all hag.closed hf ha e

theorem Value.applyAll_kept {f : Value} {as : List Value} (hf : f.All S.declared)
    (has : Value.Alls S.declared as) :
    Kept (Value.All S.declared) (f.applyAll S n as) (f.applyAll S' m as) :=
  .foldlM hf fun _ hg a ha => Value.apply_kept hM hle hnm hg (Value.alls_iff.1 has a ha)

theorem Closure.instantiate_kept {c : Closure} {a : Value} (hc : c.All S.declared)
    (ha : a.All S.declared) :
    Kept (Value.All S.declared) (c.instantiate S n a) (c.instantiate S' m a) := by
  obtain ⟨env, label, body⟩ := c
  exact Term.eval_kept hM hle hnm (.cons ha hc.1) hc.2

theorem Closure.enter_kept {c : Closure} (hc : c.All S.declared) (level : Nat) :
    Kept (Value.All S.declared) (c.enter S n level) (c.enter S' m level) :=
  Closure.instantiate_kept hM hle hnm (a := c.parameter level) hc trivial

theorem Value.readBack_kept {v : Value} (hv : v.All S.declared) (level : Nat) :
    Kept (Term.All S.declared) (v.readBack S n level) (v.readBack S' m level) := by
  have ha := hle.agrees_declared hM
  exact ((readBack_mends ha (fun _ => trivial) hnm fun _ => trivial).1 hv).kept fun t e =>
    Value.readBack_all ha.closed (fun _ h => h) hv e

/-- **Instantiating the binders of a type is kept.** -/
theorem Value.instantiate_kept {ty : Value} {as : List Value} (hty : ty.All S.declared)
    (has : Value.Alls S.declared as) :
    Kept (Value.All S.declared) (ty.instantiate S n as) (ty.instantiate S' m as) := by
  refine .foldlM hty fun ty hty a ha => ?_
  cases ty with
  | pi d c => exact Closure.instantiate_kept hM hle hnm hty.2 (Value.alls_iff.1 has a ha)
  | neutral | type | lam | former | con => exact .error

/-- **Opening a type is kept.** -/
theorem Value.telescope_kept {ty : Value} (hty : ty.All S.declared) (level : Nat)
    (limit : Option Nat) :
    Kept (Telescope.All S.declared) (ty.telescope S n level limit)
      (ty.telescope S' m level limit) := by
  induction n generalizing m level limit ty with
  | zero => exact .error
  | succ n ih =>
    obtain ⟨m, rfl⟩ : ∃ k, m = k + 1 := ⟨m - 1, by omega⟩
    have hnm := Nat.le_of_succ_le_succ hnm
    by_cases hstop : limit ≠ some 0 → ∀ d c, ty ≠ .pi d c
    · rw [telescope_stop S n level hstop, telescope_stop S' m level hstop]
      exact .ok ⟨trivial, trivial, hty⟩
    simp only [not_forall, not_not] at hstop
    obtain ⟨hlimit, d, c, rfl⟩ := hstop
    rw [telescope_pi S n level hlimit, telescope_pi S' m level hlimit]
    refine .bind (Closure.enter_kept hM hle hnm hty.2 level) fun body hb => ?_
    refine .bind (ih hnm hb (level + 1) (limit.map (· - 1))) fun rest hrest => ?_
    exact .ok ⟨⟨hty.1, hrest.domains⟩, ⟨trivial, hrest.parameters⟩, hrest.body⟩

/-! ### Comparing -/

omit hM hnm in
theorem Value.applicable_kept (v : Value) :
    Kept (fun _ => True) (v.applicable S) (v.applicable S') := by
  cases v with
  | former id as =>
    refine .bind_of fun F hF => ?_
    obtain ⟨state, hF', _⟩ := hle.family (orDangling_eq_ok.1 hF)
    exact ⟨_, orDangling_eq_ok.2 hF', .ok trivial⟩
  | con c as =>
    refine .bind_of fun K hK => ?_
    exact ⟨K, orDangling_eq_ok.2 (hle.constructor (orDangling_eq_ok.1 hK)), .ok trivial⟩
  | neutral | type | pi | lam => exact .ok trivial

omit hM hle hnm in
theorem convertList_kept {compare compare' : Value → Value → Except Halt Bool}
    {as bs : List Value} (has : Value.Alls S.declared as) (hbs : Value.Alls S.declared bs)
    (h : ∀ {a b : Value}, a.All S.declared → b.All S.declared →
      Kept (fun _ => True) (compare a b) (compare' a b)) :
    Kept (fun _ => True) (convertList compare as bs) (convertList compare' as bs) := by
  unfold convertList
  split
  · next hl =>
    clear hl
    induction as generalizing bs with
    | nil => exact .ok trivial
    | cons a as ih =>
      cases bs with
      | nil => exact .ok trivial
      | cons b bs => exact .and (h has.1 hbs.1) (ih has.2 hbs.2)
  · exact .ok trivial

/-- **Comparing values is kept.** -/
theorem convert_kept :
    (∀ {level : Nat} {l r : Value}, l.All S.declared → r.All S.declared →
      Kept (fun _ => True) (l.convert S n level r) (l.convert S' m level r)) ∧
    (∀ {level : Nat} {l r : Neutral}, l.All S.declared → r.All S.declared →
      Kept (fun _ => True) (l.convert S n level r) (l.convert S' m level r)) := by
  induction n generalizing m with
  | zero => exact ⟨fun _ _ => .error, fun _ _ => .error⟩
  | succ n ih =>
    obtain ⟨m, rfl⟩ : ∃ k, m = k + 1 := ⟨m - 1, by omega⟩
    have hnm := Nat.le_of_succ_le_succ hnm
    obtain ⟨ihv, ihm⟩ := ih hnm
    -- Two binders are compared below one fresh variable.
    have hbody {level : Nat} {c c' : Closure} (hc : c.All S.declared) (hc' : c'.All S.declared) :
        Kept (fun _ => True)
          (do
            let v ← c.enter S n level
            let v' ← c'.enter S n level
            v.convert S n (level + 1) v')
          (do
            let v ← c.enter S' m level
            let v' ← c'.enter S' m level
            v.convert S' m (level + 1) v') :=
      .bind (Closure.enter_kept hM hle hnm hc level) fun _ hv =>
        .bind (Closure.enter_kept hM hle hnm hc' level) fun _ hv' => ihv hv hv'
    -- A function is compared with another value below its own variable.
    have heta {level : Nat} {c : Closure} {r : Value} (hc : c.All S.declared)
        (hr : r.All S.declared) :
        Kept (fun _ => True)
          (do
            if ← r.applicable S then
              let v ← c.enter S n level
              let v' ← Value.apply S n r (c.parameter level)
              v.convert S n (level + 1) v'
            else .ok false)
          (do
            if ← r.applicable S' then
              let v ← c.enter S' m level
              let v' ← Value.apply S' m r (c.parameter level)
              v.convert S' m (level + 1) v'
            else .ok false) :=
      .and (Value.applicable_kept hle r) (.bind (Closure.enter_kept hM hle hnm hc level)
        fun _ hv => .bind (Value.apply_kept hM hle hnm hr (a := c.parameter level) trivial)
          fun _ hv' => ihv hv hv')
    refine ⟨?_, ?_⟩
    · intro level l r hl hr
      cases l with
      | neutral k =>
        cases r with
        | neutral k' => exact ihm hl hr
        | lam d c => exact heta hr.2 hl
        | type | pi | former | con => exact .ok trivial
      | type u =>
        cases r with
        | lam d c => exact heta hr.2 hl
        | neutral | type | pi | former | con => exact .ok trivial
      | pi d c =>
        cases r with
        | pi d' c' => exact .and (ihv hl.1 hr.1) (hbody hl.2 hr.2)
        | lam d' c' => exact heta hr.2 hl
        | neutral | type | former | con => exact .ok trivial
      | lam d c =>
        cases r with
        | lam d' c' => exact .and (ihv hl.1 hr.1) (hbody hl.2 hr.2)
        | neutral | type | pi | former | con => exact heta hl.2 hr
      | former F as =>
        cases r with
        | former F' bs =>
          rw [Value.convert, Value.convert]
          split
          · exact convertList_kept hl hr fun ha hb => ihv ha hb
          · exact .ok trivial
        | lam d c => exact heta hr.2 hl
        | neutral | type | pi | con => exact .ok trivial
      | con K as =>
        cases r with
        | con K' bs =>
          rw [Value.convert, Value.convert]
          split
          · exact convertList_kept hl hr fun ha hb => ihv ha hb
          · exact .ok trivial
        | lam d c => exact heta hr.2 hl
        | neutral | type | pi | former => exact .ok trivial
    · intro level l r hl hr
      cases l with
      | var label i =>
        cases r with
        | var | const | app | elim => exact .ok trivial
      | const c =>
        cases r with
        | var | const | app | elim => exact .ok trivial
      | app f a =>
        cases r with
        | app g b => exact .and (ihm hl.1 hr.1) (ihv hl.2 hr.2)
        | var | const | elim => exact .ok trivial
      | elim t M ms =>
        cases r with
        | elim t' M' ms' =>
          exact .and (ihm hl.1 hr.1) (.and (ihv hl.2.1 hr.2.1)
            (convertList_kept hl.2.2 hr.2.2 fun ha hb => ihv ha hb))
        | var | const | app => exact .ok trivial

theorem Value.convert_kept {level : Nat} {l r : Value} (hl : l.All S.declared)
    (hr : r.All S.declared) :
    Kept (fun _ => True) (l.convert S n level r) (l.convert S' m level r) :=
  (Constructions.convert_kept hM hle hnm).1 hl hr

theorem convertDomains_kept {level : Nat} {ds es : List Value} (hds : Value.Alls S.declared ds)
    (hes : Value.Alls S.declared es) :
    Kept (fun _ => True) (convertDomains S n level ds es) (convertDomains S' m level ds es) := by
  induction ds generalizing level es with
  | nil => exact .ok trivial
  | cons d ds ih =>
    cases es with
    | nil => exact .ok trivial
    | cons e es => exact .and (Value.convert_kept hM hle hnm hds.1 hes.1) (ih hds.2 hes.2)

/-! ### Motives and methods -/

theorem motiveDomains_kept {F F' : Family} (hF : F.type.All S.declared) (hid : F'.id = F.id)
    (htype : F'.type = F.type) {ps : List Value} (hps : Value.Alls S.declared ps) (level : Nat) :
    Kept (Value.Alls S.declared) (motiveDomains S n level F ps)
      (motiveDomains S' m level F' ps) := by
  rw [motiveDomains, motiveDomains, hid, htype]
  refine .bind (Value.instantiate_kept hM hle hnm hF hps) fun ty hty => ?_
  refine .bind (Value.telescope_kept hM hle hnm hty level none) fun T hT => .ok ?_
  exact Value.alls_append.2 ⟨hT.domains, Value.alls_append.2 ⟨hps, hT.parameters⟩, trivial⟩

theorem motiveLevel?_kept {ds : List Value} {ty : Value} (hds : Value.Alls S.declared ds)
    (hty : ty.All S.declared) (level : Nat) :
    Kept (fun _ => True) (motiveLevel? S n level ds ty) (motiveLevel? S' m level ds ty) := by
  refine .bind (Value.telescope_kept hM hle hnm hty level _) fun T hT => ?_
  split
  · refine .bind (convertDomains_kept hM hle hnm hT.domains hds) fun b _ => ?_
    cases b with
    | true =>
      rw [if_pos rfl]
      split
      · exact .ok trivial
      · exact .ok trivial
    | false => exact .ok trivial
  · exact .ok trivial

theorem motiveAt_kept {motive ty element : Value} (hmot : motive.All S.declared)
    (hty : ty.All S.declared) (hel : element.All S.declared) (k : Nat) :
    Kept (Value.All S.declared) (motiveAt S n k motive ty element)
      (motiveAt S' m k motive ty element) := by
  refine .bind (P := Value.Alls S.declared) ?_ fun is his => ?_
  · cases ty with
    | former id as =>
      rw [Value.indices]
      split
      · refine .ok (Value.alls_iff.2 fun a ha => ?_)
        exact Value.alls_iff.1 hty a (List.mem_of_mem_drop ha)
      · exact .error
    | neutral | type | pi | lam | con => exact .ok trivial
  · exact Value.applyAll_kept hM hle hnm hmot (Value.alls_append.2 ⟨his, hel, trivial⟩)

theorem readBackPis_kept {binders : List (Label × Value)} {body body' : Except Halt Term}
    (hb : ∀ b ∈ binders, b.2.All S.declared) (hbody : Kept (Term.All S.declared) body body')
    (level : Nat) :
    Kept (Term.All S.declared) (readBackPis S n level binders body)
      (readBackPis S' m level binders body') := by
  induction binders generalizing level with
  | nil => exact hbody
  | cons b binders ih =>
    obtain ⟨label, d⟩ := b
    rw [List.forall_mem_cons] at hb
    refine .bind (ih hb.2 (level + 1)) fun t ht => ?_
    exact .bind (Value.readBack_kept hM hle hnm hb.1 level) fun u hu => .ok ⟨hu, ht⟩

/-- **The type of a method is kept.** -/
theorem methodType_kept {K : Constructor} (hK : K.type.All S.declared) {env : Env}
    (henv : Value.Alls S.declared env) {ps : List Value} (hps : Value.Alls S.declared ps)
    {motive : Value} (hmot : motive.All S.declared) (level : Nat) :
    Kept (Value.All S.declared) (methodType S n level env K ps motive)
      (methodType S' m level env K ps motive) := by
  refine .bind (Value.instantiate_kept hM hle hnm hK hps) fun ty hty => ?_
  refine .bind (Value.telescope_kept hM hle hnm hty level _) fun T hT => ?_
  have hdomain {b : OpenedBinder} (hb : b ∈ T.binders) : b.domain.All S.declared :=
    Value.alls_iff.1 hT.domains _ (List.mem_map_of_mem hb)
  have hparameter {b : OpenedBinder} (hb : b ∈ T.binders) : b.parameter.All S.declared :=
    Value.alls_iff.1 hT.parameters _ (List.mem_map_of_mem hb)
  refine .bind (.mapM (Q := Value.All S.declared) fun i _ => ?_) fun hs hhs => ?_
  · refine .bind_of fun b hb => ⟨b, hb, ?_⟩
    have hb := List.mem_of_getElem? (orDangling_eq_ok.1 hb)
    exact motiveAt_kept hM hle hnm hmot (hdomain hb) (hparameter hb) _
  have hcon : (Value.con K.id (ps ++ T.parameters)).All S.declared :=
    Value.alls_append.2 ⟨hps, hT.parameters⟩
  refine .bind (motiveAt_kept hM hle hnm hmot hT.body hcon _) fun result hr => ?_
  refine .bind (readBackPis_kept hM hle hnm ?_ (Value.readBack_kept hM hle hnm hr _) level)
    fun t ht => Term.eval_kept hM hle hnm henv ht
  intro x hx
  obtain hx | hx := List.mem_append.1 hx
  · obtain ⟨b, hb, rfl⟩ := List.mem_map.1 hx
    exact hdomain hb
  · obtain ⟨v, hv, rfl⟩ := List.mem_map.1 hx
    exact hhs v hv

end

end Constructions
