/-
# Computing does not look at levels

The variables of a value are levels, and computing only carries them along.  So values that are
built alike, with related levels at corresponding places, compute to values that are built alike
(`eval_related`).  The relation also asks that the families and constructors that occur are
declared, in the bodies of closures as well.

| relation of levels | related values |
| --- | --- |
| `l < n` and `l' = l` | a value of a scope of `n` variables, and itself |
| `l' = l`, or `l' = l + 1` from some level on | a value, and itself with one more variable in scope |

The first line is a property of one value, `Value.InScope`; that computing keeps it is the
diagonal of the same induction.
-/

import Constructions.Proofs.Normalization

namespace Constructions

/-! ### Related outcomes -/

section

variable {α β γ δ ε : Type}

/-- Each result of the first outcome is related to a result of the second. -/
def Simulates (R : α → β → Prop) (x : Except ε α) (x' : Except ε β) : Prop :=
  ∀ a, x = .ok a → ∃ a', x' = .ok a' ∧ R a a'

namespace Simulates

variable {R : α → β → Prop} {Q : γ → δ → Prop}

theorem ok {a : α} {b : β} (h : R a b) : Simulates R (.ok a : Except ε α) (.ok b) := by
  rintro _ ⟨⟩
  exact ⟨b, rfl, h⟩

theorem error {e : ε} {x' : Except ε β} : Simulates R (.error e) x' := by
  rintro _ ⟨⟩

theorem bind {x : Except ε α} {x' : Except ε β} {f : α → Except ε γ} {f' : β → Except ε δ}
    (hx : Simulates R x x') (hf : ∀ a a', R a a' → Simulates Q (f a) (f' a')) :
    Simulates Q (x >>= f) (x' >>= f') := by
  intro c hc
  obtain ⟨a, ha, hc⟩ := bind_eq_ok.1 hc
  obtain ⟨a', ha', hR⟩ := hx a ha
  obtain ⟨c', hc', hQ⟩ := hf a a' hR c hc
  exact ⟨c', bind_eq_ok.2 ⟨a', ha', hc'⟩, hQ⟩

/-- Two sequences that begin alike. -/
theorem bind_same {x : Except ε α} {f : α → Except ε γ} {f' : α → Except ε δ}
    (hf : ∀ a, Simulates Q (f a) (f' a)) : Simulates Q (x >>= f) (x >>= f') := by
  refine bind (R := Eq) (fun a ha => ⟨a, ha, rfl⟩) ?_
  rintro a _ rfl
  exact hf a

theorem mapM {f : α → Except ε γ} {f' : β → Except ε δ} {as : List α} {bs : List β}
    (h : List.Forall₂ (fun a b => Simulates Q (f a) (f' b)) as bs) :
    Simulates (List.Forall₂ Q) (as.mapM f) (bs.mapM f') := by
  induction h with
  | nil => exact .ok .nil
  | cons hab _ ih =>
    rw [List.mapM_cons, List.mapM_cons]
    refine .bind hab fun c c' hc => .bind ih fun cs cs' hcs => ?_
    exact .ok (.cons hc hcs)

theorem foldlM {f : γ → α → Except ε γ} {f' : δ → β → Except ε δ}
    (h : ∀ c c' a b, Q c c' → R a b → Simulates Q (f c a) (f' c' b)) {as : List α} {bs : List β}
    (has : List.Forall₂ R as bs) {c : γ} {c' : δ} (hc : Q c c') :
    Simulates Q (as.foldlM f c) (bs.foldlM f' c') := by
  induction has generalizing c c' with
  | nil => exact .ok hc
  | cons hab _ ih =>
    rw [List.foldlM_cons, List.foldlM_cons]
    exact .bind (h _ _ _ _ hc hab) fun d d' hd => ih hd

theorem liftM {x : Except Halt α} {x' : Except Halt β} (h : Simulates R x x') :
    Simulates R (liftM x : Except (Stop ε) α) (liftM x') := by
  intro a ha
  obtain ⟨a', ha', hR⟩ := h a (liftM_eq_ok.1 ha)
  exact ⟨a', liftM_eq_ok.2 ha', hR⟩

theorem mapError {ε' : Type} {f : ε → ε'} {x : Except ε α} {x' : Except ε β}
    (h : Simulates R x x') : Simulates R (x.mapError f) (x'.mapError f) := by
  intro a ha
  obtain ⟨a', ha', hR⟩ := h a (mapError_eq_ok.1 ha)
  exact ⟨a', mapError_eq_ok.2 ha', hR⟩

theorem getElem? {as : List α} {bs : List β} (h : List.Forall₂ R as bs) (i : Nat) :
    Simulates R (orDangling as[i]?) (orDangling bs[i]?) := by
  intro a ha
  obtain ⟨b, hb, hR⟩ := forall₂_getElem? h (orDangling_eq_ok.1 ha)
  exact ⟨b, orDangling_eq_ok.2 hb, hR⟩

end Simulates

end

/-! ### Related values -/

mutual

/-- All families and constructors of a term are declared. -/
def Term.Declared (S : Signature) : Term → Prop
  | .var _ _ => True
  | .const _ => True
  | .letIn _ A a b => A.Declared S ∧ a.Declared S ∧ b.Declared S
  | .type _ => True
  | .pi _ A B => A.Declared S ∧ B.Declared S
  | .lam _ A b => A.Declared S ∧ b.Declared S
  | .app f a => f.Declared S ∧ a.Declared S
  | .former F as => (∃ D, S.family? F = some D) ∧ Term.Declareds S as
  | .con c as => (∃ K, S.constructor? c = some K) ∧ Term.Declareds S as
  | .elim t M ms => t.Declared S ∧ M.Declared S ∧ Term.Declareds S ms

/-- All families and constructors of terms are declared. -/
def Term.Declareds (S : Signature) : List Term → Prop
  | [] => True
  | t :: ts => t.Declared S ∧ Term.Declareds S ts

end

theorem Term.declareds_iff {S : Signature} {ts : List Term} :
    Term.Declareds S ts ↔ ∀ t ∈ ts, t.Declared S := by
  induction ts with
  | nil => simp [Term.Declareds]
  | cons t ts ih => rw [Term.Declareds, ih, List.forall_mem_cons]

mutual

/-- Two values are built alike, from declared families and constructors, with related levels at
corresponding places. -/
inductive Value.Related (S : Signature) (ρ : Nat → Nat → Prop) : Value → Value → Prop where
  | neutral {m m' : Neutral} : m.Related S ρ m' → Value.Related S ρ (.neutral m) (.neutral m')
  | type (l : UInt64) : Value.Related S ρ (.type l) (.type l)
  | pi {d d' : Value} {c c' : Closure} :
      Value.Related S ρ d d' → c.Related S ρ c' → Value.Related S ρ (.pi d c) (.pi d' c')
  | lam {d d' : Value} {c c' : Closure} :
      Value.Related S ρ d d' → c.Related S ρ c' → Value.Related S ρ (.lam d c) (.lam d' c')
  | former {F : FamilyId} {D : Family} {as as' : List Value} :
      S.family? F = some D → List.Forall₂ (Value.Related S ρ) as as' →
      Value.Related S ρ (.former F as) (.former F as')
  | con {c : ConstructorId} {K : Constructor} {as as' : List Value} :
      S.constructor? c = some K → List.Forall₂ (Value.Related S ρ) as as' →
      Value.Related S ρ (.con c as) (.con c as')

/-- Two neutral values are built alike, with related levels at corresponding places. -/
inductive Neutral.Related (S : Signature) (ρ : Nat → Nat → Prop) : Neutral → Neutral → Prop where
  | var {l l' : Nat} (label : Label) : ρ l l' → Neutral.Related S ρ (.var label l) (.var label l')
  | const (c : Name) : Neutral.Related S ρ (.const c) (.const c)
  | app {f f' : Neutral} {a a' : Value} :
      f.Related S ρ f' → a.Related S ρ a' → Neutral.Related S ρ (.app f a) (.app f' a')
  | elim {t t' : Neutral} {M M' : Value} {ms ms' : List Value} :
      t.Related S ρ t' → M.Related S ρ M' → List.Forall₂ (Value.Related S ρ) ms ms' →
      Neutral.Related S ρ (.elim t M ms) (.elim t' M' ms')

/-- Two closures have one body, in related environments. -/
inductive Closure.Related (S : Signature) (ρ : Nat → Nat → Prop) : Closure → Closure → Prop where
  | mk {env env' : List Value} {body : Term} (label : Label) :
      List.Forall₂ (Value.Related S ρ) env env' → body.Declared S →
      Closure.Related S ρ (.mk env label body) (.mk env' label body)

end

variable {S S' : Signature} {ρ : Nat → Nat → Prop}

/-- What a constant computes to holds no variables and only declared families and constructors. -/
def Signature.Defines (S : Signature) (ρ : Nat → Nat → Prop) : Prop :=
  ∀ c, (S.unfold c).Related S ρ (S.unfold c)

/-- **Related values compute to related values.** -/
theorem eval_related (hS : S.Defines ρ) (n : Nat) :
    (∀ {env env' : Env} {t : Term}, List.Forall₂ (Value.Related S ρ) env env' → t.Declared S →
      Simulates (Value.Related S ρ) (t.eval S n env) (t.eval S n env')) ∧
    (∀ {f f' a a' : Value}, f.Related S ρ f' → a.Related S ρ a' →
      Simulates (Value.Related S ρ) (f.apply S n a) (f'.apply S n a')) ∧
    (∀ {M M' t t' : Value} {ms ms' : List Value}, M.Related S ρ M' →
      List.Forall₂ (Value.Related S ρ) ms ms' → t.Related S ρ t' →
      Simulates (Value.Related S ρ) (Value.eliminate S n M ms t)
        (Value.eliminate S n M' ms' t')) := by
  induction n with
  | zero => exact ⟨fun _ _ => .error, fun _ _ => .error, fun _ _ _ => .error⟩
  | succ n ih =>
    obtain ⟨ihe, iha, ihm⟩ := ih
    have ihes {env env' : Env} {ts : List Term} (henv : List.Forall₂ (Value.Related S ρ) env env')
        (hts : Term.Declareds S ts) : Simulates (List.Forall₂ (Value.Related S ρ))
          (ts.mapM fun t => t.eval S n env) (ts.mapM fun t => t.eval S n env') :=
      .mapM (List.forall₂_same.2 fun t ht => ihe henv (Term.declareds_iff.1 hts t ht))
    refine ⟨?_, ?_, ?_⟩
    · intro env env' t henv ht
      cases t with
      | var label i => exact .getElem? henv i
      | const c => exact .ok (hS c)
      | letIn label A a b =>
        exact .bind (ihe henv ht.2.1) fun v v' hv => ihe (.cons hv henv) ht.2.2
      | type l => exact .ok (.type l)
      | pi label A B =>
        exact .bind (ihe henv ht.1) fun d d' hd => .ok (.pi hd (.mk label henv ht.2))
      | lam label A b =>
        exact .bind (ihe henv ht.1) fun d d' hd => .ok (.lam hd (.mk label henv ht.2))
      | app f a =>
        exact .bind (ihe henv ht.1) fun g g' hg => .bind (ihe henv ht.2) fun v v' hv => iha hg hv
      | former F as =>
        obtain ⟨D, hD⟩ := ht.1
        exact .bind (ihes henv ht.2) fun vs vs' hvs => .ok (.former hD hvs)
      | con c as =>
        obtain ⟨K, hK⟩ := ht.1
        exact .bind (ihes henv ht.2) fun vs vs' hvs => .ok (.con hK hvs)
      | elim t M ms =>
        refine .bind (ihe henv ht.1) fun v v' hv => .bind (ihe henv ht.2.1) fun N N' hN =>
          .bind (ihes henv ht.2.2) fun ns ns' hns => .mapError ?_
        exact ihm hN hns hv
    · intro f f' a a' hf ha
      cases hf with
      | neutral hm => exact .ok (.neutral (.app hm ha))
      | type l => exact .error
      | pi => exact .error
      | lam _ hc =>
        obtain ⟨label, henv, hbody⟩ := hc
        exact ihe (.cons ha henv) hbody
      | former hD has => exact .ok (.former hD (List.rel_append has (.cons ha .nil)))
      | con hK has => exact .ok (.con hK (List.rel_append has (.cons ha .nil)))
    · intro M M' t t' ms ms' hM hms ht
      cases ht with
      | neutral hm => exact .ok (.neutral (.elim hm hM hms))
      | type l => exact .error
      | pi => exact .error
      | lam => exact .error
      | former => exact .error
      | @con c _ as as' _ has =>
        rw [Value.eliminate, Value.eliminate, has.length_eq]
        refine .bind_same fun K => ?_
        split
        · exact .error
        refine .bind_same fun F => ?_
        cases F.dispatch? with
        | none => exact .error
        | some table =>
          -- Both targets are built by one constructor, so both select the method at one place.
          dsimp only [Dispatch.select?]
          cases hi : table.positions.lookup c with
          | none => exact .error
          | some i =>
            rw [Option.bind_some, Option.bind_some]
            cases hm : ms[i]? with
            | none => exact .error
            | some m =>
              obtain ⟨m', hm', hmm⟩ := forall₂_getElem? hms hm
              rw [hm']
              refine .bind (R := List.Forall₂ (Value.Related S ρ))
                (.mapM (List.forall₂_same.2 fun j _ => ?_)) fun rs rs' hrs => ?_
              · exact .bind (.liftM (.getElem? has j)) fun a a' ha => ihm hM hms ha
              · refine .foldlM (fun f f' a a' hf ha => ?_)
                  (List.rel_append (List.forall₂_drop _ has) hrs) hmm
                exact .liftM (iha hf ha)

/-- **A closure and a related one are entered alike**, each at its own level. -/
theorem Closure.enter_related (hS : S.Defines ρ) {c c' : Closure} (hc : c.Related S ρ c')
    {level level' : Nat} (hl : ρ level level') (n : Nat) :
    Simulates (Value.Related S ρ) (c.enter S n level) (c'.enter S n level') := by
  obtain ⟨label, henv, hbody⟩ := hc
  exact (eval_related hS n).1 (.cons (.neutral (.var label hl)) henv) hbody

/-! ### Values of a scope -/

mutual

/-- The variables of a value are the first `n`, and its families and constructors are declared;
also those of the environments and bodies of its closures. -/
def Value.InScope (S : Signature) (n : Nat) : Value → Prop
  | .neutral m => m.InScope S n
  | .type _ => True
  | .pi d c => d.InScope S n ∧ c.InScope S n
  | .lam d c => d.InScope S n ∧ c.InScope S n
  | .former F as => (∃ D, S.family? F = some D) ∧ Value.AllInScope S n as
  | .con c as => (∃ K, S.constructor? c = some K) ∧ Value.AllInScope S n as

/-- The same for a neutral value. -/
def Neutral.InScope (S : Signature) (n : Nat) : Neutral → Prop
  | .var _ l => l < n
  | .const _ => True
  | .app f a => f.InScope S n ∧ a.InScope S n
  | .elim t M ms => t.InScope S n ∧ M.InScope S n ∧ Value.AllInScope S n ms

/-- The same for a closure. -/
def Closure.InScope (S : Signature) (n : Nat) : Closure → Prop
  | .mk env _ body => Value.AllInScope S n env ∧ body.Declared S

/-- The same for a list of values. -/
def Value.AllInScope (S : Signature) (n : Nat) : List Value → Prop
  | [] => True
  | v :: vs => v.InScope S n ∧ Value.AllInScope S n vs

end

mutual

/-- **A value of a scope is related to itself** by each relation that keeps the levels of the
scope. -/
theorem Value.InScope.related {n : Nat} (hρ : ∀ l, l < n → ρ l l) :
    ∀ {v : Value}, v.InScope S n → v.Related S ρ v
  | .neutral _, hm => .neutral (Neutral.InScope.related hρ hm)
  | .type l, _ => .type l
  | .pi _ _, ⟨hd, hc⟩ => .pi (Value.InScope.related hρ hd) (Closure.InScope.related hρ hc)
  | .lam _ _, ⟨hd, hc⟩ => .lam (Value.InScope.related hρ hd) (Closure.InScope.related hρ hc)
  | .former _ _, ⟨⟨_, hD⟩, has⟩ => .former hD (Value.AllInScope.related hρ has)
  | .con _ _, ⟨⟨_, hK⟩, has⟩ => .con hK (Value.AllInScope.related hρ has)

theorem Neutral.InScope.related {n : Nat} (hρ : ∀ l, l < n → ρ l l) :
    ∀ {m : Neutral}, m.InScope S n → m.Related S ρ m
  | .var label l, hl => .var label (hρ l hl)
  | .const c, _ => .const c
  | .app _ _, ⟨hf, ha⟩ => .app (Neutral.InScope.related hρ hf) (Value.InScope.related hρ ha)
  | .elim _ _ _, ⟨ht, hM, hms⟩ =>
    .elim (Neutral.InScope.related hρ ht) (Value.InScope.related hρ hM)
      (Value.AllInScope.related hρ hms)

theorem Closure.InScope.related {n : Nat} (hρ : ∀ l, l < n → ρ l l) :
    ∀ {c : Closure}, c.InScope S n → c.Related S ρ c
  | .mk _ label _, ⟨henv, hbody⟩ => .mk label (Value.AllInScope.related hρ henv) hbody

theorem Value.AllInScope.related {n : Nat} (hρ : ∀ l, l < n → ρ l l) :
    ∀ {vs : List Value}, Value.AllInScope S n vs → List.Forall₂ (Value.Related S ρ) vs vs
  | [], _ => .nil
  | _ :: _, ⟨hv, hvs⟩ => .cons (Value.InScope.related hρ hv) (Value.AllInScope.related hρ hvs)

end

mutual

/-- **Only values of a scope are related**, if only levels of the scope are. -/
theorem Value.Related.inScope {n : Nat} (hρ : ∀ l l', ρ l l' → l < n) :
    ∀ {v v' : Value}, v.Related S ρ v' → v.InScope S n
  | .neutral _, _, .neutral hm => hm.inScope hρ
  | .type _, _, .type _ => trivial
  | .pi _ _, _, .pi hd hc => ⟨hd.inScope hρ, hc.inScope hρ⟩
  | .lam _ _, _, .lam hd hc => ⟨hd.inScope hρ, hc.inScope hρ⟩
  | .former _ _, _, .former hD has => ⟨⟨_, hD⟩, Value.allInScope_of_related hρ has⟩
  | .con _ _, _, .con hK has => ⟨⟨_, hK⟩, Value.allInScope_of_related hρ has⟩

theorem Neutral.Related.inScope {n : Nat} (hρ : ∀ l l', ρ l l' → l < n) :
    ∀ {m m' : Neutral}, m.Related S ρ m' → m.InScope S n
  | .var _ _, _, .var _ hl => hρ _ _ hl
  | .const _, _, .const _ => trivial
  | .app _ _, _, .app hf ha => ⟨hf.inScope hρ, ha.inScope hρ⟩
  | .elim _ _ _, _, .elim ht hM hms =>
    ⟨ht.inScope hρ, hM.inScope hρ, Value.allInScope_of_related hρ hms⟩

theorem Closure.Related.inScope {n : Nat} (hρ : ∀ l l', ρ l l' → l < n) :
    ∀ {c c' : Closure}, c.Related S ρ c' → c.InScope S n
  | .mk _ _ _, _, .mk _ henv hbody => ⟨Value.allInScope_of_related hρ henv, hbody⟩

theorem Value.allInScope_of_related {n : Nat} (hρ : ∀ l l', ρ l l' → l < n) :
    ∀ {vs vs' : List Value}, List.Forall₂ (Value.Related S ρ) vs vs' → Value.AllInScope S n vs
  | [], _, .nil => trivial
  | _ :: _, _, .cons hv hvs => ⟨hv.inScope hρ, Value.allInScope_of_related hρ hvs⟩

end

/-- The first `n` levels, each related to itself. -/
def upTo (n l l' : Nat) : Prop := l' = l ∧ l < n

/-! ### Definitions -/

theorem Signature.Le.exists_family (h : S.Le S') {F : FamilyId}
    (hF : ∃ D, S.family? F = some D) : ∃ D, S'.family? F = some D := by
  obtain ⟨D, hD⟩ := hF
  obtain ⟨state, hD', _⟩ := h.family hD
  exact ⟨_, hD'⟩

mutual

theorem Term.Declared.mono (h : S.Le S') : ∀ {t : Term}, t.Declared S → t.Declared S'
  | .var _ _, _ => trivial
  | .const _, _ => trivial
  | .letIn _ _ _ _, ⟨hA, ha, hb⟩ => ⟨hA.mono h, ha.mono h, hb.mono h⟩
  | .type _, _ => trivial
  | .pi _ _ _, ⟨hA, hB⟩ => ⟨hA.mono h, hB.mono h⟩
  | .lam _ _ _, ⟨hA, hb⟩ => ⟨hA.mono h, hb.mono h⟩
  | .app _ _, ⟨hf, ha⟩ => ⟨hf.mono h, ha.mono h⟩
  | .former _ _, ⟨hF, has⟩ => ⟨h.exists_family hF, Term.Declareds.mono h has⟩
  | .con _ _, ⟨⟨K, hK⟩, has⟩ => ⟨⟨K, h.constructor hK⟩, Term.Declareds.mono h has⟩
  | .elim _ _ _, ⟨ht, hM, hms⟩ => ⟨ht.mono h, hM.mono h, Term.Declareds.mono h hms⟩

theorem Term.Declareds.mono (h : S.Le S') :
    ∀ {ts : List Term}, Term.Declareds S ts → Term.Declareds S' ts
  | [], _ => trivial
  | _ :: _, ⟨ht, hts⟩ => ⟨ht.mono h, Term.Declareds.mono h hts⟩

end

mutual

/-- **A value of a scope stays one** when more is declared. -/
theorem Value.InScope.mono (h : S.Le S') {n : Nat} : ∀ {v : Value}, v.InScope S n → v.InScope S' n
  | .neutral _, hm => Neutral.InScope.mono h hm
  | .type _, _ => trivial
  | .pi _ _, ⟨hd, hc⟩ => ⟨Value.InScope.mono h hd, Closure.InScope.mono h hc⟩
  | .lam _ _, ⟨hd, hc⟩ => ⟨Value.InScope.mono h hd, Closure.InScope.mono h hc⟩
  | .former _ _, ⟨hF, has⟩ => ⟨h.exists_family hF, Value.AllInScope.mono h has⟩
  | .con _ _, ⟨⟨K, hK⟩, has⟩ => ⟨⟨K, h.constructor hK⟩, Value.AllInScope.mono h has⟩

theorem Neutral.InScope.mono (h : S.Le S') {n : Nat} :
    ∀ {m : Neutral}, m.InScope S n → m.InScope S' n
  | .var _ _, hl => hl
  | .const _, _ => trivial
  | .app _ _, ⟨hf, ha⟩ => ⟨Neutral.InScope.mono h hf, Value.InScope.mono h ha⟩
  | .elim _ _ _, ⟨ht, hM, hms⟩ =>
    ⟨Neutral.InScope.mono h ht, Value.InScope.mono h hM, Value.AllInScope.mono h hms⟩

theorem Closure.InScope.mono (h : S.Le S') {n : Nat} :
    ∀ {c : Closure}, c.InScope S n → c.InScope S' n
  | .mk _ _ _, ⟨henv, hbody⟩ => ⟨Value.AllInScope.mono h henv, hbody.mono h⟩

theorem Value.AllInScope.mono (h : S.Le S') {n : Nat} :
    ∀ {vs : List Value}, Value.AllInScope S n vs → Value.AllInScope S' n vs
  | [], _ => trivial
  | _ :: _, ⟨hv, hvs⟩ => ⟨Value.InScope.mono h hv, Value.AllInScope.mono h hvs⟩

end

namespace Plain

/-- All atoms of a term are of the kind `P`. -/
def Atoms (P : Atom → Prop) : Plain → Prop
  | var _ => True
  | atom a => P a
  | letIn A a b => A.Atoms P ∧ a.Atoms P ∧ b.Atoms P
  | pi A B => A.Atoms P ∧ B.Atoms P
  | lam A b => A.Atoms P ∧ b.Atoms P
  | app f a => f.Atoms P ∧ a.Atoms P

theorem Atoms.of_subst {P : Atom → Prop} {σ : Nat → Plain} {t : Plain}
    (h : (t.subst σ).Atoms P) : t.Atoms P := by
  induction t generalizing σ with
  | var i => trivial
  | atom a => exact h
  | letIn A a b ihA iha ihb => exact ⟨ihA h.1, iha h.2.1, ihb h.2.2⟩
  | pi A B ihA ihB => exact ⟨ihA h.1, ihB h.2⟩
  | lam A b ihA ihb => exact ⟨ihA h.1, ihb h.2⟩
  | app f a ihf iha => exact ⟨ihf h.1, iha h.2⟩

theorem atoms_spine {P : Atom → Prop} {f : Plain} {as : List Plain} :
    (spine f as).Atoms P ↔ f.Atoms P ∧ ∀ a ∈ as, a.Atoms P := by
  induction as generalizing f with
  | nil => simp [spine]
  | cons a as ih =>
    rw [List.forall_mem_cons, ← and_assoc]
    exact ih

end Plain

/-- **A typed term is put together from typed atoms**, universes and eliminators. -/
theorem HasType.atoms {Θ : Theory} {Γ : List Plain} (hΘ : Θ.Sound)
    {P : Atom → Prop} (hP : ∀ a T, Θ.typeOf a = some T → P a) (htype : ∀ n, P (.type n))
    (helim : ∀ n, P (.elim n)) {t T : Plain} (h : HasType Θ Γ t T) : t.Atoms P := by
  induction h with
  | var _ => trivial
  | atom ha => exact hP _ _ ha
  | type n => exact htype n
  | letIn _ _ _ ihA iha ihb => exact ⟨ihA, iha, ihb.of_subst⟩
  | pi _ _ ihA ihB => exact ⟨ihA, ihB⟩
  | lam _ _ ihA ihb => exact ⟨ihA, ihb⟩
  | app _ _ ihf iha => exact ⟨ihf, iha⟩
  | elim hF hcs _ _ hl _ _ _ iht ihM ihm =>
    refine ⟨Plain.atoms_spine.2 ⟨helim _, List.forall_mem_cons.2 ⟨ihM, fun m hm => ?_⟩⟩, iht⟩
    obtain ⟨j, hj⟩ := List.getElem?_of_mem hm
    have hj' := hl ▸ (List.getElem?_eq_some_iff.1 hj).1
    obtain ⟨K, hK, _⟩ := (hΘ.constructors hF hcs _).1 (List.getElem_mem hj')
    exact ihm hj (List.getElem?_eq_getElem hj') hK
  | conv _ _ ih => exact ih

/-- The atom is declared, if it is one that has to be. -/
def Signature.Has (S : Signature) : Atom → Prop
  | .former F => ∃ D, S.family? F = some D
  | .con c => ∃ K, S.constructor? c = some K
  | _ => True

mutual

theorem Term.declared_of_atoms : ∀ {t : Term}, t.plain.Atoms S.Has → t.Declared S
  | .var _ _, _ => trivial
  | .const _, _ => trivial
  | .letIn _ _ _ _, ⟨hA, ha, hb⟩ =>
    ⟨Term.declared_of_atoms hA, Term.declared_of_atoms ha, Term.declared_of_atoms hb⟩
  | .type _, _ => trivial
  | .pi _ _ _, ⟨hA, hB⟩ => ⟨Term.declared_of_atoms hA, Term.declared_of_atoms hB⟩
  | .lam _ _ _, ⟨hA, hb⟩ => ⟨Term.declared_of_atoms hA, Term.declared_of_atoms hb⟩
  | .app _ _, ⟨hf, ha⟩ => ⟨Term.declared_of_atoms hf, Term.declared_of_atoms ha⟩
  | .former _ as, h => by
    obtain ⟨hF, has⟩ := Plain.atoms_spine.1 h
    exact ⟨hF, Term.declareds_of_atoms has⟩
  | .con _ as, h => by
    obtain ⟨hc, has⟩ := Plain.atoms_spine.1 h
    exact ⟨hc, Term.declareds_of_atoms has⟩
  | .elim t M ms, ⟨hM, ht⟩ => by
    obtain ⟨_, hM⟩ := Plain.atoms_spine.1 hM
    obtain ⟨hM, hms⟩ := List.forall_mem_cons.1 hM
    exact ⟨Term.declared_of_atoms ht, Term.declared_of_atoms hM, Term.declareds_of_atoms hms⟩

theorem Term.declareds_of_atoms : ∀ {ts : List Term},
    (∀ p ∈ Term.plains ts, p.Atoms S.Has) → Term.Declareds S ts
  | [], _ => trivial
  | _ :: _, h =>
    ⟨Term.declared_of_atoms (List.forall_mem_cons.1 h).1,
      Term.declareds_of_atoms (List.forall_mem_cons.1 h).2⟩

end

/-- **Only declared families and constructors occur in a typed term.** -/
theorem HasType.declared {Θ : Theory} (hΘ : Θ.Models S) {Γ ε : List Plain} {t : Term} {T : Plain}
    (h : HasType Θ Γ (t.under ε) T) : t.Declared S := by
  refine Term.declared_of_atoms (Plain.Atoms.of_subst (h.atoms hΘ.sound ?_ (fun _ => trivial)
    fun _ => trivial))
  intro a A ha
  cases a with
  | former F =>
    obtain ⟨D, hD, _⟩ := Option.map_eq_some_iff.1 ha
    obtain ⟨F', hF', _⟩ := hΘ.describes.family?_of_eq_some hD
    exact ⟨F', hF'⟩
  | con c =>
    obtain ⟨K, hK, _⟩ := Option.map_eq_some_iff.1 ha
    obtain ⟨K', hK', _⟩ := hΘ.describes.constructor?_of_eq_some hK
    exact ⟨K', hK'⟩
  | type | pi | const | elim | hole => trivial

namespace Signature

/-- What is defined holds no variables and only declared families and constructors. -/
def DefinesInScope (S : Signature) : Prop := ∀ c v, S.definition? c = some v → v.InScope S 0

theorem DefinesInScope.defines (h : S.DefinesInScope) (ρ : Nat → Nat → Prop) : S.Defines ρ := by
  intro c
  rw [unfold, ← definition?]
  cases hc : S.definition? c with
  | none => exact .neutral (.const c)
  | some v => exact (h c v hc).related fun _ hl => (Nat.not_lt_zero _ hl).elim

theorem DefinesInScope.mono (h : S.DefinesInScope) (hle : S.Le S')
    (hdef : ∀ c, S'.definition? c = S.definition? c) : S'.DefinesInScope :=
  fun c v hv => (h c v (hdef c ▸ hv)).mono hle

/-- **The value of a typed closed term is defined.** -/
theorem DefinesInScope.define (h : S.DefinesInScope) {Θ : Theory} (hΘ : S.Coherent Θ) {n : Nat}
    {name : Name} {type value : Term} (e : S.define n name type value = .ok S') :
    S'.DefinesInScope := by
  have hle := (Step.define n name type value e).le hΘ
  obtain ⟨A, v, _, hA, hc, hv, rfl⟩ := define_eq_ok e
  obtain ⟨hall, u, hu⟩ := admitType_eq_ok hΘ.models hA
  have hty : A.IsType Θ [] S.valueLeaves noLevels := ⟨hall.mono S.leaves_le, u, hu⟩
  obtain ⟨_, htyped⟩ := (Context.check_post (.empty hΘ.models) n value hty).of_ok hc
  obtain ⟨v', hv', hrel⟩ := (eval_related (h.defines (upTo 0)) n).1 .nil
    (htyped.declared hΘ.models) v hv
  intro c w hw
  rw [definition?_addGlobal] at hw
  by_cases hcn : c = name
  · rw [if_pos hcn] at hw
    cases hw
    exact (hrel.inScope fun _ _ hl => hl.2).mono hle
  · rw [if_neg hcn] at hw
    exact (h c w hw).mono hle

theorem DefinesInScope.step (h : S.DefinesInScope) {Θ : Theory} (hΘ : S.Coherent Θ)
    (e : Step S S') : S'.DefinesInScope := by
  have hle := e.le hΘ
  cases e with
  | define n name type value e => exact h.define hΘ e
  | postulate n name type e =>
    obtain ⟨A, hname, _, rfl⟩ := postulate_eq_ok e
    refine h.mono hle fun c => ?_
    rw [definition?_addGlobal]
    by_cases hc : c = name
    · rw [if_pos hc, hc, hΘ.definition?_eq_none hname]
    · rw [if_neg hc]
  | openFamily n name p type e =>
    obtain ⟨A, T, l, _, _, _, _, _, rfl⟩ := openFamily_eq_ok e
    exact h.mono hle fun _ => rfl
  | declareConstructor n family name type e =>
    obtain ⟨id, F, A, P, E, T, r, _, _, rfl⟩ := declareConstructor_eq_ok e
    exact h.mono hle fun _ => rfl
  | closeFamily family e =>
    obtain ⟨id, F, _, _, _, rfl⟩ := closeFamily_eq_ok e
    exact h.mono hle fun _ => rfl

/-- **Definitions hold no variables and only declared families and constructors**, after any
declarations. -/
theorem Reachable.definesInScope (h : S.Reachable) : S.DefinesInScope := by
  induction h with
  | refl => exact fun c v hv => nomatch hv
  | tail hS e ih =>
    obtain ⟨Θ, hΘ⟩ := Reachable.coherent hS
    exact ih.step hΘ e

end Signature

end Constructions
