/-
# Computing commutes with replacing variables

A value becomes another one when its variables are replaced by values: what is built up stays
built up in the same way, and a computation that waited for a variable goes on with the value
that takes its place (`Value.Becomes`).  If a term is computed before and after its variables
are replaced, the first result becomes the second (`eval_becomes`).

So the shape of a type that was opened with variables is the shape it has for any arguments,
whether they are of the right types or not (`Value.Opens.instantiated`,
`Value.Opens.reopened`).
-/

import Constructions.Proofs.Constructor.Admissible

namespace Constructions

variable {S : Signature} {σ : Nat → Value → Prop}

mutual

/-- A value becomes another one if each variable is replaced by a value that `σ` relates it to. -/
inductive Value.Becomes (S : Signature) (σ : Nat → Value → Prop) : Value → Value → Prop where
  | neutral {m : Neutral} {w : Value} : m.Becomes S σ w → Value.Becomes S σ (.neutral m) w
  | type (l : UInt64) : Value.Becomes S σ (.type l) (.type l)
  | pi {d d' : Value} {c c' : Closure} :
      Value.Becomes S σ d d' → c.Becomes S σ c' → Value.Becomes S σ (.pi d c) (.pi d' c')
  | lam {d d' : Value} {c c' : Closure} :
      Value.Becomes S σ d d' → c.Becomes S σ c' → Value.Becomes S σ (.lam d c) (.lam d' c')
  | former {as as' : List Value} (F : FamilyId) : List.Forall₂ (Value.Becomes S σ) as as' →
      Value.Becomes S σ (.former F as) (.former F as')
  | con {as as' : List Value} (c : ConstructorId) : List.Forall₂ (Value.Becomes S σ) as as' →
      Value.Becomes S σ (.con c as) (.con c as')

/-- What waits for a variable is computed on for the value that replaces the variable. -/
inductive Neutral.Becomes (S : Signature) (σ : Nat → Value → Prop) : Neutral → Value → Prop where
  | var {l : Nat} {w : Value} (label : Label) : σ l w → Neutral.Becomes S σ (.var label l) w
  | const (c : Name) : Neutral.Becomes S σ (.const c) (.neutral (.const c))
  | app {n : Nat} {f : Neutral} {a g b w : Value} : f.Becomes S σ g → a.Becomes S σ b →
      g.apply S n b = .ok w → Neutral.Becomes S σ (.app f a) w
  | elim {n : Nat} {t : Neutral} {M u N w : Value} {ms ns : List Value} : t.Becomes S σ u →
      M.Becomes S σ N → List.Forall₂ (Value.Becomes S σ) ms ns →
      Value.eliminate S n N ns u = .ok w → Neutral.Becomes S σ (.elim t M ms) w

/-- A closure keeps its body, and its environment is replaced. -/
inductive Closure.Becomes (S : Signature) (σ : Nat → Value → Prop) : Closure → Closure → Prop where
  | mk {env env' : List Value} (label : Label) (body : Term) :
      List.Forall₂ (Value.Becomes S σ) env env' →
      Closure.Becomes S σ (.mk env label body) (.mk env' label body)

end

/-! ### Values that stay as they are -/

mutual

/-- **A value becomes itself** if its variables are replaced by themselves. -/
theorem Value.All.becomes {L : Leaves} (hσ : ∀ label l, L.level l → σ l (.var label l)) :
    ∀ {v : Value}, v.All L → v.Becomes S σ v
  | .neutral _, hm => .neutral (Neutral.All.becomes hσ hm)
  | .type l, _ => .type l
  | .pi _ _, ⟨hd, hc⟩ => .pi (Value.All.becomes hσ hd) (Closure.All.becomes hσ hc)
  | .lam _ _, ⟨hd, hc⟩ => .lam (Value.All.becomes hσ hd) (Closure.All.becomes hσ hc)
  | .former F _, has => .former F (Value.Alls.becomes hσ has)
  | .con c _, has => .con c (Value.Alls.becomes hσ has)

theorem Neutral.All.becomes {L : Leaves} (hσ : ∀ label l, L.level l → σ l (.var label l)) :
    ∀ {m : Neutral}, m.All L → m.Becomes S σ (.neutral m)
  | .var label l, hl => .var label (hσ label l hl)
  | .const c, _ => .const c
  | .app _ _, ⟨hf, ha⟩ =>
    .app (n := 1) (Neutral.All.becomes hσ hf) (Value.All.becomes hσ ha) rfl
  | .elim _ _ _, ⟨ht, hM, hms⟩ =>
    .elim (n := 1) (Neutral.All.becomes hσ ht) (Value.All.becomes hσ hM)
      (Value.Alls.becomes hσ hms) rfl

theorem Closure.All.becomes {L : Leaves} (hσ : ∀ label l, L.level l → σ l (.var label l)) :
    ∀ {c : Closure}, c.All L → c.Becomes S σ c
  | .mk _ label body, ⟨henv, _⟩ => .mk label body (Value.Alls.becomes hσ henv)

theorem Value.Alls.becomes {L : Leaves} (hσ : ∀ label l, L.level l → σ l (.var label l)) :
    ∀ {vs : List Value}, Value.Alls L vs → List.Forall₂ (Value.Becomes S σ) vs vs
  | [], _ => .nil
  | _ :: _, ⟨hv, hvs⟩ => .cons (Value.All.becomes hσ hv) (Value.Alls.becomes hσ hvs)

end

/-- A value without variables becomes itself. -/
theorem Value.All.becomes_closed {v : Value} (h : v.All S.waiting) : v.Becomes S σ v :=
  h.becomes fun _ _ hl => False.elim hl

/-! ### Computing -/

/-- Two values applied to arguments that become each other. -/
theorem applyAll_becomes {n m : Nat}
    (ih : ∀ {f f' a a' v v' : Value}, f.Becomes S σ f' → a.Becomes S σ a' →
      f.apply S n a = .ok v → f'.apply S m a' = .ok v' → v.Becomes S σ v')
    {f f' v v' : Value} {as as' : List Value} (hf : f.Becomes S σ f')
    (has : List.Forall₂ (Value.Becomes S σ) as as') (hv : f.applyAll S n as = .ok v)
    (hv' : f'.applyAll S m as' = .ok v') : v.Becomes S σ v' := by
  induction has generalizing f f' with
  | nil =>
    cases hv
    cases hv'
    exact hf
  | cons ha _ ihas =>
    obtain ⟨g, hg, hv⟩ := bind_eq_ok.1 hv
    obtain ⟨g', hg', hv'⟩ := bind_eq_ok.1 hv'
    exact ihas (ih hf ha hg hg') hv hv'

/-- **Computing commutes with replacing variables.**  The fuel on the two sides need not be the
same, since a computation goes on where it waited before. -/
theorem eval_becomes (hS : S.waiting.Closed S) (n : Nat) :
    (∀ {m : Nat} {env env' : Env} {t : Term} {v v' : Value},
      List.Forall₂ (Value.Becomes S σ) env env' → t.eval S n env = .ok v →
      t.eval S m env' = .ok v' → v.Becomes S σ v') ∧
    (∀ {m : Nat} {f f' a a' v v' : Value}, f.Becomes S σ f' → a.Becomes S σ a' →
      f.apply S n a = .ok v → f'.apply S m a' = .ok v' → v.Becomes S σ v') ∧
    (∀ {m : Nat} {M M' t t' v v' : Value} {ms ms' : List Value}, M.Becomes S σ M' →
      List.Forall₂ (Value.Becomes S σ) ms ms' → t.Becomes S σ t' →
      Value.eliminate S n M ms t = .ok v → Value.eliminate S m M' ms' t' = .ok v' →
      v.Becomes S σ v') := by
  induction n with
  | zero => exact ⟨fun _ h => (nomatch h), fun _ _ h => (nomatch h), fun _ _ _ h => (nomatch h)⟩
  | succ n ih =>
    obtain ⟨ihe, iha, ihm⟩ := ih
    refine ⟨?_, ?_, ?_⟩
    · intro m env env' t v v' henv hv hv'
      cases m with
      | zero => cases hv'
      | succ m =>
      have ihes {ts : List Term} {vs vs' : List Value}
          (hvs : ts.mapM (fun t => t.eval S n env) = .ok vs)
          (hvs' : ts.mapM (fun t => t.eval S m env') = .ok vs') :
          List.Forall₂ (Value.Becomes S σ) vs vs' := by
        refine forall₂_comp (fun hv hv' => ?_) (mapM_eq_ok.1 hvs).flip (mapM_eq_ok.1 hvs')
        exact ihe henv hv hv'
      cases t with
      | var label i =>
        obtain ⟨w, hw, hR⟩ := forall₂_getElem? henv (orDangling_eq_ok.1 hv)
        cases hw.symm.trans (orDangling_eq_ok.1 hv')
        exact hR
      | const c =>
        cases hv
        cases hv'
        exact (hS c trivial).becomes_closed
      | letIn label A a b =>
        obtain ⟨x, hx, hv⟩ := bind_eq_ok.1 hv
        obtain ⟨x', hx', hv'⟩ := bind_eq_ok.1 hv'
        exact ihe (.cons (ihe henv hx hx') henv) hv hv'
      | type l =>
        cases hv
        cases hv'
        exact .type l
      | pi label A B =>
        obtain ⟨d, hd, hv⟩ := bind_eq_ok.1 hv
        obtain ⟨d', hd', hv'⟩ := bind_eq_ok.1 hv'
        cases hv
        cases hv'
        exact .pi (ihe henv hd hd') (.mk label B henv)
      | lam label A b =>
        obtain ⟨d, hd, hv⟩ := bind_eq_ok.1 hv
        obtain ⟨d', hd', hv'⟩ := bind_eq_ok.1 hv'
        cases hv
        cases hv'
        exact .lam (ihe henv hd hd') (.mk label b henv)
      | app f a =>
        obtain ⟨g, hg, hv⟩ := bind_eq_ok.1 hv
        obtain ⟨x, hx, hv⟩ := bind_eq_ok.1 hv
        obtain ⟨g', hg', hv'⟩ := bind_eq_ok.1 hv'
        obtain ⟨x', hx', hv'⟩ := bind_eq_ok.1 hv'
        exact iha (ihe henv hg hg') (ihe henv hx hx') hv hv'
      | former F as =>
        obtain ⟨vs, hvs, hv⟩ := bind_eq_ok.1 hv
        obtain ⟨vs', hvs', hv'⟩ := bind_eq_ok.1 hv'
        cases hv
        cases hv'
        exact .former F (ihes hvs hvs')
      | con c as =>
        obtain ⟨vs, hvs, hv⟩ := bind_eq_ok.1 hv
        obtain ⟨vs', hvs', hv'⟩ := bind_eq_ok.1 hv'
        cases hv
        cases hv'
        exact .con c (ihes hvs hvs')
      | elim t M ms =>
        obtain ⟨x, hx, hv⟩ := bind_eq_ok.1 hv
        obtain ⟨N, hN, hv⟩ := bind_eq_ok.1 hv
        obtain ⟨ns, hns, hv⟩ := bind_eq_ok.1 hv
        obtain ⟨x', hx', hv'⟩ := bind_eq_ok.1 hv'
        obtain ⟨N', hN', hv'⟩ := bind_eq_ok.1 hv'
        obtain ⟨ns', hns', hv'⟩ := bind_eq_ok.1 hv'
        exact ihm (ihe henv hN hN') (ihes hns hns') (ihe henv hx hx') (mapError_eq_ok.1 hv)
          (mapError_eq_ok.1 hv')
    · intro m f f' a a' v v' hf ha hv hv'
      cases hf with
      | neutral hm =>
        cases hv
        exact .neutral (.app hm ha hv')
      | type l => cases hv
      | pi => cases hv
      | lam _ hc =>
        obtain ⟨label, body, henv⟩ := hc
        cases m with
        | zero => cases hv'
        | succ m => exact ihe (.cons ha henv) hv hv'
      | former F has =>
        cases m with
        | zero => cases hv'
        | succ m =>
          cases hv
          cases hv'
          exact .former F (List.rel_append has (.cons ha .nil))
      | con c has =>
        cases m with
        | zero => cases hv'
        | succ m =>
          cases hv
          cases hv'
          exact .con c (List.rel_append has (.cons ha .nil))
    · intro m M M' t t' v v' ms ms' hM hms ht hv hv'
      cases ht with
      | neutral hm =>
        cases hv
        exact .neutral (.elim hm hM hms hv')
      | type l => cases hv
      | pi => cases hv
      | lam => cases hv
      | former => cases hv
      | @con as as' c has =>
        cases m with
        | zero => cases hv'
        | succ m =>
        obtain ⟨K, F, cs, method, rs, hK, _, hF, hcs, hsel, hrs, hv⟩ := eliminate_con_eq_ok hv
        obtain ⟨K', F', cs', method', rs', hK', _, hF', hcs', hsel', hrs', hv'⟩ :=
          eliminate_con_eq_ok hv'
        cases hK.symm.trans hK'
        cases hF.symm.trans hF'
        cases hcs.symm.trans hcs'
        -- Both targets are built by one constructor, so both select the method at one place.
        obtain ⟨i, hi, hmethod⟩ := Dispatch.select?_eq_some hsel
        obtain ⟨i', hi', hmethod'⟩ := Dispatch.select?_eq_some hsel'
        cases hi.symm.trans hi'
        obtain ⟨w, hw, hmm⟩ := forall₂_getElem? hms hmethod
        cases hw.symm.trans hmethod'
        refine applyAll_becomes iha hmm (List.rel_append (List.forall₂_drop _ has) ?_) hv hv'
        refine forall₂_comp (fun hr hr' => ?_) hrs.flip hrs'
        obtain ⟨a, ha, hr⟩ := hr
        obtain ⟨a', ha', hr'⟩ := hr'
        obtain ⟨b, hb, hab⟩ := forall₂_getElem? has ha
        cases hb.symm.trans ha'
        exact ihm hM hms hab hr hr'

/-! ### Opened types -/

/-- The body of a closure, computed for a variable and for what replaces it. -/
theorem Closure.Becomes.instantiate (hS : S.waiting.Closed S) {c c' : Closure} {level n : Nat}
    {a v w : Value} (hc : c.Becomes S σ c') (ha : σ level a)
    (hv : Settles (fun m => c.enter S m level) v) (hw : c'.instantiate S n a = .ok w) :
    v.Becomes S σ w := by
  obtain ⟨N, hN⟩ := hv
  obtain ⟨label, body, henv⟩ := hc
  exact (eval_becomes hS N).1 (.cons (.neutral (.var label ha)) henv) (hN N (Nat.le_refl N)) hw

/-- **A type has the opened shape also for arguments.**  What stands behind the binders of a type
becomes what the type leaves after arguments in their places. -/
theorem Value.Opens.instantiated (hS : S.waiting.Closed S) {level n : Nat} {ty ty' w : Value}
    {T : Telescope} {args : List Value} (h : ty.Opens S level T) (hty : ty.Becomes S σ ty')
    (hl : args.length = T.length)
    (hσ : ∀ (i : Nat) (a : Value), args[i]? = some a → σ (level + i) a)
    (hw : ty'.instantiate S n args = .ok w) : T.body.Becomes S σ w := by
  induction h generalizing ty' args with
  | stop level ty =>
    obtain rfl := List.length_eq_zero_iff.1 hl
    cases hw
    exact hty
  | pi hb _ ih =>
    cases args with
    | nil => cases hl
    | cons a args =>
      cases hty with
      | pi _ hc =>
        obtain ⟨body, hbody, hw⟩ := bind_eq_ok.1 hw
        refine ih (hc.instantiate hS (hσ 0 a rfl) hb hbody) (Nat.succ.inj hl) (fun i b hi => ?_) hw
        have := hσ (i + 1) b hi
        rwa [← Nat.add_assoc, Nat.add_right_comm] at this

/-- The domain of a binder that is reached with arguments for the binders before it. -/
theorem Value.Opens.instantiated_domain (hS : S.waiting.Closed S) {level n : Nat}
    {ty ty' w d : Value} {T : Telescope} {args : List Value} (h : ty.Opens S level T)
    (hty : ty.Becomes S σ ty') (hd : T.domains[args.length]? = some d)
    (hσ : ∀ (i : Nat) (a : Value), args[i]? = some a → σ (level + i) a)
    (hw : ty'.instantiate S n args = .ok w) : ∃ d' c, w = .pi d' c ∧ d.Becomes S σ d' := by
  induction h generalizing ty' args with
  | stop level ty => cases hd
  | pi hb _ ih =>
    cases hty with
    | pi hdom hc =>
      cases args with
      | nil =>
        cases hd
        cases hw
        exact ⟨_, _, rfl, hdom⟩
      | cons a args =>
        obtain ⟨body, hbody, hw⟩ := bind_eq_ok.1 hw
        refine ih (hc.instantiate hS (hσ 0 a rfl) hb hbody) hd (fun i b hi => ?_) hw
        have := hσ (i + 1) b hi
        rwa [← Nat.add_assoc, Nat.add_right_comm] at this

/-- The variables of opened binders become the arguments in their places. -/
theorem Value.Opens.parameters_become {level : Nat} {ty : Value} {T : Telescope}
    {args : List Value} (h : ty.Opens S level T) (hl : args.length = T.length)
    (hσ : ∀ (i : Nat) (a : Value), args[i]? = some a → σ (level + i) a) :
    List.Forall₂ (Value.Becomes S σ) T.parameters args := by
  induction h generalizing args with
  | stop level ty =>
    obtain rfl := List.length_eq_zero_iff.1 hl
    exact .nil
  | @pi level d body c T _ _ ih =>
    cases args with
    | nil => cases hl
    | cons a args =>
      refine .cons (.neutral (.var c.label (hσ 0 a rfl))) (ih (Nat.succ.inj hl) fun i b hi => ?_)
      have := hσ (i + 1) b hi
      rwa [← Nat.add_assoc, Nat.add_right_comm] at this

/-- **A type has the opened shape also at other levels.** -/
theorem Value.Opens.reopened (hS : S.waiting.Closed S) {level level' n : Nat} {ty ty' : Value}
    {T T' : Telescope} (h : ty.Opens S level T) (hty : ty.Becomes S σ ty')
    (hσ : ∀ label i, i < T.length → σ (level + i) (.var label (level' + i)))
    (hT' : ty'.telescope S n level' (some T.length) = .ok T') :
    List.Forall₂ (Value.Becomes S σ) T.domains T'.domains ∧ T.body.Becomes S σ T'.body := by
  induction h generalizing level' n ty' T' with
  | stop level ty =>
    cases n with
    | zero => cases hT'
    | succ n =>
      have hstop : ty'.telescope S (n + 1) level' (some 0) = .ok ⟨[], ty'⟩ :=
        telescope_stop S n level' fun h => (h rfl).elim
      cases hstop.symm.trans hT'
      exact ⟨.nil, hty⟩
  | @pi level d body c T hb _ ih =>
    cases hty with
    | @pi _ d' _ c' hd hc =>
      cases n with
      | zero => cases hT'
      | succ n =>
        rw [telescope_pi S n level' (by rintro ⟨⟩)] at hT'
        obtain ⟨body', hbody', hT'⟩ := bind_eq_ok.1 hT'
        obtain ⟨rest, hrest, hT'⟩ := bind_eq_ok.1 hT'
        cases hT'
        have hb := hc.instantiate hS (hσ c'.label 0 (Nat.succ_pos T.length)) hb hbody'
        have hinner (label : Label) (i : Nat) (hi : i < T.length) :
            σ (level + 1 + i) (.var label (level' + 1 + i)) := by
          have := hσ label (i + 1) (Nat.succ_lt_succ hi)
          rwa [← Nat.add_assoc, ← Nat.add_assoc, Nat.add_right_comm,
            Nat.add_right_comm level'] at this
        obtain ⟨hds, hbody⟩ := ih hb hinner hrest
        exact ⟨.cons hd hds, hbody⟩

end Constructions
