/-
# Results do not depend on the depth of the scope

Fresh variables are numbered from the number of variables in scope.  In a deeper scope the
closures of a value are therefore entered on other variables, and so are those of everything that
is computed from them.  Still nothing changes but the numbers: the procedures commute with a
renaming of the levels of values (`Value.relevel`).

| procedure | after renaming the levels of its input |
| --- | --- |
| `Term.eval`, `Value.apply`, `Value.eliminate` | the renamed value, or the same failure |
| `Value.convert` | the same answer, since different levels stay different |
| `Value.readBack` | the renamed term, unless the deeper scope outgrows 64 bits |

The renaming that matters keeps the levels of a scope and makes room behind it (`shiftFrom`).  A
value of the scope has no other levels, so it is its own image.
-/

import Constructions.Proofs.Normalization
import Constructions.Proofs.Relabelling

namespace Constructions

/-! ### Renaming levels -/

mutual

/-- A value with the levels of its variables renamed, in the environments of its closures too. -/
def Value.relevel (θ : Nat → Nat) : Value → Value
  | .neutral m => .neutral (m.relevel θ)
  | .type l => .type l
  | .pi d c => .pi (d.relevel θ) (c.relevel θ)
  | .lam d c => .lam (d.relevel θ) (c.relevel θ)
  | .former F as => .former F (Value.relevels θ as)
  | .con c as => .con c (Value.relevels θ as)

/-- A neutral value with the levels of its variables renamed. -/
def Neutral.relevel (θ : Nat → Nat) : Neutral → Neutral
  | .var label l => .var label (θ l)
  | .const c => .const c
  | .app f a => .app (f.relevel θ) (a.relevel θ)
  | .elim t M ms => .elim (t.relevel θ) (M.relevel θ) (Value.relevels θ ms)

/-- A closure with the levels of its environment renamed. -/
def Closure.relevel (θ : Nat → Nat) : Closure → Closure
  | .mk env label body => .mk (Value.relevels θ env) label body

/-- Values with the levels of their variables renamed. -/
def Value.relevels (θ : Nat → Nat) : List Value → List Value
  | [] => []
  | v :: vs => v.relevel θ :: Value.relevels θ vs

end

variable {S : Signature} {θ : Nat → Nat}

@[simp] theorem Value.relevels_eq_map (vs : List Value) :
    Value.relevels θ vs = vs.map (Value.relevel θ) := by
  induction vs with
  | nil => rfl
  | cons v vs ih => rw [Value.relevels, ih, List.map_cons]

theorem Closure.relevel_mk (env : Env) (label : Label) (body : Term) :
    (Closure.mk env label body).relevel θ = .mk (env.map (Value.relevel θ)) label body := by
  rw [Closure.relevel, Value.relevels_eq_map]

@[simp] theorem Closure.label_relevel (c : Closure) : (c.relevel θ).label = c.label := by
  cases c
  rfl

mutual

/-- **A value is its own image** if the renaming keeps its levels. -/
theorem Value.All.relevel_eq {L : Leaves} (hθ : ∀ l, L.level l → θ l = l) :
    ∀ {v : Value}, v.All L → v.relevel θ = v
  | .neutral _, hm => congrArg Value.neutral (Neutral.All.relevel_eq hθ hm)
  | .type _, _ => rfl
  | .pi _ _, ⟨hd, hc⟩ =>
    congrArg₂ Value.pi (Value.All.relevel_eq hθ hd) (Closure.All.relevel_eq hθ hc)
  | .lam _ _, ⟨hd, hc⟩ =>
    congrArg₂ Value.lam (Value.All.relevel_eq hθ hd) (Closure.All.relevel_eq hθ hc)
  | .former F _, has => congrArg (Value.former F) (Value.Alls.relevels_eq hθ has)
  | .con c _, has => congrArg (Value.con c) (Value.Alls.relevels_eq hθ has)

theorem Neutral.All.relevel_eq {L : Leaves} (hθ : ∀ l, L.level l → θ l = l) :
    ∀ {m : Neutral}, m.All L → m.relevel θ = m
  | .var label l, hl => congrArg (Neutral.var label) (hθ l hl)
  | .const _, _ => rfl
  | .app _ _, ⟨hf, ha⟩ =>
    congrArg₂ Neutral.app (Neutral.All.relevel_eq hθ hf) (Value.All.relevel_eq hθ ha)
  | .elim _ _ _, ⟨ht, hM, hms⟩ => by
    rw [Neutral.relevel, Neutral.All.relevel_eq hθ ht, Value.All.relevel_eq hθ hM,
      Value.Alls.relevels_eq hθ hms]

theorem Closure.All.relevel_eq {L : Leaves} (hθ : ∀ l, L.level l → θ l = l) :
    ∀ {c : Closure}, c.All L → c.relevel θ = c
  | .mk _ label body, ⟨henv, _⟩ =>
    congrArg (Closure.mk · label body) (Value.Alls.relevels_eq hθ henv)

theorem Value.Alls.relevels_eq {L : Leaves} (hθ : ∀ l, L.level l → θ l = l) :
    ∀ {vs : List Value}, Value.Alls L vs → Value.relevels θ vs = vs
  | [], _ => rfl
  | _ :: _, ⟨hv, hvs⟩ =>
    congrArg₂ List.cons (Value.All.relevel_eq hθ hv) (Value.Alls.relevels_eq hθ hvs)

end

/-- What a constant computes to has no variables. -/
theorem Signature.unfold_relevel (hS : S.waiting.Closed S) (c : Name) :
    (S.unfold c).relevel θ = S.unfold c :=
  (hS c trivial).relevel_eq fun _ hl => False.elim hl

/-! ### Computing -/

variable {Q : Halt → Prop} {n m : Nat}

/-- **Computing commutes with a renaming of levels.** -/
theorem eval_relevel (hS : S.waiting.Closed S) (hnm : FuelLe Q n m) :
    (∀ (env : Env) (t : Term), Carries Q id (Value.relevel θ) (t.eval S n env)
      (t.eval S m (env.map (Value.relevel θ)))) ∧
    (∀ f a : Value, Carries Q id (Value.relevel θ) (f.apply S n a)
      ((f.relevel θ).apply S m (a.relevel θ))) ∧
    (∀ (M t : Value) (ms : List Value),
      Carries (fun s => Q s.toHalt) id (Value.relevel θ) (Value.eliminate S n M ms t)
        (Value.eliminate S m (M.relevel θ) (ms.map (Value.relevel θ)) (t.relevel θ))) := by
  induction n generalizing m with
  | zero =>
    obtain rfl | hQ := hnm.zero
    · exact ⟨fun _ _ => .error rfl, fun _ _ => .error rfl, fun _ _ _ => .error rfl⟩
    · exact ⟨fun _ _ => .mends hQ, fun _ _ => .mends hQ, fun _ _ _ => .mends hQ⟩
  | succ n ih =>
    obtain ⟨m, rfl, h⟩ := hnm.succ
    obtain ⟨ihe, iha, ihm⟩ := ih h
    have ihes (env : Env) (ts : List Term) : Carries Q id (List.map (Value.relevel θ))
        (ts.mapM fun t => t.eval S n env)
        (ts.mapM fun t => t.eval S m (env.map (Value.relevel θ))) :=
      .mapM_same fun t _ => ihe env t
    refine ⟨?_, ?_, ?_⟩
    · intro env t
      cases t with
      | var label i =>
        rw [Term.eval, Term.eval, List.getElem?_map]
        exact .orDangling _
      | const c => exact congrArg Except.ok (S.unfold_relevel hS c).symm
      | letIn label A a b => exact .bind (ihe env a) fun v _ => ihe (v :: env) b
      | type l => rfl
      | pi label A B =>
        refine .bind (ihe env A) fun d _ => ?_
        rw [← Closure.relevel_mk]
        rfl
      | lam label A b =>
        refine .bind (ihe env A) fun d _ => ?_
        rw [← Closure.relevel_mk]
        rfl
      | app f a => exact .bind (ihe env f) fun g _ => .bind (ihe env a) fun v _ => iha g v
      | former F as =>
        refine .bind (ihes env as) fun vs _ => ?_
        rw [← Value.relevels_eq_map]
        rfl
      | con c as =>
        refine .bind (ihes env as) fun vs _ => ?_
        rw [← Value.relevels_eq_map]
        rfl
      | elim t M ms =>
        refine .bind (ihe env t) fun v _ => .bind (ihe env M) fun N _ =>
          .bind (ihes env ms) fun ns _ => ?_
        refine .mapError (fun _ => ?_) (ihm N v ns)
        rfl
    · intro f a
      cases f with
      | neutral k => rfl
      | type l => exact .error rfl
      | pi d c => exact .error rfl
      | lam d c =>
        obtain ⟨env, label, body⟩ := c
        rw [Value.relevel, Closure.relevel_mk]
        exact ihe (a :: env) body
      | former F as =>
        rw [Value.relevel, Value.relevels_eq_map]
        refine congrArg (fun vs => Except.ok (Value.former F vs)) ?_
        rw [Value.relevels_eq_map, List.map_append, List.map_singleton]
      | con c as =>
        rw [Value.relevel, Value.relevels_eq_map]
        refine congrArg (fun vs => Except.ok (Value.con c vs)) ?_
        rw [Value.relevels_eq_map, List.map_append, List.map_singleton]
    · intro M t ms
      cases t with
      | neutral k =>
        rw [← Value.relevels_eq_map]
        rfl
      | type l => exact .error rfl
      | pi d c => exact .error rfl
      | lam d c => exact .error rfl
      | former F as => exact .error rfl
      | con c as =>
        rw [Value.relevel, Value.relevels_eq_map, Value.eliminate, Value.eliminate,
          List.length_map]
        refine .bind (.refl _) fun K _ => .ite (.error rfl) (.bind (.refl _) fun F _ => ?_)
        dsimp only [id]
        cases F.dispatch? with
        | none => exact .error rfl
        | some table =>
          dsimp only
          rw [Dispatch.select?_map]
          cases table.select? c ms with
          | none => exact .error rfl
          | some method =>
            refine .bind (g := List.map (Value.relevel θ)) ?_ fun rs _ => ?_
            · refine .mapM_same fun i _ => ?_
              refine .bind (g := Value.relevel θ) (.lifted (fun _ h => h) (fun _ => rfl) ?_)
                fun a _ => ihm M a ms
              rw [List.getElem?_map]
              exact .orDangling _
            · rw [← List.map_drop, ← List.map_append]
              exact .foldlM fun f a _ => .lifted (fun _ h => h) (fun _ => rfl) (iha f a)

/-- **A closure and its image are entered alike**, each at its own level. -/
theorem Closure.enter_relevel (hS : S.waiting.Closed S) (hnm : FuelLe Q n m) (c : Closure)
    (level : Nat) : Carries Q id (Value.relevel θ) (c.enter S n level)
      ((c.relevel θ).enter S m (θ level)) := by
  obtain ⟨env, label, body⟩ := c
  rw [Closure.relevel_mk]
  exact (eval_relevel hS hnm).1 (.var label level :: env) body

/-! ### Room behind a scope -/

/-- Numbers from `k` on make room for `d` numbers. -/
def shiftFrom (k d i : Nat) : Nat := if i < k then i else i + d

section

variable {k d i j : Nat}

theorem shiftFrom_of_lt (h : i < k) : shiftFrom k d i = i := if_pos h

theorem shiftFrom_of_le (h : k ≤ i) : shiftFrom k d i = i + d := if_neg (Nat.not_lt.2 h)

theorem shiftFrom_inj : shiftFrom k d i = shiftFrom k d j ↔ i = j := by
  refine ⟨fun h => ?_, fun h => congrArg _ h⟩
  unfold shiftFrom at h
  split at h <;> split at h <;> omega

theorem shiftFrom_zero : shiftFrom 0 d = (· + d) := funext fun _ => shiftFrom_of_le (Nat.zero_le _)

theorem liftRen_shiftFrom : liftRen (shiftFrom k d) = shiftFrom (k + 1) d := by
  funext i
  cases i with
  | zero => exact (shiftFrom_of_lt (Nat.succ_pos k)).symm
  | succ i =>
    rw [liftRen]
    unfold shiftFrom
    split <;> split <;> omega

end

/-! ### Comparing -/

theorem Value.applicable_relevel (v : Value) : (v.relevel θ).applicable S = v.applicable S := by
  cases v with
  | former F as =>
    rw [Value.relevel, Value.relevels_eq_map, Value.applicable, Value.applicable, List.length_map]
  | con c as =>
    rw [Value.relevel, Value.relevels_eq_map, Value.applicable, Value.applicable, List.length_map]
  | neutral | type | pi | lam => rfl

/-- **Comparing commutes with making room.**  Behind the scope the levels move by `d`, and the
number of variables in scope with them. -/
theorem convert_relevel (hS : S.waiting.Closed S) (hnm : FuelLe Q n m) {k d : Nat} :
    (∀ {level : Nat}, k ≤ level → ∀ l r : Value, Carries Q id id (l.convert S n level r)
      ((l.relevel (shiftFrom k d)).convert S m (level + d) (r.relevel (shiftFrom k d)))) ∧
    (∀ {level : Nat}, k ≤ level → ∀ l r : Neutral, Carries Q id id (l.convert S n level r)
      ((l.relevel (shiftFrom k d)).convert S m (level + d) (r.relevel (shiftFrom k d)))) := by
  induction n generalizing m with
  | zero =>
    obtain rfl | hQ := hnm.zero
    · exact ⟨fun _ _ _ => .error rfl, fun _ _ _ => .error rfl⟩
    · exact ⟨fun _ _ _ => .mends hQ, fun _ _ _ => .mends hQ⟩
  | succ n ih =>
    obtain ⟨m, rfl, h⟩ := hnm.succ
    obtain ⟨ihv, ihk⟩ := ih h
    have ihvs {level : Nat} (hk : k ≤ level) (as bs : List Value) : Carries Q id id
        (convertList (fun a b => a.convert S n level b) as bs)
        (convertList (fun a b => a.convert S m (level + d) b)
          (as.map (Value.relevel (shiftFrom k d))) (bs.map (Value.relevel (shiftFrom k d)))) :=
      convertList_relabel (ihv hk) as bs
    -- Both sides enter closures at levels that the renaming takes to each other.
    have henter {level : Nat} (hk : k ≤ level) (c : Closure) :
        Carries Q id (Value.relevel (shiftFrom k d)) (c.enter S n level)
          ((c.relevel (shiftFrom k d)).enter S m (level + d)) := by
      have := c.enter_relevel (θ := shiftFrom k d) hS h level
      rwa [shiftFrom_of_le hk] at this
    have hnext {level : Nat} (hk : k ≤ level) (v v' : Value) : Carries Q id id
        (v.convert S n (level + 1) v')
        ((v.relevel (shiftFrom k d)).convert S m (level + d + 1)
          (v'.relevel (shiftFrom k d))) := by
      rw [Nat.add_right_comm]
      exact ihv (Nat.le_succ_of_le hk) v v'
    have ihb {level : Nat} (hk : k ≤ level) (D D' : Value) (c c' : Closure) : Carries Q id id
        (do
          if ← D.convert S n level D' then
            let v ← c.enter S n level
            let v' ← c'.enter S n level
            v.convert S n (level + 1) v'
          else .ok false)
        (do
          if ← (D.relevel (shiftFrom k d)).convert S m (level + d)
              (D'.relevel (shiftFrom k d)) then
            let v ← (c.relevel (shiftFrom k d)).enter S m (level + d)
            let v' ← (c'.relevel (shiftFrom k d)).enter S m (level + d)
            v.convert S m (level + d + 1) v'
          else .ok false) := by
      refine .and (ihv hk D D') ?_
      exact .bind (henter hk c) fun v _ => .bind (henter hk c') fun v' _ => hnext hk v v'
    have iheta {level : Nat} (hk : k ≤ level) (c : Closure) (g : Value) : Carries Q id id
        (do
          if ← g.applicable S then
            let v ← c.enter S n level
            let v' ← g.apply S n (c.parameter level)
            v.convert S n (level + 1) v'
          else .ok false)
        (do
          if ← (g.relevel (shiftFrom k d)).applicable S then
            let v ← (c.relevel (shiftFrom k d)).enter S m (level + d)
            let v' ← (g.relevel (shiftFrom k d)).apply S m
              ((c.relevel (shiftFrom k d)).parameter (level + d))
            v.convert S m (level + d + 1) v'
          else .ok false) := by
      have hparameter : (c.relevel (shiftFrom k d)).parameter (level + d) =
          (c.parameter level).relevel (shiftFrom k d) := by
        rw [Closure.parameter, Closure.parameter, Closure.label_relevel, ← shiftFrom_of_le hk]
        rfl
      rw [Value.applicable_relevel, hparameter]
      refine .and (.refl _) ?_
      exact .bind (henter hk c) fun v _ =>
        .bind ((eval_relevel hS h).2.1 g (c.parameter level)) fun v' _ => hnext hk v v'
    refine ⟨fun hk l r => ?_, fun hk l r => ?_⟩
    · cases l with
      | neutral t =>
        cases r with
        | neutral t' => exact ihk hk t t'
        | lam _ c => exact iheta hk c (.neutral t)
        | type | pi | former | con => rfl
      | type u =>
        cases r with
        | lam _ c => exact iheta hk c (.type u)
        | neutral | type | pi | former | con => rfl
      | pi D c =>
        cases r with
        | pi D' c' => exact ihb hk D D' c c'
        | lam _ c' => exact iheta hk c' (.pi D c)
        | neutral | type | former | con => rfl
      | lam D c =>
        cases r with
        | lam D' c' => exact ihb hk D D' c c'
        | neutral t => exact iheta hk c (.neutral t)
        | type u => exact iheta hk c (.type u)
        | pi D' c' => exact iheta hk c (.pi D' c')
        | former F as => exact iheta hk c (.former F as)
        | con K as => exact iheta hk c (.con K as)
      | former F as =>
        cases r with
        | lam _ c => exact iheta hk c (.former F as)
        | former F' as' =>
          rw [Value.relevel, Value.relevel, Value.relevels_eq_map, Value.relevels_eq_map]
          exact .ite (ihvs hk as as') rfl
        | neutral | type | pi | con => rfl
      | con K as =>
        cases r with
        | lam _ c => exact iheta hk c (.con K as)
        | con K' as' =>
          rw [Value.relevel, Value.relevel, Value.relevels_eq_map, Value.relevels_eq_map]
          exact .ite (ihvs hk as as') rfl
        | neutral | type | pi | former => rfl
    · cases l with
      | var label i =>
        cases r with
        | var label' j =>
          have hbeq : (shiftFrom k d i == shiftFrom k d j) = (i == j) := by
            rw [Bool.eq_iff_iff, beq_iff_eq, beq_iff_eq, shiftFrom_inj]
          exact congrArg Except.ok hbeq
        | const | app | elim => rfl
      | const c => cases r <;> rfl
      | app f a =>
        cases r with
        | app f' a' => exact .and (ihk hk f f') (ihv hk a a')
        | var | const | elim => rfl
      | elim t M ms =>
        cases r with
        | elim t' M' ms' =>
          rw [Neutral.relevel, Neutral.relevel, Value.relevels_eq_map, Value.relevels_eq_map]
          exact .and (ihk hk t t') (.and (ihv hk M M') (ihvs hk ms ms'))
        | var | const | app => rfl

/-! ### Reading back -/

section

variable {α β γ δ κ ε : Type} {P : ε → Prop} {g : α → β} {h : γ → δ}

theorem Carries.map_eq {x : Except ε α} {x' : Except ε β}
    (hx : Carries (fun _ => False) id g x x') : x.map g = x' := by
  cases x with
  | ok a => exact Eq.symm hx
  | error e => exact (hx.resolve_left id).symm

theorem map_eq_ok {x : Except ε α} {b : β} (hx : x.map g = .ok b) :
    ∃ a, x = .ok a ∧ g a = b := by
  cases x with
  | ok a => exact ⟨a, rfl, Except.ok.inj hx⟩
  | error e => cases hx

/-- Two sequences, the first of which may give up where the second does not. -/
theorem Mends.bind_map {x : Except ε β} {y : Except ε α} {f : β → Except ε δ}
    {f' : α → Except ε γ} (hx : Mends P x (y.map g))
    (hf : ∀ a, y = .ok a → Mends P (f (g a)) ((f' a).map h)) :
    Mends P (x >>= f) ((y >>= f').map h) := by
  obtain ⟨e, rfl, he⟩ | rfl := hx
  · exact .inl ⟨e, rfl, he⟩
  · cases y with
    | ok a => exact hf a rfl
    | error e => exact .refl _

theorem Mends.mapM_map {r : κ → α} {f : κ → Except ε γ} {f' : α → Except ε δ} {as : List κ}
    (hf : ∀ a ∈ as, Mends P (f' (r a)) ((f a).map h)) :
    Mends P ((as.map r).mapM f') ((as.mapM f).map (List.map h)) := by
  induction as with
  | nil => exact .refl _
  | cons a as ih =>
    rw [List.map_cons, List.mapM_cons, List.mapM_cons]
    refine bind_map (hf a List.mem_cons_self) fun c _ => ?_
    refine bind_map (ih fun x hx => hf x (List.mem_cons_of_mem a hx)) fun cs _ => ?_
    exact .refl _

end

theorem Term.renames_eq_map (ρ : Nat → Nat) (ts : List Term) :
    Term.renames ρ ts = ts.map (Term.rename ρ) := by
  induction ts with
  | nil => rfl
  | cons t ts ih => rw [Term.renames, ih, List.map_cons]

theorem nextNumber_mends (level d : Nat) :
    Mends (· = .overflow) (nextNumber (level + d)) ((nextNumber level).map (· + d)) := by
  by_cases hlt : level + d + 1 < UInt64.size
  · rw [nextNumber_of_lt hlt, nextNumber_of_lt (Nat.lt_of_le_of_lt (by omega) hlt)]
    exact .inr (congrArg Except.ok (Nat.add_right_comm level 1 d))
  · exact .inl ⟨.overflow, if_neg hlt, rfl⟩

/-- **Reading back commutes with making room**, unless the deeper scope takes no further
variable. -/
theorem readBack_relevel (hS : S.waiting.Closed S) (n : Nat) {k d : Nat} :
    (∀ {level : Nat}, k ≤ level → ∀ v : Value, Mends (· = .overflow)
      ((v.relevel (shiftFrom k d)).readBack S n (level + d))
      ((v.readBack S n level).map (Term.rename (shiftFrom (level - k) d)))) ∧
    (∀ {level : Nat}, k ≤ level → ∀ t : Neutral, Mends (· = .overflow)
      ((t.relevel (shiftFrom k d)).readBack S n (level + d))
      ((t.readBack S n level).map (Term.rename (shiftFrom (level - k) d)))) := by
  induction n with
  | zero => exact ⟨fun _ _ => .refl _, fun _ _ => .refl _⟩
  | succ n ih =>
    obtain ⟨ihv, ihk⟩ := ih
    have ihvs {level : Nat} (hk : k ≤ level) (vs : List Value) : Mends (· = .overflow)
        ((vs.map (Value.relevel (shiftFrom k d))).mapM fun v => v.readBack S n (level + d))
        ((vs.mapM fun v : Value => v.readBack S n level).map
          (List.map (Term.rename (shiftFrom (level - k) d)))) :=
      .mapM_map fun v _ => ihv hk v
    have ihb {level : Nat} (hk : k ≤ level) (D : Value) (c : Closure)
        {g : Label → Term → Term → Term}
        (hg : ∀ l A B ρ, (g l A B).rename ρ = g l (A.rename ρ) (B.rename (liftRen ρ))) :
        Mends (· = .overflow)
          (do
            let A ← (D.relevel (shiftFrom k d)).readBack S n (level + d)
            let v ← (c.relevel (shiftFrom k d)).enter S n (level + d)
            let inner ← nextNumber (level + d)
            let B ← v.readBack S n inner
            .ok (g (c.relevel (shiftFrom k d)).label A B))
          ((do
            let A ← D.readBack S n level
            let v ← c.enter S n level
            let inner ← nextNumber level
            let B ← v.readBack S n inner
            .ok (g c.label A B) : Except Halt Term).map
              (Term.rename (shiftFrom (level - k) d))) := by
      have henter : (c.enter S n level).map (Value.relevel (shiftFrom k d)) =
          (c.relevel (shiftFrom k d)).enter S n (level + d) := by
        have := (c.enter_relevel (θ := shiftFrom k d) hS (.refl n) level).map_eq
        rwa [shiftFrom_of_le hk] at this
      refine .bind_map (ihv hk D) fun A _ => .bind_map (.inr henter) fun v _ =>
        .bind_map (nextNumber_mends level d) fun inner hinner => ?_
      obtain rfl := eq_of_nextNumber hinner
      refine .bind_map (ihv (Nat.le_succ_of_le hk) v) fun B _ => .inr (congrArg Except.ok ?_)
      rw [hg, liftRen_shiftFrom, Closure.label_relevel, Nat.succ_sub hk]
    refine ⟨fun hk v => ?_, fun {level} hk t => ?_⟩
    · cases v with
      | neutral t => exact ihk hk t
      | type u => exact .refl _
      | pi D c => exact ihb hk D c (g := Term.pi) fun _ _ _ _ => rfl
      | lam D c => exact ihb hk D c (g := Term.lam) fun _ _ _ _ => rfl
      | former F as =>
        rw [Value.relevel, Value.relevels_eq_map]
        refine .bind_map (ihvs hk as) fun ts _ => ?_
        rw [← Term.renames_eq_map]
        exact .refl _
      | con c as =>
        rw [Value.relevel, Value.relevels_eq_map]
        refine .bind_map (ihvs hk as) fun ts _ => ?_
        rw [← Term.renames_eq_map]
        exact .refl _
    · cases t with
      | var label l =>
        rw [Neutral.relevel, Neutral.readBack, Neutral.readBack]
        by_cases hl : l < level
        · have hindex : level + d - (shiftFrom k d l + 1) =
              shiftFrom (level - k) d (level - (l + 1)) := by
            unfold shiftFrom
            split <;> split <;> omega
          have hlt : shiftFrom k d l < level + d := by
            unfold shiftFrom
            split <;> omega
          rw [if_pos hl, if_pos hlt, hindex]
          exact .refl _
        · have hle : k ≤ l := Nat.le_trans hk (Nat.not_lt.1 hl)
          rw [if_neg hl, shiftFrom_of_le hle, if_neg (by omega)]
          exact .refl _
      | const c => exact .refl _
      | app f a =>
        refine .bind_map (ihk hk f) fun F _ => .bind_map (ihv hk a) fun A _ => ?_
        exact .refl _
      | elim t M ms =>
        rw [Neutral.relevel, Value.relevels_eq_map]
        refine .bind_map (ihk hk t) fun T _ => .bind_map (ihv hk M) fun N _ =>
          .bind_map (ihvs hk ms) fun Ns _ => ?_
        rw [← Term.renames_eq_map]
        exact .refl _

/-! ### Values of a scope -/

/-- Leaves of values with variables below `n` only. -/
def Leaves.below (n : Nat) : Leaves := { Leaves.any with level := (· < n) }

section

variable {k d : Nat} {l r : Value}

theorem Value.All.relevel_below (h : l.All (.below k)) : l.relevel (shiftFrom k d) = l :=
  h.relevel_eq fun _ hl => shiftFrom_of_lt hl

/-- **Values of a scope are compared alike in a deeper one**, with as much fuel or more. -/
theorem Value.convert_deeper (hS : S.waiting.Closed S) (hnm : FuelLe Q n m) (d : Nat)
    (hl : l.All (.below k)) (hr : r.All (.below k)) :
    Carries Q id id (l.convert S n k r) (l.convert S m (k + d) r) := by
  have h := (convert_relevel (d := d) hS hnm).1 (Nat.le_refl k) l r
  rwa [hl.relevel_below, hr.relevel_below] at h

/-- **A value of a scope is read back in a deeper one as the weakened term**, unless the deeper
scope takes no further variable. -/
theorem Value.readBack_deeper (hS : S.waiting.Closed S) (n d : Nat) (hl : l.All (.below k)) :
    Mends (· = .overflow) (l.readBack S n (k + d))
      ((l.readBack S n k).map (Term.rename (· + d))) := by
  have h := (readBack_relevel (d := d) hS n).1 (Nat.le_refl k) l
  rwa [hl.relevel_below, Nat.sub_self, shiftFrom_zero] at h

end

namespace Signature

/-- **Results do not depend on how deep the scope is.**  Values with variables below `n` are
compared in each deeper scope with the same outcome, and are read back as the same terms with the
indices of the deeper scope; only a scope that takes no further variable makes reading back give
up.  So it does not matter which bindings a context has behind the first `n`. -/
theorem Reachable.depth_irrelevant (h : S.Reachable) {n m : Nat} (hnm : n ≤ m) {l r : Value}
    (hl : l.All (.below n)) (hr : r.All (.below n)) :
    (∀ k, l.convert S k m r = l.convert S k n r) ∧
    (∀ j k p q, l.convert S j n r = .ok p → l.convert S k m r = .ok q → q = p) ∧
    (∀ k, l.readBack S k m = .error .overflow ∨
      l.readBack S k m = (l.readBack S k n).map (Term.rename (· + (m - n)))) ∧
    (∀ j k t u, l.readBack S j n = .ok t → l.readBack S k m = .ok u →
      u = t.rename (· + (m - n))) ∧
    ∀ Γ Δ : Context, Γ.signature = S → Δ.signature = S → Γ.level = n → Δ.level = m → ∀ k,
      Δ.convert k l r = Γ.convert k l r ∧ (Δ.quote k l = .error .overflow ∨
        Δ.quote k l = (Γ.quote k l).map (Term.rename (· + (m - n)))) := by
  obtain ⟨Θ, hΘ⟩ := h.coherent
  have hS := waiting_closed hΘ.models
  obtain ⟨d, rfl⟩ := Nat.exists_eq_add_of_le hnm
  rw [Nat.add_sub_cancel_left]
  have hconvert (k : Nat) : l.convert S k (n + d) r = l.convert S k n r := by
    have hk := (Value.convert_deeper hS (.refl k) d hl hr).map_eq
    rw [← hk, Except.map_id]
    rfl
  have hread (k : Nat) : l.readBack S k (n + d) = .error .overflow ∨
      l.readBack S k (n + d) = (l.readBack S k n).map (Term.rename (· + d)) := by
    obtain ⟨_, hk, rfl⟩ | hk := Value.readBack_deeper hS k d hl
    · exact .inl hk
    · exact .inr hk.symm
  refine ⟨hconvert, fun j k p q hp hq => ?_, hread, fun j k t u ht hu => ?_, ?_⟩
  · rw [hconvert] at hq
    -- the run with less fuel is repeated with that of the other, in the same scope
    obtain hjk | hkj := Nat.le_total j k
    · have hp := (Value.convert_deeper hS (.of_le hjk) 0 hl hr).eq_ok hp
      exact Except.ok.inj (hq.symm.trans hp)
    · have hq := (Value.convert_deeper hS (.of_le hkj) 0 hl hr).eq_ok hq
      exact Except.ok.inj (hq.symm.trans hp)
  · obtain hk | hk := hread k
    · cases hk.symm.trans hu
    · obtain ⟨t', ht', rfl⟩ := map_eq_ok (hk.symm.trans hu)
      rw [Value.readBack_unique ht ht']
  · rintro Γ Δ rfl hΔ rfl hlevel k
    rw [Context.convert, Context.quote, hΔ, hlevel]
    exact ⟨hconvert k, hread k⟩

/-- A function that hands its argument over to the variable at level 0. -/
def expansion : Value :=
  .lam (.former ⟨0⟩ []) (.mk [.var none 0] none (.app (.var none 1) (.var none 0)))

/-- Below two more variables the function is entered at level 3 and not at 1: it is still
convertible with the variable, and read back with an index that is larger by two. -/
theorem expansion_depth_irrelevant :
    naturals.Reachable ∧ 1 ≤ 3 ∧ expansion.All (.below 1) ∧ (Value.var none 0).All (.below 1) ∧
    expansion.convert naturals 9 3 (.var none 0) = .ok true ∧
    expansion.readBack naturals 9 1 =
      .ok (.lam none (.former ⟨0⟩ []) (.app (.var none 1) (.var none 0))) ∧
    expansion.readBack naturals 9 3 =
      .ok (.lam none (.former ⟨0⟩ []) (.app (.var none 3) (.var none 0))) := by
  have hl : expansion.All (.below 1) := ⟨trivial, ⟨Nat.zero_lt_one, trivial⟩, trivial, trivial⟩
  have hr : (Value.var none 0).All (.below 1) := Nat.zero_lt_one
  obtain ⟨hconvert, -, hread, -⟩ :=
    reachable_naturals.depth_irrelevant (m := 3) (by decide) hl hr
  refine ⟨reachable_naturals, by decide, hl, hr, (hconvert 9).trans rfl, rfl, ?_⟩
  exact ((hread 9).resolve_left fun h => by cases h).trans rfl

end Signature

end Constructions
