/-
# Computing does not look at labels

A relabelling `f` changes the labels of binders and variables, in terms, values and whole
signatures, and nothing else.  Computing commutes with it: a relabelled term computes, in the
relabelled signature, to the relabelled value, and it fails as the term does.

| procedure | commutes by |
| --- | --- |
| computing, applying, eliminating | `eval_relabel` |
| opening a type, instantiating it | `Value.telescope_relabel`, `Value.instantiate_relabel` |
| reading back | `readBack_relabel` |
| comparing | `convert_relabel` |

Two uses are made of it.  If all labels are dropped, then what differs in labels only computes
alike.  If `f` keeps the labels of some kind and changes all others, then what has only labels
of that kind computes to what has only labels of that kind.

The second run may have more fuel than the first.  Then nothing is said of a first run that
used up its fuel.  The case that `f` changes nothing is that more fuel keeps outcomes.
-/

import Constructions.Proofs.Telescope

namespace Constructions

/-! ### Outcomes that are carried over -/

section

variable {α β γ δ ε ε' : Type}

/-- The second outcome is the first, with its result and its failure carried over.  A failure
of the kind `Q` may be mended. -/
def Carries (Q : ε → Prop) (k : ε → ε') (g : α → β) (x : Except ε α) (x' : Except ε' β) : Prop :=
  match x with
  | .ok a => x' = .ok (g a)
  | .error e => Q e ∨ x' = .error (k e)

namespace Carries

variable {Q : ε → Prop} {k : ε → ε'} {g : α → β} {h : γ → δ}

theorem error {e : ε} {x' : Except ε' β} (hx : x' = .error (k e)) : Carries Q k g (.error e) x' :=
  .inr hx

theorem mends {e : ε} {x' : Except ε' β} (he : Q e) : Carries Q k g (.error e) x' := .inl he

theorem bind {x : Except ε α} {x' : Except ε' β} {f : α → Except ε γ} {f' : β → Except ε' δ}
    (hx : Carries Q k g x x') (hf : ∀ a, x = .ok a → Carries Q k h (f a) (f' (g a))) :
    Carries Q k h (x >>= f) (x' >>= f') := by
  cases x with
  | ok a =>
    rw [show x' = .ok (g a) from hx]
    exact hf a rfl
  | error e =>
    obtain he | rfl := hx
    · exact .mends he
    · exact .error rfl

theorem mapM {κ : Type} {r : α → κ} {f : α → Except ε γ} {f' : κ → Except ε' δ} {as : List α}
    (hf : ∀ a ∈ as, Carries Q k h (f a) (f' (r a))) :
    Carries Q k (List.map h) (as.mapM f) ((as.map r).mapM f') := by
  induction as with
  | nil => rfl
  | cons a as ih =>
    rw [List.mapM_cons, List.map_cons, List.mapM_cons]
    refine bind (hf a List.mem_cons_self) fun c _ => ?_
    refine bind (ih fun x hx => hf x (List.mem_cons_of_mem a hx)) fun cs _ => ?_
    rfl

/-- A map over one list. -/
theorem mapM_same {f : α → Except ε γ} {f' : α → Except ε' δ} {as : List α}
    (hf : ∀ a ∈ as, Carries Q k h (f a) (f' a)) :
    Carries Q k (List.map h) (as.mapM f) (as.mapM f') := by
  have hmap := mapM (r := id) hf
  rwa [List.map_id] at hmap

theorem foldlM {κ : Type} {r : α → κ} {f : γ → α → Except ε γ} {f' : δ → κ → Except ε' δ}
    {as : List α} {c : γ} (hf : ∀ c, ∀ a ∈ as, Carries Q k h (f c a) (f' (h c) (r a))) :
    Carries Q k h (as.foldlM f c) ((as.map r).foldlM f' (h c)) := by
  induction as generalizing c with
  | nil => rfl
  | cons a as ih =>
    rw [List.foldlM_cons, List.map_cons, List.foldlM_cons]
    refine bind (hf c a List.mem_cons_self) fun _ _ => ?_
    exact ih fun c x hx => hf c x (List.mem_cons_of_mem a hx)

theorem forM {κ : Type} {r : α → κ} {f : α → Except ε PUnit} {f' : κ → Except ε' PUnit}
    {as : List α} (hf : ∀ a ∈ as, Carries Q k id (f a) (f' (r a))) :
    Carries Q k id (as.forM f) ((as.map r).forM f') := by
  induction as with
  | nil => rfl
  | cons a as ih =>
    refine bind (hf a List.mem_cons_self) fun _ _ => ?_
    exact ih fun x hx => hf x (List.mem_cons_of_mem a hx)

theorem mapError {ε₁ ε₁' : Type} {q : ε → ε₁} {q' : ε' → ε₁'} {k' : ε₁ → ε₁'} {Q' : ε₁ → Prop}
    (hk : ∀ e, q' (k e) = k' (q e)) {x : Except ε α} {x' : Except ε' β}
    (hx : Carries (fun e => Q' (q e)) k g x x') :
    Carries Q' k' g (x.mapError q) (x'.mapError q') := by
  cases x with
  | ok a =>
    rw [show x' = .ok (g a) from hx]
    rfl
  | error e =>
    obtain he | rfl := hx
    · exact .mends he
    · exact .error (congrArg Except.error (hk e))

theorem lifted {Q : Halt → Prop} {Q' : Stop ε → Prop} {k' : Stop ε → Stop ε'}
    (hQ : ∀ e, Q e → Q' (.halt e)) (hk : ∀ e, k' (.halt e) = .halt e) {x : Except Halt α}
    {x' : Except Halt β} (hx : Carries Q id g x x') :
    Carries Q' k' g (liftM x : Except (Stop ε) α) (liftM x' : Except (Stop ε') β) := by
  cases x with
  | ok a =>
    rw [show x' = .ok (g a) from hx]
    rfl
  | error e =>
    obtain he | rfl := hx
    · exact .mends (hQ e he)
    · exact .error (congrArg Except.error (hk e).symm)

theorem orDangling {Q : Halt → Prop} (o : Option α) :
    Carries Q id g (orDangling o) (orDangling (o.map g)) := by
  cases o with
  | none => exact .error rfl
  | some a => rfl

/-- A conjunction of two comparisons. -/
theorem and {Q : Halt → Prop} {x x' y y' : Except Halt Bool} (hx : Carries Q id id x x')
    (hy : Carries Q id id y y') :
    Carries Q id id (do if ← x then y else .ok false) (do if ← x' then y' else .ok false) := by
  refine bind hx fun b _ => ?_
  cases b with
  | true => exact hy
  | false => rfl

/-- An outcome in which nothing is carried over. -/
theorem refl {Q : ε → Prop} (x : Except ε α) : Carries Q id id x x := by
  cases x with
  | ok a => rfl
  | error e => exact .error rfl

theorem ite {p : Prop} [Decidable p] {x y : Except ε α} {x' y' : Except ε' β}
    (hx : Carries Q k g x x') (hy : Carries Q k g y y') :
    Carries Q k g (if p then x else y) (if p then x' else y') := by
  split
  · exact hx
  · exact hy

/-- A choice between two ways to a value, and what follows. -/
theorem ite_bind {p : Prop} [Decidable p] {x y : Except ε α} {x' y' : Except ε' β}
    {f : α → Except ε γ} {f' : β → Except ε' δ} (hx : Carries Q k g x x')
    (hy : Carries Q k g y y') (hf : ∀ a, Carries Q k h (f a) (f' (g a))) :
    Carries Q k h (if p then x >>= f else y >>= f) (if p then x' >>= f' else y' >>= f') :=
  .ite (bind hx fun a _ => hf a) (bind hy fun a _ => hf a)

theorem eq_ok {x : Except ε α} {x' : Except ε' β} {a : α} (hx : Carries Q k g x x')
    (ha : x = .ok a) : x' = .ok (g a) := by
  subst ha
  exact hx

end Carries

end

/-- `m` units of fuel do for what `n` units do for, and may mend what lacks fuel if there are
more of them. -/
structure FuelLe (Q : Halt → Prop) (n m : Nat) : Prop where
  le : n ≤ m
  mends : n < m → Q .exhausted

namespace FuelLe

variable {Q : Halt → Prop} {n m : Nat}

theorem zero (h : FuelLe Q 0 m) : m = 0 ∨ Q .exhausted := by
  obtain rfl | hm := Nat.eq_zero_or_pos m
  · exact .inl rfl
  · exact .inr (h.mends hm)

theorem succ (h : FuelLe Q (n + 1) m) : ∃ m', m = m' + 1 ∧ FuelLe Q n m' := by
  have hle := h.le
  refine ⟨m - 1, by omega, by omega, fun hlt => h.mends ?_⟩
  omega

theorem refl (n : Nat) : FuelLe (fun _ => False) n n :=
  ⟨Nat.le_refl n, fun h => absurd h (Nat.lt_irrefl n)⟩

/-- A larger amount of fuel. -/
theorem of_le (h : n ≤ m) : FuelLe (· = .exhausted) n m := ⟨h, fun _ => rfl⟩

end FuelLe

/-! ### Relabelling -/

mutual

/-- A term with its labels changed. -/
def Term.relabel (f : Label → Label) : Term → Term
  | .var l i => .var (f l) i
  | .const c => .const c
  | .letIn l A a b => .letIn (f l) (A.relabel f) (a.relabel f) (b.relabel f)
  | .type u => .type u
  | .pi l A B => .pi (f l) (A.relabel f) (B.relabel f)
  | .lam l A b => .lam (f l) (A.relabel f) (b.relabel f)
  | .app t a => .app (t.relabel f) (a.relabel f)
  | .former F as => .former F (Term.relabels f as)
  | .con c as => .con c (Term.relabels f as)
  | .elim t M ms => .elim (t.relabel f) (M.relabel f) (Term.relabels f ms)

/-- Terms with their labels changed. -/
def Term.relabels (f : Label → Label) : List Term → List Term
  | [] => []
  | t :: ts => t.relabel f :: Term.relabels f ts

end

mutual

/-- A value with its labels changed, also in the environments and bodies of its closures. -/
def Value.relabel (f : Label → Label) : Value → Value
  | .neutral m => .neutral (m.relabel f)
  | .type u => .type u
  | .pi d c => .pi (d.relabel f) (c.relabel f)
  | .lam d c => .lam (d.relabel f) (c.relabel f)
  | .former F as => .former F (Value.relabels f as)
  | .con c as => .con c (Value.relabels f as)

/-- A neutral value with its labels changed. -/
def Neutral.relabel (f : Label → Label) : Neutral → Neutral
  | .var l i => .var (f l) i
  | .const c => .const c
  | .app t a => .app (t.relabel f) (a.relabel f)
  | .elim t M ms => .elim (t.relabel f) (M.relabel f) (Value.relabels f ms)

/-- A closure with its labels changed. -/
def Closure.relabel (f : Label → Label) : Closure → Closure
  | .mk env l b => .mk (Value.relabels f env) (f l) (b.relabel f)

/-- Values with their labels changed. -/
def Value.relabels (f : Label → Label) : List Value → List Value
  | [] => []
  | v :: vs => v.relabel f :: Value.relabels f vs

end

/-- A constant with the labels changed in its type and its definition. -/
def Global.relabel (f : Label → Label) (g : Global) : Global :=
  ⟨g.type.relabel f, g.definition.map (Value.relabel f)⟩

/-- A family with the labels changed in its type. -/
def Family.relabel (f : Label → Label) (F : Family) : Family := { F with type := F.type.relabel f }

/-- A constructor with the labels changed in its type. -/
def Constructor.relabel (f : Label → Label) (K : Constructor) : Constructor :=
  { K with type := K.type.relabel f }

/-- A signature with the labels changed in everything declared.  Names are no labels. -/
def Signature.relabel (f : Label → Label) (S : Signature) : Signature where
  entries := S.entries
  globals := S.globals.map fun g => (g.1, g.2.relabel f)
  families := S.families.map (Family.relabel f)
  constructors := S.constructors.map (Constructor.relabel f)
  numbered i h := by
    rw [Array.getElem_map]
    exact S.numbered i _

variable (f : Label → Label)

@[simp] theorem Term.relabels_eq_map (ts : List Term) :
    Term.relabels f ts = ts.map (Term.relabel f) := by
  induction ts with
  | nil => rfl
  | cons t ts ih => rw [Term.relabels, ih, List.map_cons]

@[simp] theorem Value.relabels_eq_map (vs : List Value) :
    Value.relabels f vs = vs.map (Value.relabel f) := by
  induction vs with
  | nil => rfl
  | cons v vs ih => rw [Value.relabels, ih, List.map_cons]

mutual

theorem Term.relabel_id : ∀ t : Term, t.relabel id = t
  | .var _ _ => rfl
  | .const _ => rfl
  | .letIn _ A a b => by rw [Term.relabel, A.relabel_id, a.relabel_id, b.relabel_id, id]
  | .type _ => rfl
  | .pi _ A B => by rw [Term.relabel, A.relabel_id, B.relabel_id, id]
  | .lam _ A b => by rw [Term.relabel, A.relabel_id, b.relabel_id, id]
  | .app t a => by rw [Term.relabel, t.relabel_id, a.relabel_id]
  | .former _ as => by rw [Term.relabel, Term.relabels_id as]
  | .con _ as => by rw [Term.relabel, Term.relabels_id as]
  | .elim t M ms => by rw [Term.relabel, t.relabel_id, M.relabel_id, Term.relabels_id ms]

theorem Term.relabels_id : ∀ ts : List Term, Term.relabels id ts = ts
  | [] => rfl
  | t :: ts => by rw [Term.relabels, t.relabel_id, Term.relabels_id ts]

end

mutual

theorem Value.relabel_id : ∀ v : Value, v.relabel id = v
  | .neutral m => by rw [Value.relabel, m.relabel_id]
  | .type _ => rfl
  | .pi d c => by rw [Value.relabel, d.relabel_id, c.relabel_id]
  | .lam d c => by rw [Value.relabel, d.relabel_id, c.relabel_id]
  | .former _ as => by rw [Value.relabel, Value.relabels_id as]
  | .con _ as => by rw [Value.relabel, Value.relabels_id as]

theorem Neutral.relabel_id : ∀ m : Neutral, m.relabel id = m
  | .var _ _ => rfl
  | .const _ => rfl
  | .app t a => by rw [Neutral.relabel, t.relabel_id, a.relabel_id]
  | .elim t M ms => by rw [Neutral.relabel, t.relabel_id, M.relabel_id, Value.relabels_id ms]

theorem Closure.relabel_id : ∀ c : Closure, c.relabel id = c
  | .mk env _ b => by rw [Closure.relabel, Value.relabels_id env, b.relabel_id, id]

theorem Value.relabels_id : ∀ vs : List Value, Value.relabels id vs = vs
  | [] => rfl
  | v :: vs => by rw [Value.relabels, v.relabel_id, Value.relabels_id vs]

end

theorem Closure.relabel_mk (env : Env) (l : Label) (b : Term) :
    (Closure.mk env l b).relabel f = .mk (env.map (Value.relabel f)) (f l) (b.relabel f) := by
  rw [Closure.relabel, Value.relabels_eq_map]

@[simp] theorem Closure.env_relabel (c : Closure) :
    (c.relabel f).env = c.env.map (Value.relabel f) := by
  obtain ⟨env, l, b⟩ := c
  rw [Closure.relabel_mk]
  rfl

@[simp] theorem Closure.body_relabel (c : Closure) : (c.relabel f).body = c.body.relabel f := by
  obtain ⟨env, l, b⟩ := c
  rfl

@[simp] theorem Closure.label_relabel (c : Closure) : (c.relabel f).label = f c.label := by
  obtain ⟨env, l, b⟩ := c
  rfl

@[simp] theorem Closure.parameter_relabel (c : Closure) (level : Nat) :
    (c.relabel f).parameter level = (c.parameter level).relabel f := by
  obtain ⟨env, l, b⟩ := c
  rfl

namespace Signature

variable (S : Signature)

@[simp] theorem entry?_relabel (c : Name) : Signature.entry? (S.relabel f) c = S.entry? c := rfl

@[simp] theorem global?_relabel (c : Name) :
    (S.relabel f).global? c = (S.global? c).map (Global.relabel f) := by
  dsimp only [global?, relabel]
  induction S.globals with
  | nil => rfl
  | cons g gs ih =>
    rw [List.map_cons, List.lookup_cons, List.lookup_cons]
    cases c == g.1 with
    | true => rfl
    | false => exact ih

@[simp] theorem family?_relabel (id : FamilyId) :
    (S.relabel f).family? id = (S.family? id).map (Family.relabel f) := Array.getElem?_map

@[simp] theorem constructor?_relabel (id : ConstructorId) :
    (S.relabel f).constructor? id = (S.constructor? id).map (Constructor.relabel f) :=
  Array.getElem?_map

theorem unfold_relabel (c : Name) : (S.relabel f).unfold c = (S.unfold c).relabel f := by
  unfold unfold
  rw [global?_relabel]
  cases S.global? c with
  | none => rfl
  | some g => cases hd : g.definition <;> simp [Global.relabel, hd, Value.relabel, Neutral.relabel]

theorem relabel_id : S.relabel id = S := by
  have hv : Value.relabel id = id := funext Value.relabel_id
  have hG : (fun g : Name × Global => (g.1, g.2.relabel id)) = id := by
    funext g
    simp [Global.relabel, hv]
  have hF : Family.relabel id = id := by
    funext F
    simp [Family.relabel, hv]
  have hK : Constructor.relabel id = id := by
    funext K
    simp [Constructor.relabel, hv]
  simp [relabel, hG, hF, hK]

end Signature

theorem Dispatch.select?_map {α β : Type} (g : α → β) (table : Dispatch) (c : ConstructorId)
    (ms : List α) : table.select? c (ms.map g) = (table.select? c ms).map g := by
  unfold select?
  cases table.positions.lookup c with
  | none => rfl
  | some i => exact List.getElem?_map

/-! ### Computing -/

variable {S : Signature} {Q : Halt → Prop} {n m : Nat}

/-- **Relabelling commutes with computing.** -/
theorem eval_relabel (hnm : FuelLe Q n m) :
    (∀ (env : Env) (t : Term), Carries Q id (Value.relabel f) (t.eval S n env)
      ((t.relabel f).eval (S.relabel f) m (env.map (Value.relabel f)))) ∧
    (∀ g a : Value, Carries Q id (Value.relabel f) (g.apply S n a)
      ((g.relabel f).apply (S.relabel f) m (a.relabel f))) ∧
    (∀ (M t : Value) (ms : List Value),
      Carries (fun s => Q s.toHalt) id (Value.relabel f) (Value.eliminate S n M ms t)
        (Value.eliminate (S.relabel f) m (M.relabel f) (ms.map (Value.relabel f))
          (t.relabel f))) := by
  induction n generalizing m with
  | zero =>
    obtain rfl | hQ := hnm.zero
    · exact ⟨fun _ _ => .error rfl, fun _ _ => .error rfl, fun _ _ _ => .error rfl⟩
    · exact ⟨fun _ _ => .mends hQ, fun _ _ => .mends hQ, fun _ _ _ => .mends hQ⟩
  | succ n ih =>
    obtain ⟨m, rfl, h⟩ := hnm.succ
    obtain ⟨ihe, iha, ihm⟩ := ih h
    have ihes (env : Env) (ts : List Term) : Carries Q id (List.map (Value.relabel f))
        (ts.mapM fun t => t.eval S n env)
        ((ts.map (Term.relabel f)).mapM fun t =>
          t.eval (S.relabel f) m (env.map (Value.relabel f))) :=
      .mapM fun t _ => ihe env t
    refine ⟨?_, ?_, ?_⟩
    · intro env t
      cases t with
      | var l i =>
        rw [Term.relabel, Term.eval, Term.eval, List.getElem?_map]
        exact .orDangling _
      | const c =>
        rw [Term.relabel, Term.eval, Term.eval, Signature.unfold_relabel]
        rfl
      | letIn l A a b =>
        refine .bind (ihe env a) fun v _ => ?_
        exact ihe (v :: env) b
      | type u => rfl
      | pi l A B =>
        refine .bind (ihe env A) fun d _ => ?_
        rw [← Closure.relabel_mk]
        rfl
      | lam l A b =>
        refine .bind (ihe env A) fun d _ => ?_
        rw [← Closure.relabel_mk]
        rfl
      | app t a => exact .bind (ihe env t) fun g _ => .bind (ihe env a) fun v _ => iha g v
      | former F as =>
        rw [Term.relabel, Term.relabels_eq_map]
        refine .bind (ihes env as) fun vs _ => ?_
        rw [← Value.relabels_eq_map]
        rfl
      | con c as =>
        rw [Term.relabel, Term.relabels_eq_map]
        refine .bind (ihes env as) fun vs _ => ?_
        rw [← Value.relabels_eq_map]
        rfl
      | elim t M ms =>
        rw [Term.relabel, Term.relabels_eq_map]
        refine .bind (ihe env t) fun v _ => .bind (ihe env M) fun N _ =>
          .bind (ihes env ms) fun ns _ => ?_
        refine .mapError (fun _ => ?_) (ihm N v ns)
        rfl
    · intro g a
      cases g with
      | neutral k => rfl
      | type u => exact .error rfl
      | pi d c => exact .error rfl
      | lam d c =>
        obtain ⟨env, l, b⟩ := c
        rw [Value.relabel, Closure.relabel_mk]
        exact ihe (a :: env) b
      | former F as =>
        rw [Value.relabel, Value.relabels_eq_map]
        refine congrArg (fun vs => Except.ok (Value.former F vs)) ?_
        rw [Value.relabels_eq_map, List.map_append, List.map_singleton]
      | con c as =>
        rw [Value.relabel, Value.relabels_eq_map]
        refine congrArg (fun vs => Except.ok (Value.con c vs)) ?_
        rw [Value.relabels_eq_map, List.map_append, List.map_singleton]
    · intro M t ms
      cases t with
      | neutral k =>
        rw [← Value.relabels_eq_map]
        rfl
      | type u => exact .error rfl
      | pi d c => exact .error rfl
      | lam d c => exact .error rfl
      | former F as => exact .error rfl
      | con c as =>
        rw [Value.relabel, Value.relabels_eq_map, Value.eliminate, Value.eliminate,
          Signature.constructor?_relabel, List.length_map]
        refine .bind (.lifted (fun _ h => h) (fun _ => rfl) (.orDangling _)) fun K _ => ?_
        refine .ite (.error rfl) ?_
        refine .bind (g := Family.relabel f) (.lifted (fun _ h => h) (fun _ => rfl) ?_)
          fun F _ => ?_
        · rw [Signature.family?_relabel]
          exact .orDangling _
        rw [show (F.relabel f).dispatch? = F.dispatch? from rfl]
        cases F.dispatch? with
        | none => exact .error rfl
        | some table =>
          dsimp only
          rw [Dispatch.select?_map]
          cases table.select? c ms with
          | none => exact .error rfl
          | some method =>
            refine .bind (g := List.map (Value.relabel f)) ?_ fun rs _ => ?_
            · refine .mapM_same fun i _ => ?_
              refine .bind (g := Value.relabel f) (.lifted (fun _ h => h) (fun _ => rfl) ?_)
                fun a _ => ihm M a ms
              rw [List.getElem?_map]
              exact .orDangling _
            · rw [Constructor.relabel, ← List.map_drop, ← List.map_append]
              exact .foldlM fun g a _ => .lifted (fun _ h => h) (fun _ => rfl) (iha g a)

theorem Value.applyAll_relabel (hnm : FuelLe Q n m) (g : Value) (as : List Value) :
    Carries Q id (Value.relabel f) (g.applyAll S n as)
      ((g.relabel f).applyAll (S.relabel f) m (as.map (Value.relabel f))) :=
  .foldlM fun g a _ => (eval_relabel f hnm).2.1 g a

theorem Closure.instantiate_relabel (hnm : FuelLe Q n m) (c : Closure) (a : Value) :
    Carries Q id (Value.relabel f) (c.instantiate S n a)
      ((c.relabel f).instantiate (S.relabel f) m (a.relabel f)) := by
  obtain ⟨env, l, b⟩ := c
  rw [Closure.relabel_mk]
  exact (eval_relabel f hnm).1 (a :: env) b

theorem Closure.enter_relabel (hnm : FuelLe Q n m) (c : Closure) (level : Nat) :
    Carries Q id (Value.relabel f) (c.enter S n level)
      ((c.relabel f).enter (S.relabel f) m level) := by
  rw [Closure.enter, Closure.enter, Closure.parameter_relabel]
  exact c.instantiate_relabel f hnm _

/-! ### Types -/

/-- An opened binder with its labels changed. -/
def OpenedBinder.relabel (b : OpenedBinder) : OpenedBinder :=
  ⟨f b.label, b.domain.relabel f, b.parameter.relabel f⟩

/-- An opened type with its labels changed. -/
def Telescope.relabel (T : Telescope) : Telescope :=
  ⟨T.binders.map (OpenedBinder.relabel f), T.body.relabel f⟩

@[simp] theorem Telescope.length_relabel (T : Telescope) : (T.relabel f).length = T.length :=
  List.length_map _

@[simp] theorem Telescope.domains_relabel (T : Telescope) :
    (T.relabel f).domains = T.domains.map (Value.relabel f) := by
  simp [Telescope.domains, Telescope.relabel, OpenedBinder.relabel]

@[simp] theorem Telescope.parameters_relabel (T : Telescope) :
    (T.relabel f).parameters = T.parameters.map (Value.relabel f) := by
  simp [Telescope.parameters, Telescope.relabel, OpenedBinder.relabel]

/-- **Relabelling commutes with opening a type.** -/
theorem Value.telescope_relabel (hnm : FuelLe Q n m) (level : Nat) (limit : Option Nat)
    (ty : Value) : Carries Q id (Telescope.relabel f) (ty.telescope S n level limit)
      ((ty.relabel f).telescope (S.relabel f) m level limit) := by
  induction n generalizing m level limit ty with
  | zero =>
    obtain rfl | hQ := hnm.zero
    · exact .error rfl
    · exact .mends hQ
  | succ n ih =>
    obtain ⟨m, rfl, h⟩ := hnm.succ
    by_cases hstop : limit ≠ some 0 → ∀ d c, ty ≠ .pi d c
    · have hstop' : limit ≠ some 0 → ∀ d c, ty.relabel f ≠ .pi d c := by
        intro hl d c e
        cases ty with
        | pi d c => exact hstop hl d c rfl
        | neutral | type | lam | former | con => cases e
      rw [telescope_stop S n level hstop, telescope_stop _ m level hstop']
      rfl
    simp only [not_forall, not_not] at hstop
    obtain ⟨hlimit, d, c, rfl⟩ := hstop
    rw [Value.relabel, telescope_pi S n level hlimit, telescope_pi _ m level hlimit]
    refine .bind (c.enter_relabel f h level) fun body _ => ?_
    refine .bind (ih h (level + 1) (limit.map (· - 1)) body) fun T _ => ?_
    rw [Closure.label_relabel, Closure.parameter_relabel]
    rfl

/-- **Relabelling commutes with instantiating a type.** -/
theorem Value.instantiate_relabel (hnm : FuelLe Q n m) (ty : Value) (as : List Value) :
    Carries Q id (Value.relabel f) (ty.instantiate S n as)
      ((ty.relabel f).instantiate (S.relabel f) m (as.map (Value.relabel f))) := by
  refine .foldlM fun ty a _ => ?_
  cases ty with
  | pi d c => exact c.instantiate_relabel f hnm a
  | neutral | type | lam | former | con => exact .error rfl

/-! ### Reading back -/

/-- **Relabelling commutes with reading back.** -/
theorem readBack_relabel (hnm : FuelLe Q n m) :
    (∀ (level : Nat) (v : Value), Carries Q id (Term.relabel f) (v.readBack S n level)
      ((v.relabel f).readBack (S.relabel f) m level)) ∧
    (∀ (level : Nat) (k : Neutral), Carries Q id (Term.relabel f) (k.readBack S n level)
      ((k.relabel f).readBack (S.relabel f) m level)) := by
  induction n generalizing m with
  | zero =>
    obtain rfl | hQ := hnm.zero
    · exact ⟨fun _ _ => .error rfl, fun _ _ => .error rfl⟩
    · exact ⟨fun _ _ => .mends hQ, fun _ _ => .mends hQ⟩
  | succ n ih =>
    obtain ⟨m, rfl, h⟩ := hnm.succ
    obtain ⟨ihv, ihk⟩ := ih h
    have ihvs (level : Nat) (vs : List Value) : Carries Q id (List.map (Term.relabel f))
        (vs.mapM fun v => v.readBack S n level)
        ((vs.map (Value.relabel f)).mapM fun v => v.readBack (S.relabel f) m level) :=
      .mapM fun v _ => ihv level v
    have ihb (level : Nat) (d : Value) (c : Closure) {g : Label → Term → Term → Term}
        (hg : ∀ l d b, (g l d b).relabel f = g (f l) (d.relabel f) (b.relabel f)) :
        Carries Q id (Term.relabel f)
          (do
            let d ← d.readBack S n level
            let v ← c.enter S n level
            let inner ← nextNumber level
            let b ← v.readBack S n inner
            .ok (g c.label d b))
          (do
            let d ← (d.relabel f).readBack (S.relabel f) m level
            let v ← (c.relabel f).enter (S.relabel f) m level
            let inner ← nextNumber level
            let b ← v.readBack (S.relabel f) m inner
            .ok (g (c.relabel f).label d b)) := by
      refine .bind (ihv level d) fun d' _ => .bind (c.enter_relabel f h level) fun v _ => ?_
      refine .bind (.refl (nextNumber level)) fun inner _ => .bind (ihv inner v) fun b _ => ?_
      rw [Closure.label_relabel]
      exact congrArg Except.ok (hg _ _ _).symm
    refine ⟨fun level v => ?_, fun level k => ?_⟩
    · cases v with
      | neutral k => exact ihk level k
      | type u => rfl
      | pi d c => exact ihb level d c (g := Term.pi) fun _ _ _ => rfl
      | lam d c => exact ihb level d c (g := Term.lam) fun _ _ _ => rfl
      | former F as =>
        rw [Value.relabel, Value.relabels_eq_map]
        refine .bind (ihvs level as) fun ts _ => ?_
        rw [← Term.relabels_eq_map]
        rfl
      | con c as =>
        rw [Value.relabel, Value.relabels_eq_map]
        refine .bind (ihvs level as) fun ts _ => ?_
        rw [← Term.relabels_eq_map]
        rfl
    · cases k with
      | var l i => exact .ite rfl (.error rfl)
      | const c => rfl
      | app g a => exact .bind (ihk level g) fun g' _ => .bind (ihv level a) fun a' _ => rfl
      | elim t M ms =>
        rw [Neutral.relabel, Value.relabels_eq_map]
        refine .bind (ihk level t) fun t' _ => .bind (ihv level M) fun M' _ =>
          .bind (ihvs level ms) fun ms' _ => ?_
        rw [← Term.relabels_eq_map]
        rfl

/-! ### Comparing -/

theorem Value.applicable_relabel (v : Value) :
    Carries Q id id (v.applicable S) ((v.relabel f).applicable (S.relabel f)) := by
  cases v with
  | former F as =>
    rw [Value.relabel, Value.relabels_eq_map, Value.applicable, Value.applicable,
      Signature.family?_relabel, List.length_map]
    exact .bind (.orDangling _) fun D _ => rfl
  | con c as =>
    rw [Value.relabel, Value.relabels_eq_map, Value.applicable, Value.applicable,
      Signature.constructor?_relabel, List.length_map]
    exact .bind (.orDangling _) fun K _ => rfl
  | neutral | type | pi | lam => rfl

theorem convertList_relabel {α : Type} {r : α → α} {compare compare' : α → α → Except Halt Bool}
    (h : ∀ a b, Carries Q id id (compare a b) (compare' (r a) (r b))) (as bs : List α) :
    Carries Q id id (convertList compare as bs) (convertList compare' (as.map r) (bs.map r)) := by
  have hzip (as bs : List α) : Carries Q id id (convertZip compare as bs)
      (convertZip compare' (as.map r) (bs.map r)) := by
    induction as generalizing bs with
    | nil => rfl
    | cons a as ih =>
      cases bs with
      | nil => rfl
      | cons b bs => exact .and (h a b) (ih bs)
  rw [convertList, convertList, List.length_map, List.length_map]
  exact .ite (hzip as bs) rfl

/-- **Relabelling commutes with comparing.** -/
theorem convert_relabel (hnm : FuelLe Q n m) :
    (∀ (level : Nat) (l r : Value), Carries Q id id (l.convert S n level r)
      ((l.relabel f).convert (S.relabel f) m level (r.relabel f))) ∧
    (∀ (level : Nat) (l r : Neutral), Carries Q id id (l.convert S n level r)
      ((l.relabel f).convert (S.relabel f) m level (r.relabel f))) := by
  induction n generalizing m with
  | zero =>
    obtain rfl | hQ := hnm.zero
    · exact ⟨fun _ _ _ => .error rfl, fun _ _ _ => .error rfl⟩
    · exact ⟨fun _ _ _ => .mends hQ, fun _ _ _ => .mends hQ⟩
  | succ n ih =>
    obtain ⟨m, rfl, h⟩ := hnm.succ
    obtain ⟨ihv, ihk⟩ := ih h
    have ihvs (level : Nat) (as bs : List Value) : Carries Q id id
        (convertList (fun a b => a.convert S n level b) as bs)
        (convertList (fun a b => a.convert (S.relabel f) m level b) (as.map (Value.relabel f))
          (bs.map (Value.relabel f))) := convertList_relabel (ihv level) as bs
    have ihb (level : Nat) (d d' : Value) (c c' : Closure) : Carries Q id id
        (do
          if ← d.convert S n level d' then
            let v ← c.enter S n level
            let v' ← c'.enter S n level
            v.convert S n (level + 1) v'
          else .ok false)
        (do
          if ← (d.relabel f).convert (S.relabel f) m level (d'.relabel f) then
            let v ← (c.relabel f).enter (S.relabel f) m level
            let v' ← (c'.relabel f).enter (S.relabel f) m level
            v.convert (S.relabel f) m (level + 1) v'
          else .ok false) := by
      refine .and (ihv level d d') ?_
      exact .bind (c.enter_relabel f h level) fun v _ => .bind (c'.enter_relabel f h level)
        fun v' _ => ihv (level + 1) v v'
    have iheta (level : Nat) (c : Closure) (g : Value) : Carries Q id id
        (do
          if ← g.applicable S then
            let v ← c.enter S n level
            let v' ← g.apply S n (c.parameter level)
            v.convert S n (level + 1) v'
          else .ok false)
        (do
          if ← (g.relabel f).applicable (S.relabel f) then
            let v ← (c.relabel f).enter (S.relabel f) m level
            let v' ← (g.relabel f).apply (S.relabel f) m ((c.relabel f).parameter level)
            v.convert (S.relabel f) m (level + 1) v'
          else .ok false) := by
      refine .and (g.applicable_relabel f) ?_
      rw [Closure.parameter_relabel]
      exact .bind (c.enter_relabel f h level) fun v _ =>
        .bind ((eval_relabel f h).2.1 g (c.parameter level)) fun v' _ => ihv (level + 1) v v'
    refine ⟨fun level l r => ?_, fun level l r => ?_⟩
    · cases l with
      | neutral k =>
        cases r with
        | neutral k' => exact ihk level k k'
        | lam d c => exact iheta level c (.neutral k)
        | type | pi | former | con => rfl
      | type u =>
        cases r with
        | lam d c => exact iheta level c (.type u)
        | neutral | type | pi | former | con => rfl
      | pi d c =>
        cases r with
        | pi d' c' => exact ihb level d d' c c'
        | lam d' c' => exact iheta level c' (.pi d c)
        | neutral | type | former | con => rfl
      | lam d c =>
        cases r with
        | lam d' c' => exact ihb level d d' c c'
        | neutral k => exact iheta level c (.neutral k)
        | type u => exact iheta level c (.type u)
        | pi d' c' => exact iheta level c (.pi d' c')
        | former F as => exact iheta level c (.former F as)
        | con K as => exact iheta level c (.con K as)
      | former F as =>
        cases r with
        | lam d c => exact iheta level c (.former F as)
        | former F' as' =>
          rw [Value.relabel, Value.relabel, Value.relabels_eq_map, Value.relabels_eq_map]
          exact .ite (ihvs level as as') rfl
        | neutral | type | pi | con => rfl
      | con c as =>
        cases r with
        | lam d c' => exact iheta level c' (.con c as)
        | con c' as' =>
          rw [Value.relabel, Value.relabel, Value.relabels_eq_map, Value.relabels_eq_map]
          exact .ite (ihvs level as as') rfl
        | neutral | type | pi | former => rfl
    · cases l with
      | var l i => cases r <;> rfl
      | const c => cases r <;> rfl
      | app g a =>
        cases r with
        | app g' a' => exact .and (ihk level g g') (ihv level a a')
        | var | const | elim => rfl
      | elim t M ms =>
        cases r with
        | elim t' M' ms' =>
          rw [Neutral.relabel, Neutral.relabel, Value.relabels_eq_map, Value.relabels_eq_map]
          exact .and (ihk level t t') (.and (ihv level M M') (ihvs level ms ms'))
        | var | const | app => rfl

theorem convertDomains_relabel (hnm : FuelLe Q n m) (level : Nat) (ds es : List Value) :
    Carries Q id id (convertDomains S n level ds es)
      (convertDomains (S.relabel f) m level (ds.map (Value.relabel f))
        (es.map (Value.relabel f))) := by
  induction ds generalizing level es with
  | nil => rfl
  | cons d ds ih =>
    cases es with
    | nil => rfl
    | cons e es => exact .and ((convert_relabel f hnm).1 level d e) (ih (level + 1) es)

end Constructions
