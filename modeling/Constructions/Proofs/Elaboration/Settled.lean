/-
# Terms that computing keeps

Conditions on a term under which it comes back from its text, and what the last of them is for.

| condition | without it |
| --- | --- |
| `Term.Named` | a name is resolved to another binder, or to none |
| `Term.Flat` | an argument is moved into the list of a former or constructor |
| `Term.Settled` | the domain of a function is replaced by its normal form |

The last one is about functions whose type is synthesized: one that is called or eliminated, or
is a motive or a part of a type.  The domain of such a function is computed and read back.  It
comes back as it was if it is normal and none of its variables is a local definition
(`Term.eval_still`).  A function that is checked against its type keeps its domain.
-/

import Constructions.Proofs.Normalization.Idempotent
import Constructions.Proofs.Printing

namespace Constructions

namespace Term

/-! ### Conditions on terms -/

mutual

/-- Each variable has a name, and the innermost binder with that name is its own; no declared name
is hidden by a binder.  The labels of the binders around the term are given, the innermost
first. -/
def Named (S : Signature) : List Label → Term → Prop
  | ls, .var label i => label ≠ none ∧ ls.idxOf? label = some i
  | ls, .const c => some c ∉ ls
  | ls, .letIn label A a b => A.Named S ls ∧ a.Named S ls ∧ b.Named S (label :: ls)
  | _, .type _ => True
  | ls, .pi label A B => A.Named S ls ∧ B.Named S (label :: ls)
  | ls, .lam label A b => A.Named S ls ∧ b.Named S (label :: ls)
  | ls, .app f a => f.Named S ls ∧ a.Named S ls
  | ls, .former id as => some (S.familyName id) ∉ ls ∧ AllNamed S ls as
  | ls, .con id as => some (S.constructorName id) ∉ ls ∧ AllNamed S ls as
  | ls, .elim t M ms => t.Named S ls ∧ M.Named S ls ∧ AllNamed S ls ms

/-- The same for a list of terms. -/
def AllNamed (S : Signature) : List Label → List Term → Prop
  | _, [] => True
  | ls, t :: ts => t.Named S ls ∧ AllNamed S ls ts

end

mutual

/-- Nothing is applied to a former or constructor: its arguments are in its list. -/
def Flat : Term → Prop
  | .var _ _ => True
  | .const _ => True
  | .letIn _ A a b => A.Flat ∧ a.Flat ∧ b.Flat
  | .type _ => True
  | .pi _ A B => A.Flat ∧ B.Flat
  | .lam _ A b => A.Flat ∧ b.Flat
  | .app f a => f.apply a = .app f a ∧ f.Flat ∧ a.Flat
  | .former _ as => AllFlat as
  | .con _ as => AllFlat as
  | .elim t M ms => t.Flat ∧ M.Flat ∧ AllFlat ms

/-- The same for a list of terms. -/
def AllFlat : List Term → Prop
  | [] => True
  | t :: ts => t.Flat ∧ AllFlat ts

end

mutual

/-- No variable of a term is a local definition.  For each binder around the term it is given
whether its variable stands for itself, the innermost first. -/
def Stands : List Bool → Term → Prop
  | fs, .var _ i => fs[i]? = some true
  | _, .const _ => True
  | fs, .letIn _ A a b => A.Stands fs ∧ a.Stands fs ∧ b.Stands (false :: fs)
  | _, .type _ => True
  | fs, .pi _ A B => A.Stands fs ∧ B.Stands (true :: fs)
  | fs, .lam _ A b => A.Stands fs ∧ b.Stands (true :: fs)
  | fs, .app f a => f.Stands fs ∧ a.Stands fs
  | fs, .former _ as => AllStand fs as
  | fs, .con _ as => AllStand fs as
  | fs, .elim t M ms => t.Stands fs ∧ M.Stands fs ∧ AllStand fs ms

/-- The same for a list of terms. -/
def AllStand : List Bool → List Term → Prop
  | _, [] => True
  | fs, t :: ts => t.Stands fs ∧ AllStand fs ts

end

/-- A term that computes to itself: it is normal, and none of its variables is a local
definition. -/
def Still (S : Signature) (fs : List Bool) (t : Term) : Prop :=
  t.Normal (fun c => S.definition? c = none) ∧ t.Stands fs

mutual

/-- Each function whose type is synthesized has a domain that computes to itself.  The term itself
is `checked` against a type or synthesized. -/
def Settled (S : Signature) : List Bool → (checked : Bool) → Term → Prop
  | _, _, .var _ _ => True
  | _, _, .const _ => True
  | fs, checked, .letIn _ A a b =>
      A.Settled S fs false ∧ a.Settled S fs true ∧ b.Settled S (false :: fs) checked
  | _, _, .type _ => True
  | fs, _, .pi _ A B => A.Settled S fs false ∧ B.Settled S (true :: fs) false
  | fs, checked, .lam _ A b => (checked = false → A.Still S fs) ∧ A.Settled S fs false ∧
      b.Settled S (true :: fs) checked
  | fs, _, .app f a => f.Settled S fs false ∧ a.Settled S fs true
  | fs, _, .former _ as => AllSettled S fs as
  | fs, _, .con _ as => AllSettled S fs as
  | fs, _, .elim t M ms => t.Settled S fs false ∧ M.Settled S fs false ∧ AllSettled S fs ms

/-- The same for a list of terms that are checked. -/
def AllSettled (S : Signature) : List Bool → List Term → Prop
  | _, [] => True
  | fs, t :: ts => t.Settled S fs true ∧ AllSettled S fs ts

end

variable {S : Signature} {ls : List Label} {fs : List Bool} {ts : List Term}

theorem allNamed_iff : AllNamed S ls ts ↔ ∀ t ∈ ts, t.Named S ls := by
  induction ts with
  | nil => simp [AllNamed]
  | cons t ts ih => rw [AllNamed, ih, List.forall_mem_cons]

theorem allFlat_iff : AllFlat ts ↔ ∀ t ∈ ts, t.Flat := by
  induction ts with
  | nil => simp [AllFlat]
  | cons t ts ih => rw [AllFlat, ih, List.forall_mem_cons]

theorem allSettled_iff : AllSettled S fs ts ↔ ∀ t ∈ ts, t.Settled S fs true := by
  induction ts with
  | nil => simp [AllSettled]
  | cons t ts ih => rw [AllSettled, ih, List.forall_mem_cons]

mutual

/-- A variable that is found by its name has the label of its binder. -/
theorem Named.labelled : ∀ {ls : List Label} (t : Term), t.Named S ls → t.Labelled ls
  | ls, .var label i, h => by
    obtain ⟨hi, hlabel, _⟩ := List.idxOf?_eq_some_iff.1 h.2
    exact List.getElem?_eq_some_iff.2 ⟨hi, hlabel⟩
  | _, .const _, _ => trivial
  | _, .letIn _ A a b, h => ⟨labelled A h.1, labelled a h.2.1, labelled b h.2.2⟩
  | _, .type _, _ => trivial
  | _, .pi _ A B, h => ⟨labelled A h.1, labelled B h.2⟩
  | _, .lam _ A b, h => ⟨labelled A h.1, labelled b h.2⟩
  | _, .app f a, h => ⟨labelled f h.1, labelled a h.2⟩
  | _, .former _ as, h => allLabelled as h.2
  | _, .con _ as, h => allLabelled as h.2
  | _, .elim t M ms, h => ⟨labelled t h.1, labelled M h.2.1, allLabelled ms h.2.2⟩

theorem Named.allLabelled : ∀ {ls : List Label} (ts : List Term), AllNamed S ls ts →
    AllLabelled ls ts
  | _, [], _ => trivial
  | _, t :: ts, h => ⟨labelled t h.1, allLabelled ts h.2⟩

end

end Term

/-! ### Terms that compute to themselves -/

/-- Each variable that stands for itself does so in the environment. -/
def Env.Mirrors (ls : List Label) (fs : List Bool) (env : Env) : Prop :=
  ∀ (i : Nat) (label : Label), ls[i]? = some label → fs[i]? = some true →
    env[i]? = some (.var label (ls.length - (i + 1)))

theorem Env.Mirrors.cons {ls : List Label} {fs : List Bool} {env : Env} (h : env.Mirrors ls fs)
    (label : Label) : Env.Mirrors (label :: ls) (true :: fs) (.var label ls.length :: env) := by
  intro i label' hl hf
  cases i with
  | zero =>
    cases hl
    rfl
  | succ i =>
    rw [List.getElem?_cons_succ] at hl hf ⊢
    rw [h i label' hl hf, List.length_cons, Nat.add_sub_add_right]

/-- A value is read back as one term, if at all. -/
def Value.OnlyAs (S : Signature) (level : Nat) (v : Value) (t : Term) : Prop :=
  ∀ m q, v.readBack S m level = .ok q → q = t

/-- A neutral value is read back as one term, if at all. -/
def Neutral.OnlyAs (S : Signature) (level : Nat) (k : Neutral) (t : Term) : Prop :=
  ∀ m q, k.readBack S m level = .ok q → q = t

section

variable {S : Signature} {level : Nat}

theorem Neutral.OnlyAs.value {k : Neutral} {t : Term} (h : k.OnlyAs S level t) :
    (Value.neutral k).OnlyAs S level t := by
  intro m q hq
  cases m with
  | zero => cases hq
  | succ m => exact h m q hq

theorem Value.OnlyAs.neutral {k : Neutral} {t : Term} (h : (Value.neutral k).OnlyAs S level t) :
    k.OnlyAs S level t := fun m q hq => h (m + 1) q hq

/-- What is read back from a function type or a function over an entered body. -/
theorem onlyAs_binder {d : Value} {A b : Term} {env : Env} {label : Label}
    (hd : d.OnlyAs S level A)
    (hb : ∀ n v, b.eval S n (.var label level :: env) = .ok v → v.OnlyAs S (level + 1) b) :
    (Value.pi d (.mk env label b)).OnlyAs S level (.pi label A b) ∧
      (Value.lam d (.mk env label b)).OnlyAs S level (.lam label A b) := by
  constructor
  all_goals
    intro m q hq
    cases m with
    | zero => cases hq
    | succ m =>
      obtain ⟨A', hA', hq⟩ := bind_eq_ok.1 hq
      obtain ⟨v, hv, hq⟩ := bind_eq_ok.1 hq
      obtain ⟨inner, hinner, hq⟩ := bind_eq_ok.1 hq
      obtain ⟨b', hb', hq⟩ := bind_eq_ok.1 hq
      cases hq
      rw [eq_of_nextNumber hinner] at hb'
      rw [hd m A' hA', hb m v hv m b' hb']
      rfl

theorem onlyAs_mapM {vs : List Value} {ts : List Term}
    (h : List.Forall₂ (Value.OnlyAs S level) vs ts) {m : Nat} {qs : List Term}
    (hqs : vs.mapM (fun v => v.readBack S m level) = .ok qs) : qs = ts := by
  rw [mapM_eq_ok] at hqs
  induction h generalizing qs with
  | nil =>
    cases hqs
    rfl
  | cons hv _ ih =>
    cases hqs with
    | cons hq hqs => rw [hv m _ hq, ih hqs]

theorem onlyAs_tag {vs : List Value} {ts : List Term}
    (h : List.Forall₂ (Value.OnlyAs S level) vs ts) :
    (∀ F, (Value.former F vs).OnlyAs S level (.former F ts)) ∧
      ∀ c, (Value.con c vs).OnlyAs S level (.con c ts) := by
  constructor
  all_goals
    intro id m q hq
    cases m with
    | zero => cases hq
    | succ m =>
      obtain ⟨qs, hqs, hq⟩ := bind_eq_ok.1 hq
      cases hq
      rw [onlyAs_mapM h hqs]

theorem onlyAs_app {k : Neutral} {v : Value} {f a : Term} (hf : k.OnlyAs S level f)
    (ha : v.OnlyAs S level a) : (Neutral.app k v).OnlyAs S level (.app f a) := by
  intro m q hq
  cases m with
  | zero => cases hq
  | succ m =>
    obtain ⟨f', hf', hq⟩ := bind_eq_ok.1 hq
    obtain ⟨a', ha', hq⟩ := bind_eq_ok.1 hq
    cases hq
    rw [hf m f' hf', ha m a' ha']

theorem onlyAs_elim {k : Neutral} {v : Value} {vs : List Value} {t M : Term} {ms : List Term}
    (ht : k.OnlyAs S level t) (hM : v.OnlyAs S level M)
    (hms : List.Forall₂ (Value.OnlyAs S level) vs ms) :
    (Neutral.elim k v vs).OnlyAs S level (.elim t M ms) := by
  intro m q hq
  cases m with
  | zero => cases hq
  | succ m =>
    obtain ⟨t', ht', hq⟩ := bind_eq_ok.1 hq
    obtain ⟨M', hM', hq⟩ := bind_eq_ok.1 hq
    obtain ⟨qs, hqs, hq⟩ := bind_eq_ok.1 hq
    cases hq
    rw [ht m t' ht', hM m M' hM', onlyAs_mapM hms hqs]

theorem Term.eval_succ {n : Nat} {env : Env} {t : Term} {v : Value}
    (h : t.eval S n env = .ok v) : ∃ n', n = n' + 1 := by
  cases n with
  | zero => cases h
  | succ n => exact ⟨n, rfl⟩

mutual

/-- **A normal term whose variables stand for themselves computes to itself**: its value is read
back as the term, and is neutral if the term waits for a variable or a constant. -/
theorem Term.eval_still : ∀ (t : Term) {ls : List Label} {fs : List Bool} {env : Env} {n : Nat}
    {v : Value}, env.Mirrors ls fs → t.Labelled ls → t.Still S fs → t.eval S n env = .ok v →
    v.OnlyAs S ls.length t ∧ (t.Waits → ∃ k, v = .neutral k)
  | .var label i, ls, fs, env, n, v, henv, hl, h, hv => by
    obtain ⟨n, rfl⟩ := Term.eval_succ hv
    cases (henv i label hl h.2).symm.trans (orDangling_eq_ok.1 hv)
    refine ⟨Neutral.OnlyAs.value fun m q hq => ?_, fun _ => ⟨_, rfl⟩⟩
    have hi : i < ls.length := (List.getElem?_eq_some_iff.1 hl).1
    cases m with
    | zero => cases hq
    | succ m =>
      rw [Neutral.readBack, if_pos (by omega)] at hq
      cases hq
      rw [show ls.length - (ls.length - (i + 1) + 1) = i by omega]
  | .const c, ls, fs, env, n, v, _, _, h, hv => by
    obtain ⟨n, rfl⟩ := Term.eval_succ hv
    have hc : S.definition? c = none := h.1
    rw [Term.eval, Signature.unfold, ← Signature.definition?, hc] at hv
    cases hv
    refine ⟨Neutral.OnlyAs.value fun m q hq => ?_, fun _ => ⟨_, rfl⟩⟩
    cases m with
    | zero => cases hq
    | succ m =>
      cases hq
      rfl
  | .letIn _ _ _ _, _, _, _, _, _, _, _, h, _ => h.1.elim
  | .type l, ls, fs, env, n, v, _, _, _, hv => by
    obtain ⟨n, rfl⟩ := Term.eval_succ hv
    cases hv
    refine ⟨fun m q hq => ?_, False.elim⟩
    cases m with
    | zero => cases hq
    | succ m =>
      cases hq
      rfl
  | .pi label A B, ls, fs, env, n, v, henv, hl, h, hv => by
    obtain ⟨n, rfl⟩ := Term.eval_succ hv
    obtain ⟨d, hd, hv⟩ := bind_eq_ok.1 hv
    cases hv
    refine ⟨(onlyAs_binder (Term.eval_still A henv hl.1 ⟨h.1.1, h.2.1⟩ hd).1 ?_).1, False.elim⟩
    intro n v hv
    exact (Term.eval_still B (henv.cons label) hl.2 ⟨h.1.2, h.2.2⟩ hv).1
  | .lam label A b, ls, fs, env, n, v, henv, hl, h, hv => by
    obtain ⟨n, rfl⟩ := Term.eval_succ hv
    obtain ⟨d, hd, hv⟩ := bind_eq_ok.1 hv
    cases hv
    refine ⟨(onlyAs_binder (Term.eval_still A henv hl.1 ⟨h.1.1, h.2.1⟩ hd).1 ?_).2, False.elim⟩
    intro n v hv
    exact (Term.eval_still b (henv.cons label) hl.2 ⟨h.1.2, h.2.2⟩ hv).1
  | .app f a, ls, fs, env, n, v, henv, hl, h, hv => by
    obtain ⟨n, rfl⟩ := Term.eval_succ hv
    obtain ⟨w, hw, hv⟩ := bind_eq_ok.1 hv
    obtain ⟨u, hu, hv⟩ := bind_eq_ok.1 hv
    obtain ⟨hf, hwaits⟩ := Term.eval_still f henv hl.1 ⟨h.1.2.1, h.2.1⟩ hw
    obtain ⟨ha, _⟩ := Term.eval_still a henv hl.2 ⟨h.1.2.2, h.2.2⟩ hu
    obtain ⟨k, rfl⟩ := hwaits h.1.1
    obtain ⟨n, rfl⟩ := Term.eval_succ hw
    cases hv
    exact ⟨(onlyAs_app hf.neutral ha).value, fun _ => ⟨_, rfl⟩⟩
  | .former id as, ls, fs, env, n, v, henv, hl, h, hv => by
    obtain ⟨n, rfl⟩ := Term.eval_succ hv
    obtain ⟨vs, hvs, hv⟩ := bind_eq_ok.1 hv
    cases hv
    have has := Term.evals_still as henv hl h.1 h.2 hvs
    exact ⟨(onlyAs_tag has).1 id, False.elim⟩
  | .con id as, ls, fs, env, n, v, henv, hl, h, hv => by
    obtain ⟨n, rfl⟩ := Term.eval_succ hv
    obtain ⟨vs, hvs, hv⟩ := bind_eq_ok.1 hv
    cases hv
    have has := Term.evals_still as henv hl h.1 h.2 hvs
    exact ⟨(onlyAs_tag has).2 id, False.elim⟩
  | .elim t M ms, ls, fs, env, n, v, henv, hl, h, hv => by
    obtain ⟨n, rfl⟩ := Term.eval_succ hv
    obtain ⟨w, hw, hv⟩ := bind_eq_ok.1 hv
    obtain ⟨u, hu, hv⟩ := bind_eq_ok.1 hv
    obtain ⟨vs, hvs, hv⟩ := bind_eq_ok.1 hv
    obtain ⟨ht, hwaits⟩ := Term.eval_still t henv hl.1 ⟨h.1.2.1, h.2.1⟩ hw
    obtain ⟨hM, _⟩ := Term.eval_still M henv hl.2.1 ⟨h.1.2.2.1, h.2.2.1⟩ hu
    have hms := Term.evals_still ms henv hl.2.2 h.1.2.2.2 h.2.2.2 hvs
    obtain ⟨k, rfl⟩ := hwaits h.1.1
    obtain ⟨n, rfl⟩ := Term.eval_succ hw
    cases hv
    exact ⟨(onlyAs_elim ht.neutral hM hms).value, fun _ => ⟨_, rfl⟩⟩

theorem Term.evals_still : ∀ (ts : List Term) {ls : List Label} {fs : List Bool} {env : Env}
    {n : Nat} {vs : List Value}, env.Mirrors ls fs → Term.AllLabelled ls ts →
    Term.Normals (fun c => S.definition? c = none) ts → Term.AllStand fs ts →
    ts.mapM (fun t => t.eval S n env) = .ok vs →
    List.Forall₂ (Value.OnlyAs S ls.length) vs ts
  | [], _, _, _, _, vs, _, _, _, _, hvs => by
    cases hvs
    exact .nil
  | t :: ts, _, _, _, _, vs, henv, hl, hn, hs, hvs => by
    cases mapM_eq_ok.1 hvs with
    | cons hv hrest =>
      exact .cons (Term.eval_still t henv hl.1 ⟨hn.1, hs.1⟩ hv).1
        (Term.evals_still ts henv hl.2 hn.2 hs.2 (mapM_eq_ok.2 hrest))

end

end

end Constructions
