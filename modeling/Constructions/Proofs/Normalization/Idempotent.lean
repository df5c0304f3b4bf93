/-
# Normalizing twice

Computing never looks at the label of a variable: it takes the value of the variable, and a
variable that is entered under a binder has the label of the binder.  So a normal form is
labelled correctly, whatever the labels of the term were, and normalizing it changes nothing.

| statement | theorem |
| --- | --- |
| computing makes no new variables | `eval_vars` |
| reading back labels each variable after its binder | `Value.readBack_labelled` |
| a value that was read back is read back again from what it was read back as | `readBack_eval` |
| normalizing is idempotent, labels included | `Signature.Reachable.normalize_idempotent` |

The third statement needs no typing and no more fuel: a term that was read back is computed and
read back along the same binders that its value was.
-/

import Constructions.Proofs.Parametricity

namespace Constructions

/-! ### The variables of a value -/

mutual

/-- All variables of a value, each a label and a level, are of the kind `P`; also those in the
environments of its closures. -/
def Value.Vars (P : Label → Nat → Prop) : Value → Prop
  | .neutral m => m.Vars P
  | .type _ => True
  | .pi d c => d.Vars P ∧ c.Vars P
  | .lam d c => d.Vars P ∧ c.Vars P
  | .former _ as => Value.AllVars P as
  | .con _ as => Value.AllVars P as

/-- The same for a neutral value. -/
def Neutral.Vars (P : Label → Nat → Prop) : Neutral → Prop
  | .var label l => P label l
  | .const _ => True
  | .app f a => f.Vars P ∧ a.Vars P
  | .elim t M ms => t.Vars P ∧ M.Vars P ∧ Value.AllVars P ms

/-- The same for a closure, whose body has no levels. -/
def Closure.Vars (P : Label → Nat → Prop) : Closure → Prop
  | .mk env _ _ => Value.AllVars P env

/-- The same for a list of values. -/
def Value.AllVars (P : Label → Nat → Prop) : List Value → Prop
  | [] => True
  | v :: vs => v.Vars P ∧ Value.AllVars P vs

end

section

variable {P P' : Label → Nat → Prop} {S : Signature}

theorem Value.allVars_iff {vs : List Value} : Value.AllVars P vs ↔ ∀ v ∈ vs, v.Vars P := by
  induction vs with
  | nil => simp [Value.AllVars]
  | cons v vs ih => rw [Value.AllVars, ih, List.forall_mem_cons]

theorem Value.AllVars.nil : Value.AllVars P [] := trivial

theorem Value.AllVars.cons {v : Value} {vs : List Value} (h : v.Vars P)
    (hs : Value.AllVars P vs) : Value.AllVars P (v :: vs) := ⟨h, hs⟩

theorem Value.allVars_append {vs ws : List Value} :
    Value.AllVars P (vs ++ ws) ↔ Value.AllVars P vs ∧ Value.AllVars P ws := by
  rw [allVars_iff, allVars_iff, allVars_iff, List.forall_mem_append]

mutual

theorem Value.Vars.mono (h : ∀ label l, P label l → P' label l) :
    ∀ {v : Value}, v.Vars P → v.Vars P'
  | .neutral _, hm => Neutral.Vars.mono h hm
  | .type _, _ => trivial
  | .pi _ _, ⟨hd, hc⟩ => ⟨Value.Vars.mono h hd, Closure.Vars.mono h hc⟩
  | .lam _ _, ⟨hd, hc⟩ => ⟨Value.Vars.mono h hd, Closure.Vars.mono h hc⟩
  | .former _ _, has => Value.AllVars.mono h has
  | .con _ _, has => Value.AllVars.mono h has

theorem Neutral.Vars.mono (h : ∀ label l, P label l → P' label l) :
    ∀ {m : Neutral}, m.Vars P → m.Vars P'
  | .var label l, hl => h label l hl
  | .const _, _ => trivial
  | .app _ _, ⟨hf, ha⟩ => ⟨Neutral.Vars.mono h hf, Value.Vars.mono h ha⟩
  | .elim _ _ _, ⟨ht, hM, hms⟩ =>
    ⟨Neutral.Vars.mono h ht, Value.Vars.mono h hM, Value.AllVars.mono h hms⟩

theorem Closure.Vars.mono (h : ∀ label l, P label l → P' label l) :
    ∀ {c : Closure}, c.Vars P → c.Vars P'
  | .mk _ _ _, henv => Value.AllVars.mono h henv

theorem Value.AllVars.mono (h : ∀ label l, P label l → P' label l) :
    ∀ {vs : List Value}, Value.AllVars P vs → Value.AllVars P' vs
  | [], _ => trivial
  | _ :: _, ⟨hv, hvs⟩ => ⟨Value.Vars.mono h hv, Value.AllVars.mono h hvs⟩

end

mutual

/-- A value without variables in scope has variables of any kind. -/
theorem Value.InScope.vars : ∀ {v : Value}, v.InScope S 0 → v.Vars P
  | .neutral _, hm => Neutral.InScope.vars hm
  | .type _, _ => trivial
  | .pi _ _, ⟨hd, hc⟩ => ⟨Value.InScope.vars hd, Closure.InScope.vars hc⟩
  | .lam _ _, ⟨hd, hc⟩ => ⟨Value.InScope.vars hd, Closure.InScope.vars hc⟩
  | .former _ _, ⟨_, has⟩ => Value.AllInScope.vars has
  | .con _ _, ⟨_, has⟩ => Value.AllInScope.vars has

theorem Neutral.InScope.vars : ∀ {m : Neutral}, m.InScope S 0 → m.Vars P
  | .var _ l, hl => (Nat.not_lt_zero l hl).elim
  | .const _, _ => trivial
  | .app _ _, ⟨hf, ha⟩ => ⟨Neutral.InScope.vars hf, Value.InScope.vars ha⟩
  | .elim _ _ _, ⟨ht, hM, hms⟩ =>
    ⟨Neutral.InScope.vars ht, Value.InScope.vars hM, Value.AllInScope.vars hms⟩

theorem Closure.InScope.vars : ∀ {c : Closure}, c.InScope S 0 → c.Vars P
  | .mk _ _ _, ⟨henv, _⟩ => Value.AllInScope.vars henv

theorem Value.AllInScope.vars : ∀ {vs : List Value}, Value.AllInScope S 0 vs → Value.AllVars P vs
  | [], _ => trivial
  | _ :: _, ⟨hv, hvs⟩ => ⟨Value.InScope.vars hv, Value.AllInScope.vars hvs⟩

end

theorem Signature.DefinesInScope.unfold_vars (h : S.DefinesInScope) (c : Name) :
    (S.unfold c).Vars P := by
  rw [Signature.unfold, ← Signature.definition?]
  cases hc : S.definition? c with
  | none => trivial
  | some v => exact (h c v hc).vars

/-- **Computing makes no new variables.**  The variables of the term do not matter: each stands
for its value in the environment. -/
theorem eval_vars (hS : S.DefinesInScope) (n : Nat) :
    (∀ {env : Env} {t : Term} {v : Value}, Value.AllVars P env → t.eval S n env = .ok v →
      v.Vars P) ∧
    (∀ {f a v : Value}, f.Vars P → a.Vars P → f.apply S n a = .ok v → v.Vars P) ∧
    (∀ {M t v : Value} {ms : List Value}, M.Vars P → Value.AllVars P ms → t.Vars P →
      Value.eliminate S n M ms t = .ok v → v.Vars P) := by
  induction n with
  | zero => exact ⟨fun _ h => (nomatch h), fun _ _ h => (nomatch h), fun _ _ _ h => (nomatch h)⟩
  | succ n ih =>
    obtain ⟨ihe, iha, ihm⟩ := ih
    have ihes {env : Env} {ts : List Term} {vs : List Value} (henv : Value.AllVars P env)
        (h : ts.mapM (fun t => t.eval S n env) = .ok vs) : Value.AllVars P vs :=
      Value.allVars_iff.2 (forall_mem_of_forall₂ ((mapM_eq_ok.1 h).imp fun _ _ => ihe henv))
    have ihas {as : List Value} {f v : Value} (hf : f.Vars P) (has : Value.AllVars P as)
        (h : f.applyAll S n as = .ok v) : v.Vars P := by
      induction as generalizing f with
      | nil => exact Except.ok.inj h ▸ hf
      | cons a as ihas =>
        obtain ⟨g, hg, h⟩ := bind_eq_ok.1 h
        exact ihas (iha hf has.1 hg) has.2 h
    refine ⟨?_, ?_, ?_⟩
    · intro env t v henv h
      cases t with
      | var label i =>
        exact Value.allVars_iff.1 henv v (List.mem_of_getElem? (orDangling_eq_ok.1 h))
      | const c =>
        cases h
        exact hS.unfold_vars c
      | letIn label A a b =>
        obtain ⟨w, hw, h⟩ := bind_eq_ok.1 h
        exact ihe (.cons (ihe henv hw) henv) h
      | type l =>
        cases h
        trivial
      | pi label A B | lam label A b =>
        obtain ⟨d, hd, h⟩ := bind_eq_ok.1 h
        cases h
        exact ⟨ihe henv hd, henv⟩
      | app f a =>
        obtain ⟨g, hg, h⟩ := bind_eq_ok.1 h
        obtain ⟨w, hw, h⟩ := bind_eq_ok.1 h
        exact iha (ihe henv hg) (ihe henv hw) h
      | former F as | con c as =>
        obtain ⟨vs, hvs, h⟩ := bind_eq_ok.1 h
        cases h
        exact ihes henv hvs
      | elim t M ms =>
        obtain ⟨w, hw, h⟩ := bind_eq_ok.1 h
        obtain ⟨m, hm, h⟩ := bind_eq_ok.1 h
        obtain ⟨ns, hns, h⟩ := bind_eq_ok.1 h
        rw [mapError_eq_ok] at h
        exact ihm (ihe henv hm) (ihes henv hns) (ihe henv hw) h
    · intro f a v hf ha h
      cases f with
      | neutral m =>
        cases h
        exact ⟨hf, ha⟩
      | type l | pi d c => cases h
      | lam d c =>
        obtain ⟨env, label, body⟩ := c
        exact ihe (.cons ha hf.2) h
      | former F as | con c as =>
        cases h
        exact Value.allVars_append.2 ⟨hf, ha, trivial⟩
    · intro M t v ms hM hms ht h
      cases t with
      | neutral m =>
        cases h
        exact ⟨ht, hM, hms⟩
      | con c as =>
        obtain ⟨K, F, cs, m, rs, _, _, _, _, hm, hrs, h⟩ := eliminate_con_eq_ok h
        obtain ⟨i, _, hm⟩ := Dispatch.select?_eq_some hm
        have has := Value.allVars_iff.1 ht
        have hrs : Value.AllVars P rs := by
          refine Value.allVars_iff.2 (forall_mem_of_forall₂ (hrs.imp ?_))
          rintro i r ⟨a, ha, hr⟩
          exact ihm hM hms (has a (List.mem_of_getElem? ha)) hr
        have hfs : Value.AllVars P (as.drop K.parameterCount) :=
          Value.allVars_iff.2 fun a ha => has a (List.mem_of_mem_drop ha)
        exact ihas (Value.allVars_iff.1 hms m (List.mem_of_getElem? hm))
          (Value.allVars_append.2 ⟨hfs, hrs⟩) h
      | type l | pi d c | lam d c | former F as => cases h

end

/-! ### Labels and binders -/

mutual

/-- Each variable has the label of its binder.  The labels of the binders around the term are
given, the innermost first. -/
def Term.Labelled : List Label → Term → Prop
  | ls, .var label i => ls[i]? = some label
  | _, .const _ => True
  | ls, .letIn label A a b => A.Labelled ls ∧ a.Labelled ls ∧ b.Labelled (label :: ls)
  | _, .type _ => True
  | ls, .pi label A B => A.Labelled ls ∧ B.Labelled (label :: ls)
  | ls, .lam label A b => A.Labelled ls ∧ b.Labelled (label :: ls)
  | ls, .app f a => f.Labelled ls ∧ a.Labelled ls
  | ls, .former _ as => Term.AllLabelled ls as
  | ls, .con _ as => Term.AllLabelled ls as
  | ls, .elim t M ms => t.Labelled ls ∧ M.Labelled ls ∧ Term.AllLabelled ls ms

/-- The same for a list of terms. -/
def Term.AllLabelled : List Label → List Term → Prop
  | _, [] => True
  | ls, t :: ts => t.Labelled ls ∧ Term.AllLabelled ls ts

end

theorem Term.allLabelled_iff {ls : List Label} {ts : List Term} :
    Term.AllLabelled ls ts ↔ ∀ t ∈ ts, t.Labelled ls := by
  induction ts with
  | nil => simp [Term.AllLabelled]
  | cons t ts ih => rw [Term.AllLabelled, ih, List.forall_mem_cons]

/-- The binder at a level has a label. -/
def LabelAt (ls : List Label) (label : Label) (l : Nat) : Prop :=
  ls[ls.length - (l + 1)]? = some label ∧ l < ls.length

theorem LabelAt.cons {ls : List Label} {label : Label} {l : Nat} (h : LabelAt ls label l)
    (label' : Label) : LabelAt (label' :: ls) label l := by
  obtain ⟨h, hl⟩ := h
  refine ⟨?_, Nat.lt_succ_of_lt hl⟩
  have hi : (label' :: ls).length - (l + 1) = (ls.length - (l + 1)) + 1 := by
    rw [List.length_cons]
    omega
  rw [hi, List.getElem?_cons_succ, h]

theorem labelAt_cons_length (ls : List Label) (label : Label) :
    LabelAt (label :: ls) label ls.length := by
  refine ⟨?_, Nat.lt_succ_self _⟩
  rw [List.length_cons, Nat.sub_self, List.getElem?_cons_zero]

section

variable {S : Signature} (hS : S.DefinesInScope)

include hS

/-- A binder that is entered brings its label into scope. -/
theorem Closure.enter_vars {ls : List Label} {c : Closure} {n : Nat} {v : Value}
    (hc : c.Vars (LabelAt ls)) (h : c.enter S n ls.length = .ok v) :
    v.Vars (LabelAt (c.label :: ls)) := by
  obtain ⟨env, label, body⟩ := c
  have henv : Value.AllVars (LabelAt (label :: ls)) env :=
    Value.AllVars.mono (fun _ _ hl => hl.cons label) hc
  exact (eval_vars hS n).1 (.cons (v := .var label ls.length) (labelAt_cons_length ls label) henv) h

theorem readBack_labelled (n : Nat) :
    (∀ {ls : List Label} {v : Value} {t : Term}, v.Vars (LabelAt ls) →
      v.readBack S n ls.length = .ok t → t.Labelled ls) ∧
    (∀ {ls : List Label} {m : Neutral} {t : Term}, m.Vars (LabelAt ls) →
      m.readBack S n ls.length = .ok t → t.Labelled ls) := by
  induction n with
  | zero => exact ⟨fun _ h => (nomatch h), fun _ h => (nomatch h)⟩
  | succ n ih =>
    obtain ⟨ihv, ihm⟩ := ih
    have ihvs {ls : List Label} {vs : List Value} {ts : List Term}
        (hvs : Value.AllVars (LabelAt ls) vs)
        (h : vs.mapM (fun v => v.readBack S n ls.length) = .ok ts) : Term.AllLabelled ls ts := by
      rw [Value.allVars_iff] at hvs
      refine Term.allLabelled_iff.2 (forall_mem_of_forall₂ (forall₂_of_mem (mapM_eq_ok.1 h) ?_))
      exact fun v hv _ ht => ihv (hvs v hv) ht
    have ihb {ls : List Label} {c : Closure} {v : Value} {inner : Nat} {b : Term}
        (hc : c.Vars (LabelAt ls)) (hv : c.enter S n ls.length = .ok v)
        (hinner : nextNumber ls.length = .ok inner) (hb : v.readBack S n inner = .ok b) :
        b.Labelled (c.label :: ls) := by
      rw [eq_of_nextNumber hinner] at hb
      exact ihv (Closure.enter_vars hS hc hv) hb
    refine ⟨?_, ?_⟩
    · intro ls v t hv h
      cases v with
      | neutral m => exact ihm hv h
      | type l =>
        cases h
        trivial
      | pi d c | lam d c =>
        obtain ⟨d', hd, h⟩ := bind_eq_ok.1 h
        obtain ⟨w, hw, h⟩ := bind_eq_ok.1 h
        obtain ⟨inner, hinner, h⟩ := bind_eq_ok.1 h
        obtain ⟨b, hb, h⟩ := bind_eq_ok.1 h
        cases h
        exact ⟨ihv hv.1 hd, ihb hv.2 hw hinner hb⟩
      | former F as | con c as =>
        obtain ⟨ts, hts, h⟩ := bind_eq_ok.1 h
        cases h
        exact ihvs hv hts
    · intro ls m t hm h
      cases m with
      | var label l =>
        rw [Neutral.readBack, if_pos hm.2] at h
        cases h
        exact hm.1
      | const c =>
        cases h
        trivial
      | app f a =>
        obtain ⟨g, hg, h⟩ := bind_eq_ok.1 h
        obtain ⟨b, hb, h⟩ := bind_eq_ok.1 h
        cases h
        exact ⟨ihm hm.1 hg, ihv hm.2 hb⟩
      | elim t M ms =>
        obtain ⟨u, hu, h⟩ := bind_eq_ok.1 h
        obtain ⟨N, hN, h⟩ := bind_eq_ok.1 h
        obtain ⟨ns, hns, h⟩ := bind_eq_ok.1 h
        cases h
        exact ⟨ihm hm.1 hu, ihv hm.2.1 hN, ihvs hm.2.2 hns⟩

/-- **Reading back labels each variable after its binder.** -/
theorem Value.readBack_labelled {n : Nat} {ls : List Label} {v : Value} {t : Term}
    (hv : v.Vars (LabelAt ls)) (h : v.readBack S n ls.length = .ok t) : t.Labelled ls :=
  (Constructions.readBack_labelled hS n).1 hv h

end

/-! ### Computing what was read back -/

/-- The environment in which each variable stands for itself. -/
def Env.identity : List Label → Env
  | [] => []
  | label :: ls => .var label ls.length :: Env.identity ls

theorem Env.getElem?_identity {ls : List Label} {i : Nat} {label : Label}
    (h : ls[i]? = some label) :
    (Env.identity ls)[i]? = some (.var label (ls.length - (i + 1))) := by
  induction ls generalizing i with
  | nil => cases h
  | cons label' ls ih =>
    cases i with
    | zero =>
      cases h
      rfl
    | succ i =>
      rw [List.getElem?_cons_succ] at h
      rw [Env.identity, List.getElem?_cons_succ, ih h, List.length_cons, Nat.add_sub_add_right]

/-- Two maps over lists undo each other if they do at each element. -/
theorem exists_mapM_eq_ok {ε α β : Type} {f : α → Except ε β} {g : β → Except ε α} {as : List α}
    (h : ∀ a ∈ as, ∃ b, f a = .ok b ∧ g b = .ok a) :
    ∃ bs, as.mapM f = .ok bs ∧ bs.mapM g = .ok as := by
  induction as with
  | nil => exact ⟨[], rfl, rfl⟩
  | cons a as ih =>
    obtain ⟨ha, has⟩ := List.forall_mem_cons.1 h
    obtain ⟨b, hb, hg⟩ := ha
    obtain ⟨bs, hbs, hgs⟩ := ih has
    exact ⟨b :: bs, mapM_eq_ok.2 (.cons hb (mapM_eq_ok.1 hbs)),
      mapM_eq_ok.2 (.cons hg (mapM_eq_ok.1 hgs))⟩

variable {S : Signature}

theorem Term.eval_of_le {n m : Nat} (hnm : n ≤ m) {env : Env} {t : Term} {v : Value}
    (h : t.eval S n env = .ok v) : t.eval S m env = .ok v :=
  ((eval_mends (.refl (· = .exhausted) (Leaves.closed_any S)) hnm fun _ => rfl).1
    (Value.alls_any env) t.all_any).eq_ok h

theorem Value.readBack_of_le {n m level : Nat} (hnm : n ≤ m) {v : Value} {t : Term}
    (h : v.readBack S n level = .ok t) : v.readBack S m level = .ok t :=
  ((readBack_mends (.refl (· = .exhausted) (Leaves.closed_any S)) (fun _ => trivial) hnm
    fun _ => rfl).1 v.all_any).eq_ok h

/-- Reading back takes fuel. -/
theorem Neutral.readBack_eq_ok {n level : Nat} {m : Neutral} {t : Term}
    (h : m.readBack S n level = .ok t) : ∃ n', n = n' + 1 := by
  cases n with
  | zero => cases h
  | succ n => exact ⟨n, rfl⟩

/-- **What was read back computes to a value that is read back alike**, in the environment in
which each variable stands for itself.  The fuel of the first reading is enough. -/
theorem readBack_eval (n : Nat) :
    (∀ {ls : List Label} {v : Value} {t : Term}, v.readBack S n ls.length = .ok t →
      t.Labelled ls → t.Normal (fun c => S.definition? c = none) →
      ∃ w, t.eval S n (Env.identity ls) = .ok w ∧ w.readBack S n ls.length = .ok t) ∧
    (∀ {ls : List Label} {m : Neutral} {t : Term}, m.readBack S n ls.length = .ok t →
      t.Labelled ls → t.Normal (fun c => S.definition? c = none) →
      ∃ k, t.eval S n (Env.identity ls) = .ok (.neutral k) ∧
        k.readBack S n ls.length = .ok t) := by
  induction n with
  | zero => exact ⟨fun h => (nomatch h), fun h => (nomatch h)⟩
  | succ n ih =>
    obtain ⟨ihv, ihm⟩ := ih
    have ihvs {ls : List Label} {vs : List Value} {ts : List Term}
        (h : vs.mapM (fun v => v.readBack S n ls.length) = .ok ts) (hl : Term.AllLabelled ls ts)
        (hn : Term.Normals (fun c => S.definition? c = none) ts) :
        ∃ ws, ts.mapM (fun t => t.eval S n (Env.identity ls)) = .ok ws ∧
          ws.mapM (fun w => w.readBack S n ls.length) = .ok ts := by
      refine exists_mapM_eq_ok fun t ht => ?_
      have hread : ∀ t ∈ ts, ∃ v : Value, v.readBack S n ls.length = .ok t :=
        forall_mem_of_forall₂ ((mapM_eq_ok.1 h).imp fun v _ hv => ⟨v, hv⟩)
      obtain ⟨v, hv⟩ := hread t ht
      exact ihv hv (Term.allLabelled_iff.1 hl t ht) (Term.normals_iff.1 hn t ht)
    -- Under a binder the variable entered is the one that stands for itself there.
    have ihb {ls : List Label} {label : Label} {v : Value} {inner : Nat} {b : Term}
        (hinner : nextNumber ls.length = .ok inner) (h : v.readBack S n inner = .ok b)
        (hl : b.Labelled (label :: ls)) (hn : b.Normal (fun c => S.definition? c = none)) :
        ∃ w, (Closure.mk (Env.identity ls) label b).enter S n ls.length = .ok w ∧
          w.readBack S n inner = .ok b := by
      obtain rfl := eq_of_nextNumber hinner
      exact @ihv (label :: ls) v b h hl hn
    refine ⟨?_, ?_⟩
    · intro ls v t h hl hn
      cases v with
      | neutral m =>
        obtain ⟨k, hk, hread⟩ := ihm h hl hn
        exact ⟨.neutral k, Term.eval_of_le (Nat.le_succ n) hk, hread⟩
      | type l =>
        cases h
        exact ⟨.type l, rfl, rfl⟩
      | pi d c | lam d c =>
        obtain ⟨d', hd, h⟩ := bind_eq_ok.1 h
        obtain ⟨v, _, h⟩ := bind_eq_ok.1 h
        obtain ⟨inner, hinner, h⟩ := bind_eq_ok.1 h
        obtain ⟨b, hb, h⟩ := bind_eq_ok.1 h
        cases h
        obtain ⟨wd, hwd, hreadd⟩ := ihv hd hl.1 hn.1
        obtain ⟨wb, hwb, hreadb⟩ := ihb hinner hb hl.2 hn.2
        refine ⟨_, bind_eq_ok.2 ⟨wd, hwd, rfl⟩, bind_eq_ok.2 ⟨d', hreadd, ?_⟩⟩
        refine bind_eq_ok.2 ⟨wb, hwb, bind_eq_ok.2 ⟨inner, hinner, ?_⟩⟩
        exact bind_eq_ok.2 ⟨b, hreadb, rfl⟩
      | former F as | con c as =>
        obtain ⟨ts, hts, h⟩ := bind_eq_ok.1 h
        cases h
        obtain ⟨ws, hws, hread⟩ := ihvs hts hl hn
        exact ⟨_, bind_eq_ok.2 ⟨ws, hws, rfl⟩, bind_eq_ok.2 ⟨ts, hread, rfl⟩⟩
    · intro ls m t h hl hn
      cases m with
      | var label l =>
        rw [Neutral.readBack] at h
        split at h
        next hlt =>
          cases h
          have hi := Env.getElem?_identity hl
          have hlevel : ls.length - (ls.length - (l + 1) + 1) = l := by omega
          rw [hlevel] at hi
          refine ⟨.var label l, orDangling_eq_ok.2 hi, ?_⟩
          rw [Neutral.readBack, if_pos hlt]
        next => cases h
      | const c =>
        cases h
        have hc : S.definition? c = none := hn
        refine ⟨.const c, ?_, rfl⟩
        rw [Term.eval, Signature.unfold, ← Signature.definition?, hc]
      | app f a =>
        obtain ⟨g, hg, h⟩ := bind_eq_ok.1 h
        obtain ⟨b, hb, h⟩ := bind_eq_ok.1 h
        cases h
        obtain ⟨k, hk, hreadk⟩ := ihm hg hl.1 hn.2.1
        obtain ⟨w, hw, hreadw⟩ := ihv hb hl.2 hn.2.2
        obtain ⟨n, rfl⟩ := Neutral.readBack_eq_ok hg
        exact ⟨.app k w, bind_eq_ok.2 ⟨_, hk, bind_eq_ok.2 ⟨w, hw, rfl⟩⟩,
          bind_eq_ok.2 ⟨g, hreadk, bind_eq_ok.2 ⟨b, hreadw, rfl⟩⟩⟩
      | elim u M ms =>
        obtain ⟨t, ht, h⟩ := bind_eq_ok.1 h
        obtain ⟨N, hN, h⟩ := bind_eq_ok.1 h
        obtain ⟨ns, hns, h⟩ := bind_eq_ok.1 h
        cases h
        obtain ⟨k, hk, hreadk⟩ := ihm ht hl.1 hn.2.1
        obtain ⟨w, hw, hreadw⟩ := ihv hN hl.2.1 hn.2.2.1
        obtain ⟨ws, hws, hreads⟩ := ihvs hns hl.2.2 hn.2.2.2
        obtain ⟨n, rfl⟩ := Neutral.readBack_eq_ok ht
        refine ⟨.elim k w ws, bind_eq_ok.2 ⟨_, hk, bind_eq_ok.2 ⟨w, hw, ?_⟩⟩,
          bind_eq_ok.2 ⟨t, hreadk, bind_eq_ok.2 ⟨N, hreadw, ?_⟩⟩⟩
        · exact bind_eq_ok.2 ⟨ws, hws, rfl⟩
        · exact bind_eq_ok.2 ⟨ns, hreads, rfl⟩

namespace Signature

/-- **Normalizing is idempotent, and repairs labels.**  In every signature reached by declarations,
a normal form has the label of its binder at each variable, has no local definition and no constant
with a definition, and is its own normal form, label by label.  The fuel that gave it is enough to
give it again.  The term need be neither typed nor labelled in any way. -/
theorem Reachable.normalize_idempotent (hS : S.Reachable) {n : Nat} {t q : Term}
    (h : t.normalize S n = .ok q) :
    q.Labelled [] ∧ q.Normal (fun c => S.definition? c = none) ∧
      ∀ m, n ≤ m → q.normalize S m = .ok q := by
  obtain ⟨Θ, hΘ⟩ := hS.coherent
  obtain ⟨v, hv, hq⟩ := bind_eq_ok.1 h
  have hvars : v.Vars (LabelAt []) := (eval_vars hS.definesInScope n).1 .nil hv
  have hlabelled : q.Labelled [] := Value.readBack_labelled hS.definesInScope hvars hq
  have hclosed := waiting_closed hΘ.models
  have hnormal : q.Normal S.waiting.stuck :=
    Value.readBack_normal hclosed (Term.eval_all hclosed .nil (all_waiting _ t) hv) hq
  obtain ⟨w, hw, hread⟩ := (readBack_eval n).1 hq hlabelled hnormal
  refine ⟨hlabelled, hnormal, fun m hnm => ?_⟩
  exact bind_eq_ok.2 ⟨w, Term.eval_of_le hnm hw, Value.readBack_of_le hnm hread⟩

/-- Addition to the constant, with a wrong label and a missing one at variables. -/
def addTwo : Term :=
  .letIn (some "y") (.former ⟨0⟩ []) (.const "two")
    (.lam (some "x") (.former ⟨0⟩ [])
      (.elim (.var (some "y") 0) (.lam (some "m") (.former ⟨0⟩ []) (.former ⟨0⟩ []))
        [.var (some "x") 1, .lam (some "k") (.former ⟨0⟩ []) (.lam (some "r") (.former ⟨0⟩ [])
          (.app (.con ⟨1⟩ []) (.var none 0)))]))

/-- The normal form of `addTwo`: the elimination waits for its target, under the label of the
binder. -/
def addTwoNormal : Term :=
  .lam (some "x") (.former ⟨0⟩ [])
    (.elim (.var (some "x") 0) (.lam (some "m") (.former ⟨0⟩ []) (.former ⟨0⟩ []))
      [.con ⟨1⟩ [.con ⟨1⟩ [.con ⟨0⟩ []]], .lam (some "k") (.former ⟨0⟩ [])
        (.lam (some "r") (.former ⟨0⟩ []) (.con ⟨1⟩ [.var (some "r") 0]))])

theorem addTwo_normalize_idempotent :
    (empty.run two).Reachable ∧ addTwo.normalize (empty.run two) 20 = .ok addTwoNormal ∧
    addTwoNormal.Labelled [] ∧
    addTwoNormal.Normal (fun c => (empty.run two).definition? c = none) ∧
    ∀ m, 20 ≤ m → addTwoNormal.normalize (empty.run two) m = .ok addTwoNormal := by
  have hS : (empty.run two).Reachable := steps_run empty two
  have h : addTwo.normalize (empty.run two) 20 = .ok addTwoNormal := rfl
  exact ⟨hS, h, hS.normalize_idempotent h⟩

end Signature

end Constructions
