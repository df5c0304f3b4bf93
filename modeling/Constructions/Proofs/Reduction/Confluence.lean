/-
# Normal forms are unique

Plain terms compute in one way: two steps out of one term can be brought together by one step
each (`Red.diamond`).  Unlike bare terms they keep the domains of functions, and there is no rule
for functions that only pass their argument on, so an application is the only place where steps
can differ: `Red.head_join` says that all ways to go on from a callee and an argument have a
common reduct.

A normal term computes to itself only (`Term.Normal.red_eq`), so a plain term computes to one
normal term, up to labels (`Term.Normal.unique`).
-/

import Constructions.Proofs.Reduction.Normal

namespace Constructions

open Plain

variable {Θ : Theory}

/-! ### Confluence -/

/-- How a step goes on after it computed the callee to `f` and the argument to `a`. -/
inductive Red.Head (Θ : Theory) (f a : Plain) : Plain → Prop where
  | app : Head Θ f a (.app f a)
  | beta {A b : Plain} : f = .lam A b → Head Θ f a (b.inst a)
  | iota {c : ConstructorId} {B : Branch} {m M : Plain} {ms args : List Plain} :
      Θ.branch c = some B → f = elimHead M ms → a = Plain.spine (.atom (.con c)) args →
      args.length = B.arity → ms[B.position]? = some m → Head Θ f a (B.plainContract m M ms args)

namespace Red

theorem app_inv {f a t : Plain} (h : Red Θ (.app f a) t) :
    ∃ f' a', Red Θ f f' ∧ Red Θ a a' ∧ Head Θ f' a' t := by
  cases h with
  | app hf ha => exact ⟨_, _, hf, ha, .app⟩
  | beta hf ha => exact ⟨_, _, hf, ha, .beta rfl⟩
  | iota hB hf ha hl hm => exact ⟨_, _, hf, ha, .iota hB rfl rfl hl hm⟩

theorem spine {f f' : Plain} {as as' : List Plain} (hf : Red Θ f f')
    (h : List.Forall₂ (Red Θ) as as') : Red Θ (Plain.spine f as) (Plain.spine f' as') := by
  induction h generalizing f f' with
  | nil => exact hf
  | cons ha _ ih => exact ih (.app hf ha)

theorem getD {as as' : List Plain} (h : List.Forall₂ (Red Θ) as as') (i : Nat) :
    Red Θ (as.getD i (.atom .hole)) (as'.getD i (.atom .hole)) := by
  induction h generalizing i with
  | nil => exact .atom _
  | cons ha _ ih =>
    cases i with
    | zero => exact ha
    | succ i => exact ih i

/-- What an elimination computes to, if its parts compute. -/
theorem contract {B : Branch} {m m' M M' : Plain} {ms ms' args args' : List Plain}
    (hm : Red Θ m m') (hM : Red Θ M M') (hms : List.Forall₂ (Red Θ) ms ms')
    (has : List.Forall₂ (Red Θ) args args') :
    Red Θ (B.plainContract m M ms args) (B.plainContract m' M' ms' args') := by
  refine spine hm (List.rel_append (List.forall₂_drop _ has) ?_)
  rw [List.forall₂_map_left_iff, List.forall₂_map_right_iff]
  refine List.forall₂_same.2 fun i _ => .app ?_ (getD has i)
  rw [elimHead, elimHead, hms.length_eq]
  exact spine (.atom _) (.cons hM hms)

/-- **All ways to go on from a callee and an argument have a common reduct.** -/
theorem head_join (f₃ a₃ : Plain) :
    ∃ t₃, ∀ f a t, Head Θ f a t → Red Θ f f₃ → Red Θ a a₃ → Red Θ t t₃ := by
  by_cases hlam : ∃ A b, f₃ = .lam A b
  · obtain ⟨A₃, b₃, rfl⟩ := hlam
    refine ⟨b₃.inst a₃, fun f a t h hf ha => ?_⟩
    cases h with
    | app => exact .beta hf ha
    | beta e =>
      subst e
      cases hf with
      | lam _ hb => exact hb.inst ha
    | iota _ e _ _ _ =>
      subst e
      obtain ⟨_, _, e, _, _⟩ := elimHead_inv hf
      exact (spine_atom_ne_lam _ _ _ _ e.symm).elim
  by_cases hiota : ∃ (c : ConstructorId) (B : Branch) (m M : Plain) (ms args : List Plain),
      Θ.branch c = some B ∧ f₃ = elimHead M ms ∧ a₃ = Plain.spine (.atom (.con c)) args ∧
        args.length = B.arity ∧ ms[B.position]? = some m
  · obtain ⟨c, B, m, M, ms, args, hB, rfl, rfl, hl, hm⟩ := hiota
    refine ⟨B.plainContract m M ms args, fun f a t h hf ha => ?_⟩
    cases h with
    | app => exact .iota hB hf ha hl hm
    | beta e =>
      -- A function stays a function, so it does not compute to an elimination.
      subst e
      generalize hh : elimHead M ms = h at hf
      cases hf with
      | lam => exact (hlam ⟨_, _, hh⟩).elim
    | iota hB' e e' hl' hm' =>
      subst e e'
      obtain ⟨_, _, hh, hM, hms⟩ := elimHead_inv hf
      obtain ⟨rfl, rfl⟩ := elimHead_inj hh
      obtain ⟨_, ht, has⟩ := spine_inv (a := .con _) trivial ha
      obtain ⟨hc, rfl⟩ := spine_atom_inj ht
      obtain rfl := Atom.con.inj hc
      obtain rfl := Option.some.inj (hB.symm.trans hB')
      obtain ⟨m', hm'', hmm⟩ := forall₂_getElem? hms hm'
      obtain rfl := Option.some.inj (hm.symm.trans hm'')
      exact contract hmm hM hms has
  · refine ⟨.app f₃ a₃, fun f a t h hf ha => ?_⟩
    cases h with
    | app => exact .app hf ha
    | beta e =>
      subst e
      cases hf with
      | lam => exact (hlam ⟨_, _, rfl⟩).elim
    | iota hB e e' hl hm =>
      subst e e'
      obtain ⟨M, ms, rfl, _, hms⟩ := elimHead_inv hf
      obtain ⟨args, rfl, has⟩ := spine_inv (a := .con _) trivial ha
      obtain ⟨m, hm, _⟩ := forall₂_getElem? hms hm
      exact (hiota ⟨_, _, _, _, _, _, hB, rfl, rfl, has.length_eq.symm.trans hl, hm⟩).elim

/-- **Two steps out of one term can be brought together.** -/
theorem diamond {t t₁ t₂ : Plain} (h₁ : Red Θ t t₁) (h₂ : Red Θ t t₂) :
    ∃ t₃, Red Θ t₁ t₃ ∧ Red Θ t₂ t₃ := by
  induction t generalizing t₁ t₂ with
  | var i =>
    cases h₁
    exact ⟨t₂, h₂, refl t₂⟩
  | atom a =>
    cases h₁ with
    | atom => exact ⟨t₂, h₂, refl t₂⟩
    | delta hc =>
      cases h₂ with
      | atom => exact ⟨_, refl _, .delta hc⟩
      | delta hc' =>
        obtain rfl := Option.some.inj (hc.symm.trans hc')
        exact ⟨_, refl _, refl _⟩
  | letIn A a b ihA iha ihb =>
    cases h₁ with
    | letIn hA ha hb =>
      cases h₂ with
      | letIn hA' ha' hb' =>
        obtain ⟨A₃, hA, hA'⟩ := ihA hA hA'
        obtain ⟨a₃, ha, ha'⟩ := iha ha ha'
        obtain ⟨b₃, hb, hb'⟩ := ihb hb hb'
        exact ⟨_, .letIn hA ha hb, .letIn hA' ha' hb'⟩
      | zeta ha' hb' =>
        obtain ⟨a₃, ha, ha'⟩ := iha ha ha'
        obtain ⟨b₃, hb, hb'⟩ := ihb hb hb'
        exact ⟨_, .zeta ha hb, hb'.inst ha'⟩
    | zeta ha hb =>
      cases h₂ with
      | letIn _ ha' hb' =>
        obtain ⟨a₃, ha, ha'⟩ := iha ha ha'
        obtain ⟨b₃, hb, hb'⟩ := ihb hb hb'
        exact ⟨_, hb.inst ha, .zeta ha' hb'⟩
      | zeta ha' hb' =>
        obtain ⟨a₃, ha, ha'⟩ := iha ha ha'
        obtain ⟨b₃, hb, hb'⟩ := ihb hb hb'
        exact ⟨_, hb.inst ha, hb'.inst ha'⟩
  | pi A B ihA ihB =>
    cases h₁ with
    | pi hA hB =>
      cases h₂ with
      | pi hA' hB' =>
        obtain ⟨A₃, hA, hA'⟩ := ihA hA hA'
        obtain ⟨B₃, hB, hB'⟩ := ihB hB hB'
        exact ⟨_, .pi hA hB, .pi hA' hB'⟩
  | lam A b ihA ihb =>
    cases h₁ with
    | lam hA hb =>
      cases h₂ with
      | lam hA' hb' =>
        obtain ⟨A₃, hA, hA'⟩ := ihA hA hA'
        obtain ⟨b₃, hb, hb'⟩ := ihb hb hb'
        exact ⟨_, .lam hA hb, .lam hA' hb'⟩
  | app f a ihf iha =>
    obtain ⟨f₁, a₁, hf₁, ha₁, h₁⟩ := app_inv h₁
    obtain ⟨f₂, a₂, hf₂, ha₂, h₂⟩ := app_inv h₂
    obtain ⟨f₃, hf₁₃, hf₂₃⟩ := ihf hf₁ hf₂
    obtain ⟨a₃, ha₁₃, ha₂₃⟩ := iha ha₁ ha₂
    obtain ⟨t₃, h⟩ := head_join (Θ := Θ) f₃ a₃
    exact ⟨t₃, h _ _ _ h₁ hf₁₃ ha₁₃, h _ _ _ h₂ hf₂₃ ha₂₃⟩

end Red

/-- **Computing is confluent.** -/
theorem Reds.join {t t₁ t₂ : Plain} (h₁ : Reds Θ t t₁) (h₂ : Reds Θ t t₂) :
    ∃ t₃, Reds Θ t₁ t₃ ∧ Reds Θ t₂ t₃ := by
  refine Relation.church_rosser (fun a b c hb hc => ?_) h₁ h₂
  obtain ⟨d, hbd, hcd⟩ := Red.diamond hb hc
  exact ⟨d, .single hbd, .single hcd⟩

/-! ### Core terms that are read alike

A plain term does not tell whether the arguments of a former are in its list or are applied to
it.  A normal term has them in the list, so it is known from its plain term up to labels. -/

/-- A plain term that is no application is an atom with arguments only if it is that atom. -/
theorem Plain.eq_atom_of_spine {p : Plain} {x : Atom} {as : List Plain}
    (h : p = spine (.atom x) as) (hp : ∀ f a, p ≠ .app f a) : p = .atom x :=
  (spine_eq_spine_atom (show spine p [] = spine (.atom x) as from h) hp).1

namespace Term

variable {P : Name → Prop}

theorem plains_concat (as : List Term) (a : Term) :
    plains (as ++ [a]) = plains as ++ [a.plain] := by
  rw [plains_eq_map, plains_eq_map, List.map_append, List.map_singleton]

theorem plain_not_partial (t : Term) : ¬ t.plain.Partial := by
  have hvar (i : Nat) : ¬ (Plain.var i).Partial := by
    intro hp
    obtain ⟨k, e⟩ | ⟨f, a, e, _⟩ := hp.cases <;> cases e
  have h := Term.not_partial hvar t
  rwa [Plain.subst_var] at h

/-- **An atom with arguments is an application to the last of them.** -/
theorem exists_concat_of_spine {x : Atom} {as : List Term} {f a : Plain}
    (e : spine (.atom x) (plains as) = .app f a) :
    ∃ bs b, as = bs ++ [b] ∧ spine (.atom x) (plains bs) = f ∧ b.plain = a := by
  cases as using List.reverseRecOn with
  | nil => cases e
  | append_singleton bs b =>
    rw [plains_concat, spine_concat] at e
    obtain ⟨ef, ea⟩ := Plain.app.inj e
    exact ⟨bs, b, rfl, ef, ea⟩

/-- A former or a constructor, which collects its arguments. -/
inductive Collects : (List Term → Term) → Atom → Prop where
  | former (F : FamilyId) : Collects (.former F) (.former F)
  | con (c : ConstructorId) : Collects (.con c) (.con c)

namespace Collects

variable {g : List Term → Term} {x : Atom} (h : Collects g x)

include h

theorem plain (as : List Term) : (g as).plain = spine (.atom x) (plains as) := by
  cases h <;> rfl

theorem exists_concat {as : List Term} {f a : Plain} (e : (g as).plain = .app f a) :
    ∃ bs b, as = bs ++ [b] ∧ (g bs).plain = f ∧ b.plain = a := by
  rw [h.plain] at e
  obtain ⟨bs, b, has, ef, ea⟩ := exists_concat_of_spine e
  exact ⟨bs, b, has, (h.plain bs).trans ef, ea⟩

end Collects

section

variable {t : Term}

theorem plain_eq_const {c : Name} (h : t.plain = .atom (.const c)) : t = .const c := by
  cases t with
  | const c' =>
    cases h
    rfl
  | former F as => cases eq_atom_of_spine h.symm (by simp)
  | con c as => cases eq_atom_of_spine h.symm (by simp)
  | var | letIn | type | pi | lam | app | elim => cases h

theorem plain_eq_var {i : Nat} (h : t.plain = .var i) : ∃ label, t = .var label i := by
  cases t with
  | var label j =>
    cases h
    exact ⟨label, rfl⟩
  | former F as => cases eq_atom_of_spine h.symm (by simp)
  | con c as => cases eq_atom_of_spine h.symm (by simp)
  | const | letIn | type | pi | lam | app | elim => cases h

theorem plain_eq_type {l : UInt64} (h : t.plain = (Term.type l).plain) : t = .type l := by
  cases t with
  | type l' => rw [UInt64.toNat_inj.1 (Atom.type.inj (Plain.atom.inj h))]
  | former F as => cases eq_atom_of_spine h.symm (by rintro _ _ ⟨⟩)
  | con c as => cases eq_atom_of_spine h.symm (by rintro _ _ ⟨⟩)
  | var | const | letIn | pi | lam | app | elim => cases h

theorem plain_eq_pi {A B : Plain} (h : t.plain = .pi A B) :
    ∃ label A₀ B₀, t = .pi label A₀ B₀ ∧ A₀.plain = A ∧ B₀.plain = B := by
  cases t with
  | pi label A₀ B₀ =>
    cases h
    exact ⟨label, A₀, B₀, rfl, rfl, rfl⟩
  | former F as => cases eq_atom_of_spine h.symm (by simp)
  | con c as => cases eq_atom_of_spine h.symm (by simp)
  | var | const | type | letIn | lam | app | elim => cases h

theorem plain_eq_lam {A b : Plain} (h : t.plain = .lam A b) :
    ∃ label A₀ b₀, t = .lam label A₀ b₀ ∧ A₀.plain = A ∧ b₀.plain = b := by
  cases t with
  | lam label A₀ b₀ =>
    cases h
    exact ⟨label, A₀, b₀, rfl, rfl, rfl⟩
  | former F as => cases eq_atom_of_spine h.symm (by simp)
  | con c as => cases eq_atom_of_spine h.symm (by simp)
  | var | const | type | letIn | pi | app | elim => cases h

/-- **An application is read off three kinds of core terms.** -/
theorem plain_eq_app {f a : Plain} (h : t.plain = .app f a) :
    (∃ f₀ a₀, t = .app f₀ a₀ ∧ f₀.plain = f ∧ a₀.plain = a) ∨
    (∃ g x as a₀, Collects g x ∧ t = g (as ++ [a₀]) ∧ (g as).plain = f ∧ a₀.plain = a) ∨
    ∃ t₀ M ms, t = .elim t₀ M ms ∧ elimHead M.plain (plains ms) = f ∧ t₀.plain = a := by
  cases t with
  | app f₀ a₀ =>
    cases h
    exact .inl ⟨f₀, a₀, rfl, rfl, rfl⟩
  | former F as =>
    obtain ⟨bs, b, rfl, hf, ha⟩ := (Collects.former F).exists_concat h
    exact .inr (.inl ⟨_, _, bs, b, .former F, rfl, hf, ha⟩)
  | con c as =>
    obtain ⟨bs, b, rfl, hf, ha⟩ := (Collects.con c).exists_concat h
    exact .inr (.inl ⟨_, _, bs, b, .con c, rfl, hf, ha⟩)
  | elim t₀ M ms =>
    cases h
    exact .inr (.inr ⟨t₀, M, ms, rfl, rfl, rfl⟩)
  | var | const | type | letIn | pi | lam => cases h

end

/-- **What waits is not read as a former or a construction.** -/
theorem Normal.plain_ne_spine {g : List Term → Term} {x : Atom} (hg : Collects g x) :
    ∀ {t : Term}, t.Normal P → t.Waits → ∀ as, t.plain ≠ spine (.atom x) as
  | .var _ _, _, _, as, e => by cases eq_atom_of_spine e (by rintro _ _ ⟨⟩)
  | .const _, _, _, as, e => by
    obtain rfl := Plain.atom.inj (eq_atom_of_spine e (by rintro _ _ ⟨⟩))
    cases hg
  | .app f a, h, _, as, e => by
    cases as using List.reverseRecOn with
    | nil => cases e
    | append_singleton as b =>
      rw [spine_concat] at e
      exact Normal.plain_ne_spine hg h.2.1 h.1 as (Plain.app.inj e).1
  | .elim t M ms, _, _, as, e => by
    cases as using List.reverseRecOn with
    | nil => cases e
    | append_singleton as b =>
      rw [spine_concat] at e
      obtain ⟨rfl, _⟩ := spine_atom_inj (Plain.app.inj e).1
      cases hg

/-- A normal term that is read as a former or a construction is one. -/
theorem Normal.eq_of_spine {g : List Term → Term} {x : Atom} (hg : Collects g x) {t : Term}
    (h : t.Normal P) {as : List Plain} (e : t.plain = spine (.atom x) as) :
    ∃ bs, t = g bs ∧ plains bs = as := by
  cases t with
  | var | const | app | elim => exact (h.plain_ne_spine hg trivial as e).elim
  | letIn => exact h.elim
  | type l =>
    obtain rfl := Plain.atom.inj (eq_atom_of_spine e (by rintro _ _ ⟨⟩))
    cases hg
  | pi | lam => cases eq_atom_of_spine e (by rintro _ _ ⟨⟩)
  | former F bs =>
    obtain ⟨rfl, has⟩ := spine_atom_inj e
    cases hg
    exact ⟨bs, rfl, has⟩
  | con c bs =>
    obtain ⟨rfl, has⟩ := spine_atom_inj e
    cases hg
    exact ⟨bs, rfl, has⟩

mutual

/-- **Normal terms that are read alike differ in labels only.** -/
theorem Normal.unlabel_eq : ∀ {q : Term}, q.Normal P → ∀ {r : Term}, r.Normal P →
    r.plain = q.plain → r.unlabel = q.unlabel
  | .var _ i, _, r, _, e => by
    obtain ⟨label, rfl⟩ := plain_eq_var e
    rfl
  | .const c, _, r, _, e => by
    obtain rfl := plain_eq_const e
    rfl
  | .type l, _, r, _, e => by
    obtain rfl := plain_eq_type e
    rfl
  | .pi _ A B, h, r, hr, e => by
    obtain ⟨label, A₀, B₀, rfl, hA, hB⟩ := plain_eq_pi e
    rw [unlabel, unlabel, Normal.unlabel_eq h.1 hr.1 hA, Normal.unlabel_eq h.2 hr.2 hB]
  | .lam _ A b, h, r, hr, e => by
    obtain ⟨label, A₀, b₀, rfl, hA, hb⟩ := plain_eq_lam e
    rw [unlabel, unlabel, Normal.unlabel_eq h.1 hr.1 hA, Normal.unlabel_eq h.2 hr.2 hb]
  | .app f a, h, r, hr, e => by
    obtain ⟨f₀, a₀, rfl, hf, ha⟩ | ⟨g, x, as, a₀, hg, rfl, hf, ha⟩ | ⟨t₀, M, ms, rfl, hf, ht⟩ :=
      plain_eq_app e
    · rw [unlabel, unlabel, Normal.unlabel_eq h.2.1 hr.2.1 hf, Normal.unlabel_eq h.2.2 hr.2.2 ha]
    · exact (h.2.1.plain_ne_spine hg h.1 _ (hf.symm.trans (hg.plain as))).elim
    · exact (f.plain_not_partial (hf ▸ partial_elimHead _ _)).elim
  | .former F as, h, r, hr, e => by
    obtain ⟨bs, rfl, hbs⟩ := hr.eq_of_spine (.former F) e
    rw [unlabel, unlabel, Normals.unlabels_eq h hr hbs]
  | .con c as, h, r, hr, e => by
    obtain ⟨bs, rfl, hbs⟩ := hr.eq_of_spine (.con c) e
    rw [unlabel, unlabel, Normals.unlabels_eq h hr hbs]
  | .elim t M ms, h, r, hr, e => by
    obtain ⟨f₀, a₀, rfl, hf, _⟩ | ⟨g, x, as, a₀, _, rfl, hf, _⟩ | ⟨t₀, M₀, ms₀, rfl, hf, ht⟩ :=
      plain_eq_app e
    · exact (f₀.plain_not_partial (hf ▸ partial_elimHead _ _)).elim
    · exact ((g as).plain_not_partial (hf ▸ partial_elimHead _ _)).elim
    · obtain ⟨hM, hms⟩ := elimHead_inj hf
      rw [unlabel, unlabel, Normal.unlabel_eq h.2.1 hr.2.1 ht,
        Normal.unlabel_eq h.2.2.1 hr.2.2.1 hM, Normals.unlabels_eq h.2.2.2 hr.2.2.2 hms]

theorem Normals.unlabels_eq : ∀ {qs : List Term}, Normals P qs → ∀ {rs : List Term},
    Normals P rs → plains rs = plains qs → unlabels rs = unlabels qs
  | [], _, [], _, _ => rfl
  | q :: qs, h, r :: rs, hr, e => by
    obtain ⟨e, es⟩ := List.cons.inj e
    rw [unlabels, unlabels, Normal.unlabel_eq h.1 hr.1 e, Normals.unlabels_eq h.2 hr.2 es]

end

end Term

/-! ### Normal terms -/

namespace Term

variable {P : Name → Prop}

/-- What waits is not read as a function. -/
theorem Waits.plain_ne_lam {t : Term} (h : t.Waits) (A b : Plain) : t.plain ≠ .lam A b := by
  cases t with
  | var | const | app | elim => rintro ⟨⟩
  | letIn | type | pi | lam | former | con => exact h.elim

mutual

/-- **A normal term computes to itself only.** -/
theorem Normal.red_eq (hP : ∀ c, P c → Θ.definition c = none) :
    ∀ {q : Term}, q.Normal P → ∀ {u : Plain}, Red Θ q.plain u → u = q.plain
  | .var _ _, _, _, hu => by
    cases hu
    rfl
  | .const c, hc, _, hu => by
    cases hu with
    | atom => rfl
    | delta hd => cases (hP c hc).symm.trans hd
  | .type _, _, _, hu => by
    cases hu
    rfl
  | .pi _ A B, h, _, hu => by
    cases hu with
    | pi hA hB => rw [Normal.red_eq hP h.1 hA, Normal.red_eq hP h.2 hB]; rfl
  | .lam _ A b, h, _, hu => by
    cases hu with
    | lam hA hb => rw [Normal.red_eq hP h.1 hA, Normal.red_eq hP h.2 hb]; rfl
  | .app f a, h, u, hu => by
    obtain ⟨f', a', hf, ha, hhead⟩ := Red.app_inv hu
    obtain rfl := Normal.red_eq hP h.2.1 hf
    obtain rfl := Normal.red_eq hP h.2.2 ha
    cases hhead with
    | app => rfl
    | beta e => exact (Waits.plain_ne_lam h.1 _ _ e).elim
    | iota _ e _ _ _ => exact (f.plain_not_partial (e ▸ partial_elimHead _ _)).elim
  | .former F as, h, u, hu => by
    obtain ⟨us, rfl, hus⟩ := Red.spine_inv (a := .former F) trivial hu
    rw [Normals.red_eq hP h hus]
    rfl
  | .con c as, h, u, hu => by
    obtain ⟨us, rfl, hus⟩ := Red.spine_inv (a := .con c) trivial hu
    rw [Normals.red_eq hP h hus]
    rfl
  | .elim t M ms, h, u, hu => by
    obtain ⟨f', a', hf, ha, hhead⟩ := Red.app_inv hu
    obtain rfl := Normal.red_eq hP h.2.1 ha
    obtain ⟨M', ms', rfl, hM, hms⟩ := Red.elimHead_inv hf
    rw [Normal.red_eq hP h.2.2.1 hM, Normals.red_eq hP h.2.2.2 hms] at hhead
    cases hhead with
    | app => rfl
    | beta e => exact (spine_atom_ne_lam _ _ _ _ e).elim
    | @iota c _ _ _ _ args _ _ e _ _ =>
      exact (h.2.1.plain_ne_spine (.con c) h.1 args e).elim

theorem Normals.red_eq (hP : ∀ c, P c → Θ.definition c = none) :
    ∀ {qs : List Term}, Normals P qs → ∀ {us : List Plain},
      List.Forall₂ (Red Θ) (plains qs) us → us = plains qs
  | [], _, _, .nil => rfl
  | _ :: _, h, _, .cons hu hus => by rw [Normal.red_eq hP h.1 hu, Normals.red_eq hP h.2 hus]; rfl

end

theorem Normal.reds_eq (hP : ∀ c, P c → Θ.definition c = none) {q : Term} (h : q.Normal P)
    {u : Plain} (hu : Reds Θ q.plain u) : u = q.plain := by
  induction hu with
  | refl => rfl
  | tail _ hs ih =>
    subst ih
    exact h.red_eq hP hs

/-- **A plain term computes to one normal term,** up to labels. -/
theorem Normal.unique (hP : ∀ c, P c → Θ.definition c = none) {q r : Term} (hq : q.Normal P)
    (hr : r.Normal P) {t : Plain} (htq : Reds Θ t q.plain) (htr : Reds Θ t r.plain) :
    q.unlabel = r.unlabel := by
  obtain ⟨u, hqu, hru⟩ := htq.join htr
  exact hr.unlabel_eq hq ((hq.reds_eq hP hqu).symm.trans (hr.reds_eq hP hru))

end Term

end Constructions
