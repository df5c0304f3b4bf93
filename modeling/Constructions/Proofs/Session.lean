/-
# Sessions

A declaration runs on a signature and leaves one behind, also when it fails.  So it is an
`Except` whose failure carries the signature too (`Declare.outcome`), and a program is a fold of
such steps (`Session.run_eq`).

| statement | theorem |
| --- | --- |
| a declaration only makes requests that the kernel admits | `Command.run_reaches` |
| a session keeps its outcomes and what is declared | `Session.Extends` |
| positions do not matter, and labels may be thinned out | `Command.run_unplaces` |
-/

import Constructions.Proofs.Registry.Runs
import Constructions.Proofs.Relabelling.Elaboration
import Constructions.Session

namespace Constructions

/-! ### Running declarations -/

namespace Declare

variable {α β γ : Type}

/-- How a running declaration ends, and the signature that it leaves. -/
def outcome (x : Declare α) (S : Signature) :
    Except (Stop ElaborationError × Signature) (α × Signature) :=
  match x.run S with
  | (.ok a, T) => .ok (a, T)
  | (.error e, T) => .error (e, T)

theorem outcome_bind (x : Declare α) (k : α → Declare β) (S : Signature) :
    (x >>= k).outcome S = x.outcome S >>= fun p => (k p.1).outcome p.2 := by
  have hrun : (x >>= k).run S = (ExceptT.bindCont k (x.run S).1).run (x.run S).2 := rfl
  unfold outcome
  rw [hrun]
  obtain ⟨r, T⟩ := x.run S
  cases r <;> rfl

/-- How a declaration fails, read off its run. -/
theorem outcome_eq_error {x : Declare α} {S S' : Signature} {e : Stop ElaborationError} :
    x.outcome S = .error (e, S') ↔ x.run S = (.error e, S') := by
  unfold outcome
  obtain ⟨r, T⟩ := x.run S
  constructor <;> intro h <;> cases r <;> cases h <;> rfl

theorem outcome_get (S : Signature) : (get : Declare Signature).outcome S = .ok (S, S) := rfl

theorem outcome_elaborating (h : Signature → Elaborate α) (S : Signature) :
    (elaborating h).outcome S = ((h S).mapError fun e => (e, S)) >>= fun a => .ok (a, S) := by
  rw [elaborating, outcome_bind, outcome_get]
  dsimp only [bind, Except.bind]
  cases h S <;> rfl

/-- **An update is made or refused as a whole.** -/
theorem outcome_admitting (span : Span) {u : Update α} {h : Signature → Check (Signature × α)}
    (hu : u.Refines h) (S : Signature) :
    (admitting span u).outcome S =
      (((h S).at span).mapError fun e => (e, S)) >>= fun p => .ok (p.2, p.1) := by
  have hrun : (admitting span u).run S = ((u.run S).1.mapError (·.at span), (u.run S).2) := rfl
  rw [outcome, hrun, hu S]
  cases h S <;> rfl

end Declare

/-! ### What is declared -/

namespace Signature

/-- The name that a request declares, if any, is of a kind. -/
def Request.Declares (q : Name → Prop) : Request → Prop
  | .postulate name _ => q name
  | .define name _ _ => q name
  | .openFamily name _ _ => q name
  | .declareConstructor _ name _ => q name
  | .closeFamily _ => True

/-- A request that declares a name of a kind, if any, is admitted. -/
def Admits (q : Name → Prop) (S S' : Signature) : Prop :=
  ∃ n r, Request.Declares q r ∧ S.answer n r = .ok S'

theorem Admits.step {q : Name → Prop} {S S' : Signature} (h : S.Admits q S') : Step S S' := by
  obtain ⟨n, r, _, h⟩ := h
  exact answer_step h

theorem steps_of_admits {q : Name → Prop} {S S' : Signature}
    (h : Relation.ReflTransGen (Admits q) S S') : Relation.ReflTransGen Step S S' :=
  h.lift id fun _ _ h => h.step

/-- All declared names are of a kind. -/
def Names (q : Name → Prop) (S : Signature) : Prop := ∀ c e, S.entry? c = some e → q c

theorem names_of_new {q : Name → Prop} {S S' : Signature} {name : Name} {new : Entry}
    (h : S.Names q) (hname : q name)
    (hentry : ∀ c, Signature.entry? S' c = if c = name then some new else S.entry? c) :
    S'.Names q := by
  intro c e hc
  rw [hentry] at hc
  by_cases hcn : c = name
  · exact hcn ▸ hname
  · rw [if_neg hcn] at hc
    exact h c e hc

theorem Admits.names {q : Name → Prop} {S S' : Signature} (ha : S.Admits q S') (h : S.Names q) :
    S'.Names q := by
  obtain ⟨n, r, hr, e⟩ := ha
  cases r with
  | postulate name type =>
    obtain ⟨A, _, _, rfl⟩ := postulate_eq_ok e
    exact names_of_new h hr (entry?_addGlobal S name _)
  | define name type value =>
    obtain ⟨A, a, _, _, _, _, rfl⟩ := define_eq_ok e
    exact names_of_new h hr (entry?_addGlobal S name _)
  | openFamily name p type =>
    obtain ⟨⟨S₁, id⟩, e, h₁⟩ := bind_eq_ok.1 e
    cases h₁
    obtain ⟨A, T, l, _, _, _, _, _, rfl⟩ := openFamily_eq_ok e
    exact names_of_new h hr (entry?_addFamily S name p _ A)
  | declareConstructor family name type =>
    obtain ⟨⟨S₁, id⟩, e, h₁⟩ := bind_eq_ok.1 e
    cases h₁
    obtain ⟨fid, F, A, P, E, T, r, _, _, rfl⟩ := declareConstructor_eq_ok e
    exact names_of_new h hr (entry?_addConstructor S name F T.length r A)
  | closeFamily family =>
    obtain ⟨⟨S₁, id⟩, e, h₁⟩ := bind_eq_ok.1 e
    cases h₁
    obtain ⟨fid, F, _, _, _, rfl⟩ := closeFamily_eq_ok e
    exact h

theorem names_of_admits {q : Name → Prop} {S S' : Signature}
    (h : Relation.ReflTransGen (Admits q) S S') (hS : S.Names q) : S'.Names q := by
  induction h with
  | refl => exact hS
  | tail _ ha ih => exact ha.names ih

end Signature

namespace Declare

variable {α β : Type} {q : Name → Prop}

variable (q) in
/-- Whatever comes of a running declaration, the signature it leaves is reached by requests to the
kernel that were admitted, and only declare names of a kind. -/
def Reaches (x : Declare α) : Prop :=
  ∀ S, Post (x.outcome S) (fun p => Relation.ReflTransGen (Signature.Admits q) S p.2)
    (fun p => Relation.ReflTransGen (Signature.Admits q) S p.2)

namespace Reaches

theorem pure (a : α) : Reaches q (pure a : Declare α) := fun _ => .refl

theorem bind {x : Declare α} {k : α → Declare β} (hx : Reaches q x) (hk : ∀ a, Reaches q (k a)) :
    Reaches q (x >>= k) := by
  intro S
  rw [outcome_bind]
  refine Post.bind (hx S) fun p _ hp => ?_
  exact (hk p.1 p.2).mono (fun _ h => hp.trans h) fun _ h => hp.trans h

theorem forM {k : α → Declare PUnit} {as : List α} (hk : ∀ a ∈ as, Reaches q (k a)) :
    Reaches q (as.forM k) := by
  induction as with
  | nil => exact .pure ()
  | cons a as ih =>
    refine .bind (hk a List.mem_cons_self) fun _ => ?_
    exact ih fun x hx => hk x (List.mem_cons_of_mem a hx)

theorem elaborating (h : Signature → Elaborate α) : Reaches q (elaborating h) := by
  intro S
  rw [outcome_elaborating]
  cases h S with
  | ok a => exact .refl
  | error e => exact .refl

theorem admitting (span : Span) {n : Nat} {r : Signature.Request} (hr : r.Declares q)
    {u : Update α} {h : Signature → Check (Signature × α)} (hu : u.Refines h)
    (hh : ∀ S T a, h S = .ok (T, a) → S.answer n r = .ok T) : Reaches q (admitting span u) := by
  intro S
  rw [outcome_admitting span hu]
  cases hS : h S with
  | ok p => exact .single ⟨n, r, hr, hh S p.1 p.2 hS⟩
  | error s => cases s <;> exact .refl

end Reaches

end Declare

/-- The names that a command declares are of a kind. -/
def Command.Declares (q : Name → Prop) : Command → Prop
  | .data name _ _ cs => q name.value ∧ ∀ c ∈ cs, q c.name.value
  | .postulate name _ => q name.value
  | .define name _ _ => q name.value
  | .evaluate _ => True
  | .check _ _ => True

theorem Command.declares_any (c : Command) : c.Declares fun _ => True := by
  cases c with
  | data => exact ⟨trivial, fun _ _ => trivial⟩
  | postulate | define | evaluate | check => trivial

/-- **A command only makes requests that are admitted**, for the names that it declares, also when
it fails. -/
theorem Command.run_reaches {q : Name → Prop} (n : Nat) (span : Span) {c : Command}
    (hc : c.Declares q) : (c.run n span).Reaches q := by
  cases c with
  | data name parameters arity constructors =>
    refine .bind (.elaborating _) fun telescope => .bind (.elaborating _) fun type => ?_
    refine .bind (.admitting (n := n) (r := .openFamily name.value telescope.length type) span hc.1
      (Update.openFamily_refines n _ _ type) fun S T id h => bind_eq_ok.2 ⟨_, h, rfl⟩) fun _ => ?_
    refine .bind (.forM fun c hmem => ?_) fun _ => .bind (.admitting (n := n)
      (r := .closeFamily name.value) span trivial (Update.closeFamily_refines _)
      fun S T id h => bind_eq_ok.2 ⟨_, h, rfl⟩) fun _ => .pure _
    refine .bind (.elaborating _) fun type => .bind (.admitting (n := n)
      (r := .declareConstructor name.value c.name.value type) _ (hc.2 c hmem)
      (Update.declareConstructor_refines n _ _ type)
      fun S T id h => bind_eq_ok.2 ⟨_, h, rfl⟩) fun _ => .pure _
  | postulate name type =>
    refine .bind (.elaborating _) fun x => .bind (.admitting (n := n)
      (r := .postulate name.value x.1) span hc (Update.postulate_refines n _ _)
      fun S T _ h => ?_) fun _ => .pure _
    obtain ⟨T', hT, h⟩ := bind_eq_ok.1 h
    cases h
    exact hT
  | define name type value =>
    refine .bind (.elaborating _) fun x => .bind (.admitting (n := n)
      (r := .define name.value x.1 x.2) span hc (Update.define_refines n _ _ _)
      fun S T _ h => ?_) fun _ => .pure _
    obtain ⟨T', hT, h⟩ := bind_eq_ok.1 h
    cases h
    exact hT
  | evaluate term => exact .elaborating _
  | check term type => exact .elaborating _

/-! ### Programs -/

namespace Session

/-- One declaration of a program: the session after it, also if it fails. -/
def step (n : Nat) (σ : Session) (d : Declaration) :
    Except (Stop ElaborationError × Session) Session :=
  match (d.run n).outcome σ.signature with
  | .ok (o, S) => .ok ⟨S, σ.outcomes ++ [o]⟩
  | .error (e, S) => .error (e, ⟨S, σ.outcomes⟩)

theorem step_eq_ok {n : Nat} {σ σ' : Session} {d : Declaration} (h : step n σ d = .ok σ') :
    ∃ o S, (d.command.run n d.span).outcome σ.signature = .ok (o, S) ∧
      σ' = ⟨S, σ.outcomes ++ [o]⟩ := by
  unfold step Declaration.run at h
  cases hrun : (d.command.run n d.span).outcome σ.signature with
  | ok p =>
    rw [hrun] at h
    cases h
    exact ⟨p.1, p.2, rfl, rfl⟩
  | error p =>
    rw [hrun] at h
    cases h

/-- How a program ends, and the session that it leaves. -/
def ending : Except (Stop ElaborationError × Session) Session →
    Session × Option (Stop ElaborationError)
  | .ok σ => (σ, none)
  | .error (e, σ) => (σ, some e)

/-- **A program is a fold of its declarations**, up to the first that fails. -/
theorem run_eq (n : Nat) (σ : Session) (P : Program) :
    Session.run n σ P = ending (P.foldlM (step n) σ) := by
  induction P generalizing σ with
  | nil => rfl
  | cons d P ih =>
    rw [List.foldlM_cons, Session.run]
    dsimp only [step, Declare.outcome]
    obtain ⟨r, T⟩ := (d.run n).run σ.signature
    cases r with
    | ok o => exact ih ⟨T, σ.outcomes ++ [o]⟩
    | error e => rfl

theorem run_eq_iff {n : Nat} {σ₀ σ : Session} {P : Program} :
    Session.run n σ₀ P = (σ, none) ↔ P.foldlM (step n) σ₀ = .ok σ := by
  rw [run_eq]
  cases P.foldlM (step n) σ₀ with
  | ok σ' => simp [ending]
  | error p => simp [ending]

/-- **What each declaration preserves holds after a program.** -/
theorem foldlM_invariant {I : Session → Prop} {n : Nat} {P : Program}
    (hstep : ∀ σ, ∀ d ∈ P, ∀ σ', I σ → step n σ d = .ok σ' → I σ') {σ₀ σ : Session} (h₀ : I σ₀)
    (h : P.foldlM (step n) σ₀ = .ok σ) : I σ := by
  induction P generalizing σ₀ with
  | nil =>
    cases h
    exact h₀
  | cons d P ih =>
    rw [List.foldlM_cons] at h
    obtain ⟨σ', hd, h⟩ := bind_eq_ok.1 h
    refine ih (fun τ e he => hstep τ e (List.mem_cons_of_mem d he)) ?_ h
    exact hstep σ₀ d List.mem_cons_self σ' h₀ hd

/-- One session goes on from another: it has its outcomes, and perhaps more, and more is
declared. -/
structure Extends (σ σ' : Session) : Prop where
  outcomes : ∃ os, σ'.outcomes = σ.outcomes ++ os
  signature : Relation.ReflTransGen Signature.Step σ.signature σ'.signature

namespace Extends

theorem refl (σ : Session) : Extends σ σ := ⟨⟨[], (List.append_nil _).symm⟩, .refl⟩

theorem trans {σ σ' σ'' : Session} (h : Extends σ σ') (h' : Extends σ' σ'') : Extends σ σ'' := by
  obtain ⟨os, hos⟩ := h.outcomes
  obtain ⟨os', hos'⟩ := h'.outcomes
  exact ⟨⟨os ++ os', by rw [hos', hos, List.append_assoc]⟩, h.signature.trans h'.signature⟩

end Extends

theorem step_extends (n : Nat) (σ : Session) (d : Declaration) :
    Post (step n σ d) (Extends σ) fun p => Extends σ p.2 := by
  have hd := Command.run_reaches n d.span d.command.declares_any σ.signature
  unfold step Declaration.run
  cases h : (d.command.run n d.span).outcome σ.signature with
  | ok p => exact ⟨⟨[p.1], rfl⟩, Signature.steps_of_admits (hd.of_ok h)⟩
  | error p =>
    exact ⟨⟨[], (List.append_nil _).symm⟩, Signature.steps_of_admits (hd.of_error h)⟩

/-- **A session keeps its outcomes and what is declared**, however a program ends. -/
theorem foldlM_extends (n : Nat) (σ : Session) (P : Program) :
    Post (P.foldlM (step n) σ) (Extends σ) fun p => Extends σ p.2 := by
  induction P generalizing σ with
  | nil => exact .refl σ
  | cons d P ih =>
    rw [List.foldlM_cons]
    refine Post.bind (step_extends n σ d) fun σ' _ h => ?_
    exact (ih σ').mono (fun _ h' => h.trans h') fun _ h' => h.trans h'

end Session

/-! ### Positions and labels -/

section

variable {f : Label → Label} {Q : Halt → Prop} {n m : Nat}

theorem Term.pis_relabel (T : List (Label × Term)) (t : Term) :
    (Term.pis T t).relabel f = .pis (T.map fun p => (f p.1, p.2.relabel f)) (t.relabel f) := by
  induction T with
  | nil => rfl
  | cons p T ih =>
    rw [List.map_cons, Term.pis, List.foldr_cons, Term.relabel, ← Term.pis, ih]
    rfl

variable (hf : Thins f) (hnm : FuelLe Q n m)

include hnm

theorem Context.bindAll_relabel (Γ : Context) (T : List (Label × Term)) :
    Carries Q id (Context.relabel f) (Γ.bindAll n T)
      ((Γ.relabel f).bindAll m (T.map fun p => (f p.1, p.2.relabel f))) := by
  induction T generalizing Γ with
  | nil => rfl
  | cons p T ih =>
    refine .bind (Γ.eval_relabel f hnm p.2) fun v _ => ?_
    rw [← Context.bind_relabel]
    exact ih (Γ.bind p.1 v)

include hf

/-- **Closed expressions elaborate alike without positions**, and with labels thinned out. -/
theorem Expression.elaborate_unplaces (S : Signature) {e : Expression} (he : e.Kept f)
    (expected : Option Value) :
    Carries (Stop.Lacks Q) (Stop.unplaced f) (relabelTyped f) (e.elaborate S n expected)
      (e.unplaced.elaborate (S.relabel f) m (expected.map (Value.relabel f))) := by
  rw [Expression.elaborate, Expression.elaborate, Expression.span_unplaced]
  refine .bind ((Context.unplaces hf hnm).elaborate (.empty S) expected he) fun x _ => ?_
  obtain ⟨t, A⟩ := x
  refine .bind (((Context.relabels f hf.map_none hnm).check (.empty S) t A).at e.span)
    fun _ _ => rfl

theorem Expression.elaborateType_unplaces (S : Signature) {e : Expression} (he : e.Kept f) :
    Carries (Stop.Lacks Q) (Stop.unplaced f) (relabelTyped f) (e.elaborateType S n)
      (e.unplaced.elaborateType (S.relabel f) m) := by
  refine .bind ((Context.unplaces hf hnm).elaborateType (.empty S) he) fun x _ => ?_
  exact .bind ((eval_relabel f hnm).1 [] x.1).within fun v _ => rfl

theorem elaborateParameters_unplaces (Γ : Context) {ps : List Parameter}
    (hps : ∀ p ∈ ps, f p.label.value = p.label.value ∧ p.type.Kept f) :
    Carries (Stop.Lacks Q) (Stop.unplaced f) (List.map fun p => (f p.1, p.2.relabel f))
      (elaborateParameters n Γ ps)
      (elaborateParameters m (Γ.relabel f) (ps.map Parameter.unplaced)) := by
  induction ps generalizing Γ with
  | nil => rfl
  | cons p ps ih =>
    obtain ⟨⟨hl, ht⟩, hps⟩ := List.forall_mem_cons.1 hps
    refine .bind ((Context.unplaces hf hnm).elaborateType Γ ht) fun x _ => ?_
    refine .bind (Γ.eval_relabel f hnm x.1).within fun v _ => ?_
    have hrest := ih (Γ.bind p.label.value v) hps
    rw [Context.bind_relabel, hl] at hrest
    refine .bind hrest fun T _ => congrArg Except.ok ?_
    rw [List.map_cons, hl]
    rfl

theorem elaborateOver_unplaces (S : Signature) (T : List (Label × Term)) {e : Expression}
    (he : e.Kept f) :
    Carries (Stop.Lacks Q) (Stop.unplaced f) (Term.relabel f) (elaborateOver S n T e)
      (elaborateOver (S.relabel f) m (T.map fun p => (f p.1, p.2.relabel f)) e.unplaced) := by
  refine .bind ((Context.empty S).bindAll_relabel hnm T).within fun Γ _ => ?_
  refine .bind ((Context.unplaces hf hnm).elaborateType Γ he) fun x _ => ?_
  exact congrArg Except.ok (Term.pis_relabel T x.1).symm

end

/-- The end of an elaboration with its position forgotten. -/
def Stop.forget : Stop ElaborationError → Stop ElaborationError
  | .halt h => .halt h
  | .error e => .error ⟨default, e.cause⟩

theorem Stop.forget_unplaced (f : Label → Label) (s : Stop ElaborationError) :
    (s.unplaced f).forget = s.unplaced f := by
  cases s <;> rfl

namespace Declare

variable {α β γ δ : Type} {f : Label → Label} {Q : Halt → Prop} {g : α → β} {h : γ → δ}

variable (f Q) in
/-- A declaration runs as another does, on the signature with its labels changed and apart from
the positions of errors. -/
def Unplaces (g : α → β) (x : Declare α) (x' : Declare β) : Prop :=
  ∀ S, Carries (fun p => Stop.Lacks Q p.1) (fun p => (p.1.unplaced f, p.2.relabel f))
    (fun p => (g p.1, p.2.relabel f)) (x.outcome S)
    ((x'.outcome (S.relabel f)).mapError fun p => (p.1.forget, p.2))

namespace Unplaces

theorem pure (a : α) : Unplaces f Q g (pure a) (pure (g a)) := fun _ => rfl

theorem bind {x : Declare α} {x' : Declare β} {k : α → Declare γ} {k' : β → Declare δ}
    (hx : Unplaces f Q g x x') (hk : ∀ a, Unplaces f Q h (k a) (k' (g a))) :
    Unplaces f Q h (x >>= k) (x' >>= k') := by
  intro S
  have hmap {r : Except (Stop ElaborationError × Signature) (β × Signature)} {k'' :
      β × Signature → Except (Stop ElaborationError × Signature) (δ × Signature)} :
      (r >>= k'').mapError (fun p => (p.1.forget, p.2)) =
        r.mapError (fun p => (p.1.forget, p.2)) >>= fun a =>
          (k'' a).mapError fun p => (p.1.forget, p.2) := by
    cases r <;> rfl
  rw [outcome_bind, outcome_bind, hmap]
  exact .bind (hx S) fun p _ => hk p.1 p.2

theorem forM {κ : Type} {r : α → κ} {k : α → Declare PUnit} {k' : κ → Declare PUnit}
    {as : List α} (hk : ∀ a ∈ as, Unplaces f Q id (k a) (k' (r a))) :
    Unplaces f Q id (as.forM k) ((as.map r).forM k') := by
  induction as with
  | nil => exact .pure ()
  | cons a as ih =>
    refine .bind (hk a List.mem_cons_self) fun _ => ?_
    exact ih fun x hx => hk x (List.mem_cons_of_mem a hx)

theorem elaborating {x : Signature → Elaborate α} {x' : Signature → Elaborate β}
    (hx : ∀ S, Carries (Stop.Lacks Q) (Stop.unplaced f) g (x S) (x' (S.relabel f))) :
    Unplaces f Q g (elaborating x) (elaborating x') := by
  intro S
  have hS := hx S
  rw [outcome_elaborating, outcome_elaborating]
  cases hxS : x S with
  | ok a =>
    rw [hxS] at hS
    rw [show x' (S.relabel f) = .ok (g a) from hS]
    rfl
  | error s =>
    rw [hxS] at hS
    obtain hs | hs := hS
    · exact .mends hs
    · rw [hs]
      exact .error (congrArg (fun t => Except.error (t, S.relabel f)) (s.forget_unplaced f))

theorem admitting (span span' : Span) {u : Update α} {u' : Update β}
    {x : Signature → Check (Signature × α)} {x' : Signature → Check (Signature × β)}
    (hu : u.Refines x) (hu' : u'.Refines x')
    (hx : ∀ S, Carries (Stop.Lacks Q) (Stop.relabel f) (fun p => (p.1.relabel f, g p.2)) (x S)
      (x' (S.relabel f))) :
    Unplaces f Q g (admitting span u) (admitting span' u') := by
  intro S
  have hS := hx S
  rw [outcome_admitting span hu, outcome_admitting span' hu']
  cases hxS : x S with
  | ok p =>
    rw [hxS] at hS
    rw [show x' (S.relabel f) = .ok (p.1.relabel f, g p.2) from hS]
    rfl
  | error s =>
    rw [hxS] at hS
    obtain hs | hs := hS
    · cases s with
      | halt e => exact .mends hs
      | error e => exact hs.elim
    · rw [hs]
      cases s <;> exact .error rfl

end Unplaces

end Declare

/-- The relabelling keeps the names and labels in the expressions of a command. -/
def Command.Kept (f : Label → Label) : Command → Prop
  | .data _ ps a cs => (∀ p ∈ ps, f p.label.value = p.label.value ∧ p.type.Kept f) ∧ a.Kept f ∧
      ∀ c ∈ cs, c.type.Kept f
  | .postulate _ t => t.Kept f
  | .define _ t v => (∀ e ∈ t, e.Kept f) ∧ v.Kept f
  | .evaluate e => e.Kept f
  | .check e t => e.Kept f ∧ t.Kept f

theorem Command.kept_id (c : Command) : c.Kept id := by
  cases c with
  | data n ps a cs => exact ⟨fun p _ => ⟨rfl, p.type.kept_id⟩, a.kept_id, fun c _ => c.type.kept_id⟩
  | postulate n t => exact t.kept_id
  | define n t v => exact ⟨fun e _ => e.kept_id, v.kept_id⟩
  | evaluate e => exact e.kept_id
  | check e t => exact ⟨e.kept_id, t.kept_id⟩

/-- An outcome with its labels changed. -/
def Outcome.relabel (f : Label → Label) : Outcome → Outcome
  | .declared name => .declared name
  | .evaluated t v A => .evaluated (t.relabel f) (v.relabel f) (A.relabel f)
  | .checked t A => .checked (t.relabel f) (A.relabel f)

section

variable {f : Label → Label} {Q : Halt → Prop} {n m : Nat} (hf : Thins f) (hnm : FuelLe Q n m)

include hf hnm

theorem elaborateDefinition_unplaces (S : Signature) {type : Option Expression}
    {value : Expression} (ht : ∀ e ∈ type, e.Kept f) (hv : value.Kept f) :
    Carries (Stop.Lacks Q) (Stop.unplaced f) (fun p => (p.1.relabel f, p.2.relabel f))
      (Command.elaborateDefinition S n type value)
      (Command.elaborateDefinition (S.relabel f) m (type.map Expression.unplaced)
        value.unplaced) := by
  cases type with
  | some type =>
    refine .bind (Expression.elaborateType_unplaces hf hnm S (ht type rfl)) fun x _ => ?_
    exact .bind (Expression.elaborate_unplaces hf hnm S hv (some x.2)) fun y _ => rfl
  | none =>
    refine .bind (Expression.elaborate_unplaces hf hnm S hv none) fun x _ => ?_
    exact .bind ((readBack_relabel f hnm).1 0 x.2).within fun t _ => rfl

theorem Command.runData_unplaces (span span' : Span) (name : Located Name)
    {ps : List Parameter} {arity : Expression} {cs : List ConstructorClause}
    (hps : ∀ p ∈ ps, f p.label.value = p.label.value ∧ p.type.Kept f) (ha : arity.Kept f)
    (hcs : ∀ c ∈ cs, c.type.Kept f) :
    Declare.Unplaces f Q (Outcome.relabel f) (Command.runData n span name ps arity cs)
      (Command.runData m span' ⟨name.value, 0⟩ (ps.map Parameter.unplaced) arity.unplaced
        (cs.map ConstructorClause.unplaced)) := by
  refine .bind (.elaborating fun S => elaborateParameters_unplaces hf hnm (.empty S) hps)
    fun T => ?_
  refine .bind (.elaborating fun S => elaborateOver_unplaces hf hnm S T ha) fun type => ?_
  rw [List.length_map]
  refine .bind (g := id) (.admitting span span' (Update.openFamily_refines _ _ _ _)
    (Update.openFamily_refines _ _ _ _) fun S => ?_) fun _ => ?_
  · exact S.openFamily_relabel hnm hf.map_none name.value T.length type
  refine .bind (.forM fun c hc => ?_) fun _ => ?_
  · refine .bind (.elaborating fun S => elaborateOver_unplaces hf hnm S T (hcs c hc))
      fun type => ?_
    refine .bind (g := id) (.admitting _ _ (Update.declareConstructor_refines _ _ _ _)
      (Update.declareConstructor_refines _ _ _ _) fun S => ?_) fun _ => .pure ()
    exact S.declareConstructor_relabel hnm hf.map_none name.value c.name.value type
  · refine .bind (g := id) (.admitting span span' (Update.closeFamily_refines _)
      (Update.closeFamily_refines _) fun S => S.closeFamily_relabel name.value)
      fun _ => .pure _

/-- **A command runs alike without positions**, and with labels thinned out. -/
theorem Command.run_unplaces (span span' : Span) {c : Command} (hc : c.Kept f) :
    Declare.Unplaces f Q (Outcome.relabel f) (c.run n span) (c.unplaced.run m span') := by
  cases c with
  | data name ps arity cs => exact runData_unplaces hf hnm span span' name hc.1 hc.2.1 hc.2.2
  | postulate name type =>
    refine .bind (.elaborating fun S => Expression.elaborateType_unplaces hf hnm S hc)
      fun x => ?_
    refine .bind (g := id) (.admitting span span' (Update.postulate_refines _ _ _)
      (Update.postulate_refines _ _ _) fun S => ?_) fun _ => .pure _
    exact .bind (S.postulate_relabel hnm hf.map_none name.value x.1) fun _ _ => rfl
  | define name type value =>
    refine .bind (.elaborating fun S => elaborateDefinition_unplaces hf hnm S hc.1 hc.2)
      fun x => ?_
    refine .bind (g := id) (.admitting span span' (Update.define_refines _ _ _ _)
      (Update.define_refines _ _ _ _) fun S => ?_) fun _ => .pure _
    exact .bind (S.define_relabel hnm hf.map_none name.value x.1 x.2) fun _ _ => rfl
  | evaluate term =>
    refine .elaborating fun S => ?_
    refine .bind (Expression.elaborate_unplaces hf hnm S hc none) fun x _ => ?_
    refine .bind (g := Term.relabel f) (.within ?_) fun v _ => ?_
    · exact .bind ((eval_relabel f hnm).1 [] x.1) fun v _ => (readBack_relabel f hnm).1 0 v
    · exact .bind ((readBack_relabel f hnm).1 0 x.2).within fun A _ => rfl
  | check term type =>
    refine .elaborating fun S => ?_
    refine .bind (Expression.elaborateType_unplaces hf hnm S hc.2) fun x _ => ?_
    exact .bind (Expression.elaborate_unplaces hf hnm S hc.1 (some x.2)) fun y _ => rfl

end

/-! ### Sessions without positions -/

/-- A session with its labels changed. -/
def Session.relabel (f : Label → Label) (σ : Session) : Session :=
  ⟨σ.signature.relabel f, σ.outcomes.map (Outcome.relabel f)⟩

theorem foldlM_mapError {α β ε ε' : Type} (q : ε → ε') (step : β → α → Except ε β) (as : List α)
    (b : β) :
    (as.foldlM step b).mapError q = as.foldlM (fun b a => (step b a).mapError q) b := by
  induction as generalizing b with
  | nil => rfl
  | cons a as ih =>
    rw [List.foldlM_cons, List.foldlM_cons]
    cases step b a with
    | ok c => exact ih c
    | error e => rfl

namespace Session

section

variable {f : Label → Label} {Q : Halt → Prop} {n m : Nat} (hf : Thins f) (hnm : FuelLe Q n m)

include hf hnm

theorem step_unplaces (σ : Session) {d : Declaration} (hd : d.command.Kept f) :
    Carries (fun p => Stop.Lacks Q p.1) (fun p => (p.1.unplaced f, p.2.relabel f)) (relabel f)
      (step n σ d) ((step m (σ.relabel f) d.unplaced).mapError fun p => (p.1.forget, p.2)) := by
  have h := Command.run_unplaces hf hnm d.span default hd σ.signature
  unfold step
  dsimp only [Declaration.run, Declaration.unplaced, relabel]
  cases hx : (d.command.run n d.span).outcome σ.signature with
  | ok p =>
    rw [hx] at h
    rw [mapError_eq_ok.1 h]
    refine congrArg Except.ok ?_
    rw [relabel, List.map_append]
    rfl
  | error p =>
    rw [hx] at h
    obtain hp | h := h
    · exact .mends hp
    · cases hy : (d.command.unplaced.run m default).outcome (σ.signature.relabel f) with
      | ok p' =>
        rw [hy] at h
        cases h
      | error p' =>
        rw [hy] at h
        obtain ⟨he, hS⟩ := Prod.ext_iff.1 (Except.error.inj h)
        refine .error (congrArg Except.error (Prod.ext he ?_))
        exact congrArg (Session.mk · (σ.outcomes.map (Outcome.relabel f))) hS

/-- **A program runs alike without positions**, and with labels thinned out. -/
theorem foldlM_unplaces (σ : Session) {P : Program} (hP : ∀ d ∈ P, d.command.Kept f) :
    Carries (fun p => Stop.Lacks Q p.1) (fun p => (p.1.unplaced f, p.2.relabel f)) (relabel f)
      (P.foldlM (step n) σ)
      (((P.map Declaration.unplaced).foldlM (step m) (σ.relabel f)).mapError
        fun p => (p.1.forget, p.2)) := by
  rw [foldlM_mapError]
  exact .foldlM fun σ d hd => step_unplaces hf hnm σ (hP d hd)

end

end Session

theorem Stop.unplaced_id (s : Stop ElaborationError) : s.unplaced id = s.forget := by
  cases s with
  | halt h => rfl
  | error e =>
    refine congrArg (fun cause => Stop.error (ElaborationError.mk default cause)) ?_
    cases e.cause with
    | kernel e =>
      cases e with
      | type e =>
        cases e <;> simp [ElaborationCause.relabel, KernelError.relabel, TypeError.relabel,
          Term.relabel_id]
      | signature e => rfl
      | violation v => rfl
    | _ => simp [ElaborationCause.relabel, Term.relabel_id]

theorem Outcome.relabel_id (o : Outcome) : o.relabel id = o := by
  cases o <;> simp [Outcome.relabel, Term.relabel_id]

theorem Session.relabel_id (σ : Session) : σ.relabel id = σ := by
  rw [Session.relabel, Signature.relabel_id, funext Outcome.relabel_id]
  exact congrArg (Session.mk σ.signature) (List.map_id _)

/-- **More fuel and no positions** change nothing but the positions of errors, unless fuel was
lacking. -/
theorem Session.foldlM_unplaced {n m : Nat} (hnm : n ≤ m) (σ : Session) (P : Program) :
    Carries (fun p => Stop.Lacks (· = .exhausted) p.1) (fun p => (p.1.forget, p.2)) id
      (P.foldlM (step n) σ)
      (((P.map Declaration.unplaced).foldlM (step m) σ).mapError fun p => (p.1.forget, p.2)) := by
  have h := foldlM_unplaces thins_id (.of_le hnm) σ fun d (_ : d ∈ P) => d.command.kept_id
  rw [relabel_id, funext relabel_id] at h
  simp only [Stop.unplaced_id] at h
  exact h

end Constructions
