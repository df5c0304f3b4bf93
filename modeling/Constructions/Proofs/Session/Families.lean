/-
# Families that are declared in a source

A `data` declaration elaborates the parameters of a family once.  The type of the former and the
type of each constructor are then elaborated in their scope, and abstracted over them.  So all
these types bind the same parameters, and the kernel, which compares the parameters of a
constructor with those of its family, can never find a difference:

* opening function types over a telescope opens at least the binders of the telescope
  (`Term.length_le_of_pis`), and two of them have the same domains (`Term.pis_domains`);
* the former was computed before the family was declared, but computing it afterwards gives the
  same value (`Signature.Holds.eval`);
* a value is convertible with itself, as far as conversion returns (`Value.convert_self`).

The last fact holds of all values, also of those that nobody has checked.  So nothing is assumed
about the signature in which the family is declared.
-/

import Constructions.Proofs.Refusals
import Constructions.Proofs.Session.Failure

namespace Constructions

/-! ### Conversion is reflexive -/

section

variable {α : Type} {compare : α → α → Except Halt Bool} {as : List α} {b : Bool}

theorem convertZip_self (h : ∀ a b, compare a a = .ok b → b = true)
    (hb : convertZip compare as as = .ok b) : b = true := by
  induction as with
  | nil =>
    cases hb
    rfl
  | cons a as ih =>
    obtain ⟨p, hp, hb⟩ := bind_eq_ok.1 hb
    obtain rfl := h a p hp
    exact ih hb

theorem convertList_self (h : ∀ a b, compare a a = .ok b → b = true)
    (hb : convertList compare as as = .ok b) : b = true := by
  rw [convertList, if_pos rfl] at hb
  exact convertZip_self h hb

end

/-- **A value is convertible with itself,** as far as conversion returns. -/
theorem Value.convert_self (S : Signature) (n : Nat) :
    (∀ level (v : Value) b, v.convert S n level v = .ok b → b = true) ∧
      ∀ level (m : Neutral) b, m.convert S n level m = .ok b → b = true := by
  induction n with
  | zero =>
    refine ⟨fun level v b h => ?_, fun level m b h => ?_⟩ <;> cases h
  | succ n ih =>
    obtain ⟨ihv, ihm⟩ := ih
    -- the bodies of a binder are computed alike on both sides
    have hbody {level : Nat} {d : Value} {c : Closure} {b : Bool}
        (h : (do
          if ← d.convert S n level d then
            let v ← c.enter S n level
            let v' ← c.enter S n level
            v.convert S n (level + 1) v'
          else .ok false : Except Halt Bool) = .ok b) : b = true := by
      obtain ⟨p, hp, h⟩ := bind_eq_ok.1 h
      obtain rfl := ihv level d p hp
      obtain ⟨v, hv, h⟩ := bind_eq_ok.1 h
      obtain ⟨v', hv', h⟩ := bind_eq_ok.1 h
      cases hv.symm.trans hv'
      exact ihv _ v b h
    refine ⟨fun level v b h => ?_, fun level m b h => ?_⟩
    · cases v with
      | neutral m => exact ihm level m b h
      | type l =>
        rw [Value.convert, beq_self_eq_true] at h
        exact (Except.ok.inj h).symm
      | pi d c => exact hbody h
      | lam d c => exact hbody h
      | former F as =>
        rw [Value.convert, if_pos rfl] at h
        exact convertList_self (ihv level) h
      | con c as =>
        rw [Value.convert, if_pos rfl] at h
        exact convertList_self (ihv level) h
    · cases m with
      | var label l =>
        rw [Neutral.convert, beq_self_eq_true] at h
        exact (Except.ok.inj h).symm
      | const c =>
        rw [Neutral.convert, beq_self_eq_true] at h
        exact (Except.ok.inj h).symm
      | app f a =>
        obtain ⟨p, hp, h⟩ := bind_eq_ok.1 h
        obtain rfl := ihm level f p hp
        exact ihv level a b h
      | elim t M ms =>
        obtain ⟨p, hp, h⟩ := bind_eq_ok.1 h
        obtain rfl := ihm level t p hp
        obtain ⟨q, hq, h⟩ := bind_eq_ok.1 h
        obtain rfl := ihv level M q hq
        exact convertList_self (ihv level) h

theorem convertDomains_self {S : Signature} {n level : Nat} {ds : List Value} {b : Bool}
    (h : convertDomains S n level ds ds = .ok b) : b = true := by
  induction ds generalizing level with
  | nil =>
    cases h
    rfl
  | cons d ds ih =>
    obtain ⟨p, hp, h⟩ := bind_eq_ok.1 h
    obtain rfl := (Value.convert_self S n).1 level d p hp
    exact ih h

/-! ### Function types over a telescope -/

namespace Term

variable {S : Signature} {n m level : Nat} {env : Env} {Δ : List (Label × Term)} {t u : Term}
  {A B : Value} {P E : Telescope}

/-- The value of a function type. -/
theorem eval_pi_eq_ok {label : Label} {D C : Term} (h : (Term.pi label D C).eval S n env = .ok A) :
    ∃ k d, n = k + 1 ∧ D.eval S k env = .ok d ∧ A = .pi d (.mk env label C) := by
  cases n with
  | zero => cases h
  | succ k =>
    obtain ⟨d, hd, h⟩ := bind_eq_ok.1 h
    cases h
    exact ⟨k, d, rfl, hd, rfl⟩

/-- A function type is opened at its first binder, if any may be opened. -/
theorem telescope_pi_eq_ok {d : Value} {c : Closure} {limit : Option Nat} (hlimit : limit ≠ some 0)
    (h : (Value.pi d c).telescope S m level limit = .ok P) :
    ∃ k v Q, m = k + 1 ∧ c.enter S k level = .ok v ∧
      v.telescope S k (level + 1) (limit.map (· - 1)) = .ok Q ∧ P.length = Q.length + 1 ∧
      P.domains = d :: Q.domains := by
  cases m with
  | zero => cases h
  | succ k =>
    rw [Value.telescope] at h
    · obtain ⟨v, hv, h⟩ := bind_eq_ok.1 h
      obtain ⟨Q, hQ, h⟩ := bind_eq_ok.1 h
      cases h
      exact ⟨k, v, Q, rfl, hv, hQ, rfl, rfl⟩
    · exact hlimit

/-- **At least the binders of the telescope are opened.** -/
theorem length_le_of_pis (hA : (pis Δ t).eval S n env = .ok A) {S' : Signature}
    (hP : A.telescope S' m level none = .ok P) : Δ.length ≤ P.length := by
  induction Δ generalizing S n m level env A P with
  | nil => exact Nat.zero_le _
  | cons binder Δ ih =>
    obtain ⟨k, d, rfl, hd, rfl⟩ := eval_pi_eq_ok hA
    obtain ⟨k', v, Q, rfl, hv, hQ, hlength, -⟩ := telescope_pi_eq_ok (by simp) hP
    rw [hlength]
    exact Nat.succ_le_succ (ih (S := S') hv hQ)

/-- **Function types over one telescope bind it alike.** -/
theorem pis_domains (hA : (pis Δ t).eval S n env = .ok A) (hB : (pis Δ u).eval S n env = .ok B)
    (hP : A.telescope S m level (some Δ.length) = .ok P)
    (hE : B.telescope S m level (some Δ.length) = .ok E) :
    P.length = Δ.length ∧ P.domains = E.domains := by
  induction Δ generalizing n m level env A B P E with
  | nil =>
    cases m with
    | zero => cases hP
    | succ k =>
      cases hP
      cases hE
      exact ⟨rfl, rfl⟩
  | cons binder Δ ih =>
    obtain ⟨k, d, rfl, hd, rfl⟩ := eval_pi_eq_ok hA
    obtain ⟨k', d', hk, hd', rfl⟩ := eval_pi_eq_ok hB
    cases hk
    cases hd.symm.trans hd'
    obtain ⟨j, v, Q, rfl, hv, hQ, hlength, hdomains⟩ := telescope_pi_eq_ok (by simp) hP
    obtain ⟨j', w, R, hj, hw, hR, -, hdomains'⟩ := telescope_pi_eq_ok (by simp) hE
    cases hj
    obtain ⟨hQlength, hQdomains⟩ := ih hv hw hQ hR
    exact ⟨by rw [hlength, hQlength, List.length_cons], by rw [hdomains, hdomains', hQdomains]⟩

end Term

/-! ### The registry -/

namespace Signature

variable {S S' : Signature} {n : Nat} {F : Family} {Ks : List Constructor}
  {Δ : List (Label × Term)} {t : Term} {A : Value}

/-- What is looked up in a signature is found in it when there is one more family. -/
theorem Holds.agrees (h : S.Holds F Ks S') : S.Agrees (fun _ => True) .any S' := by
  have hid := h.id
  obtain rfl : S' = S.withFamily F hid Ks := h.tables
  refine ⟨Leaves.closed_any S, fun _ => rfl, fun c => ?_, fun id => .inl ?_⟩
  · cases hK : S.constructor? c with
    | none => exact .inl ⟨_, rfl, trivial⟩
    | some K =>
      have hK' : (S.withFamily F hid Ks).constructor? c = some K := by
        rw [constructor?, Array.getElem?_eq_some_iff] at hK
        obtain ⟨hlt, hK⟩ := hK
        simp [constructor?, withFamily, Array.getElem?_append, hlt, hK]
      rw [hK']
      exact .refl _
  · cases hG : S.family? id with
    | none => exact .inl ⟨_, rfl, trivial⟩
    | some G =>
      have hG' : (S.withFamily F hid Ks).family? id = some G := by
        rw [family?, Array.getElem?_eq_some_iff] at hG
        obtain ⟨hlt, hG⟩ := hG
        simp [family?, withFamily, Array.getElem?_push, Nat.ne_of_lt hlt, hlt, hG]
      rw [hG']
      exact .refl _

/-- **What was computed before the family was declared is computed alike afterwards.** -/
theorem Holds.eval (h : S.Holds F Ks S') (hA : t.eval S n [] = .ok A) : t.eval S' n [] = .ok A :=
  ((eval_mends h.agrees (Nat.le_refl n) fun hlt => absurd hlt (Nat.lt_irrefl n)).1 .nil
    t.all_any).eq_ok hA

/-- **The types `A` and `B` bind their first `p` parameters alike:** as far as they can be opened,
both have so many, and their domains are convertible. -/
def BindsAlike (S : Signature) (p : Nat) (A B : Value) : Prop :=
  ∀ m P E, A.telescope S m 0 (some p) = .ok P → B.telescope S m 0 (some p) = .ok E →
    P.length = p ∧ E.length = p ∧ ∀ k b, convertDomains S k 0 P.domains E.domains = .ok b → b = true

theorem bindsAlike_pis {u : Term} {B : Value} (hA : (Term.pis Δ t).eval S n [] = .ok A)
    (hB : (Term.pis Δ u).eval S n [] = .ok B) : S.BindsAlike Δ.length A B := by
  intro m P E hP hE
  obtain ⟨hlength, hdomains⟩ := Term.pis_domains hA hB hP hE
  have hElength : E.length = P.length := by
    have := congrArg List.length hdomains
    rwa [Telescope.domains, Telescope.domains, List.length_map, List.length_map, eq_comm] at this
  refine ⟨hlength, hElength.trans hlength, fun k b hb => ?_⟩
  rw [hdomains] at hb
  exact convertDomains_self hb

theorem eval_of_admitType (h : S.admitType n t = .ok A) : t.eval S n [] = .ok A := by
  obtain ⟨_, _, h⟩ := bind_eq_ok.1 h
  exact liftM_eq_ok.1 h

theorem reserve_spares {M : KernelError → Prop} (S : Signature) {name : Name}
    (hM : ¬ M (.signature (.duplicateName name))) : Spares M (S.reserve name) := by
  unfold reserve
  split
  · exact hM
  · exact .ok ()

theorem admitType_spares (S : Signature) (n : Nat) (t : Term) :
    Spares KernelError.Misuses (S.admitType n t) :=
  .bind ((Context.kernel_spares n).checkType _ t) fun _ _ => .lift _

/-- **A family over a telescope has its parameters.** -/
theorem openFamily_spares (S : Signature) (n : Nat) (name : Name) (Δ : List (Label × Term))
    (t : Term) : Spares KernelError.Misuses (S.openFamily n name Δ.length (.pis Δ t)) := by
  refine .bind (S.reserve_spares id) fun _ _ => .bind (S.admitType_spares n _) fun A hA =>
    .bind (.bind (.lift _) fun T hT => ?_) fun i _ => .ok _
  have hlength := Term.length_le_of_pis (eval_of_admitType hA) (liftM_eq_ok.1 hT)
  rw [if_neg (Nat.not_lt.2 hlength)]
  split
  · exact .ok _
  · exact .signature id

theorem recursivePositions_spares {M : KernelError → Prop} (S : Signature) (n : Nat) (F : Family)
    (ps : List Value) {name : Name} (hM : ∀ i, ¬ M (.signature (.nonPositive name i)))
    (position : Nat) (ds : List Value) :
    Spares M (S.recursivePositions n F ps name position ds) := by
  induction ds generalizing position with
  | nil => exact .ok _
  | cons d ds ih =>
    refine .bind (.lift _) fun b _ => ?_
    cases b with
    | true => exact .bind (ih _) fun _ _ => .ok _
    | false =>
      refine .bind (.lift _) fun q _ => ?_
      split
      · exact hM position
      · exact ih _

/-- A family was declared with the type of a former over the telescope `Δ`. -/
structure Announced (S : Signature) (n : Nat) (Δ : List (Label × Term)) (F : Family) : Prop where
  count : F.parameterCount = Δ.length
  type : ∃ t, (Term.pis Δ t).eval S n [] = .ok F.type

namespace Holds

variable (h : S.Holds F Ks S')

include h

theorem isFinalized : F.isFinalized = false := by
  rw [Family.isFinalized, h.state]

/-- The family that is open is found by its name. -/
theorem familyNamed_eq_ok : S'.familyNamed F.name = .ok F := by
  refine familyNamed_of_eq_some ?_
  rw [familyNamed?, h.entry]
  exact h.family?_eq_some

/-- **A constructor over the telescope binds the parameters of the family.** -/
theorem declareConstructor_spares (hF : S.Announced n Δ F) (name : Name) (u : Term) :
    Spares KernelError.Misuses (S'.declareConstructor n F.name name (.pis Δ u)) := by
  obtain ⟨t, ht⟩ := hF.type
  unfold Signature.declareConstructor
  rw [h.familyNamed_eq_ok]
  change Spares _ (if F.isFinalized then _ else _)
  rw [if_neg (Bool.eq_false_iff.1 h.isFinalized)]
  refine .bind (S'.reserve_spares not_false) fun _ _ => .bind (S'.admitType_spares n _) fun A hA =>
    .bind ?_ fun x _ => .ok _
  refine .bind (.lift _) fun P hP => .bind (.lift _) fun E hE => ?_
  have halike := bindsAlike_pis (eval_of_admitType hA) (h.eval ht) n P E
    (hF.count ▸ liftM_eq_ok.1 hP) (hF.count ▸ liftM_eq_ok.1 hE)
  rw [if_pos (halike.1.trans hF.count.symm)]
  refine .bind (.lift _) fun agree hagree => ?_
  obtain rfl := halike.2.2 n agree (liftM_eq_ok.1 hagree)
  refine .bind (.lift _) fun T _ => .bind (S'.recursivePositions_spares n F _
    (fun _ => not_false) _ _) fun r _ => .bind (.lift _) fun b _ => ?_
  cases b with
  | true => exact .ok _
  | false => exact .signature not_false

theorem closeFamily_spares : Spares KernelError.Misuses (S'.closeFamily F.name) := by
  unfold Signature.closeFamily
  rw [h.familyNamed_eq_ok]
  change Spares _ (if F.isFinalized then _ else _)
  rw [if_neg (Bool.eq_false_iff.1 h.isFinalized)]
  split
  · exact .signature not_false
  · exact .ok _

end Holds

end Signature

/-! ### Declarations -/

theorem elaborateParameters_spares (n : Nat) (Γ : Context) (ps : List Parameter) :
    Spares ElaborationError.Misuses (elaborateParameters n Γ ps) := by
  induction ps generalizing Γ with
  | nil => exact .ok []
  | cons p ps ih =>
    exact .bind ((Context.elaboration_spares n).elaborateType Γ p.type) fun _ _ =>
      .bind (.lift _) fun _ _ => .bind (ih _) fun _ _ => .ok _

theorem elaborateOver_spares (S : Signature) (n : Nat) (Δ : List (Label × Term)) (e : Expression) :
    Spares ElaborationError.Misuses (elaborateOver S n Δ e) :=
  .bind (.lift _) fun Γ _ => .bind ((Context.elaboration_spares n).elaborateType Γ e) fun _ _ =>
    .ok _

/-- What is elaborated over a telescope is a function type over it. -/
theorem elaborateOver_eq_ok {S : Signature} {n : Nat} {Δ : List (Label × Term)} {e : Expression}
    {t : Term} (h : elaborateOver S n Δ e = .ok t) : ∃ u, t = .pis Δ u := by
  obtain ⟨Γ, _, h⟩ := bind_eq_ok.1 h
  obtain ⟨x, _, h⟩ := bind_eq_ok.1 h
  cases h
  exact ⟨x.1, rfl⟩

namespace Declare

variable {α : Type} {S : Signature} {M : ElaborationError → Prop}

theorem elaborating_spares {f : Signature → Elaborate α} (h : Spares M (f S)) :
    Post ((elaborating f).outcome S) (fun p => f S = .ok p.1 ∧ p.2 = S) fun p => p.1.Outside M := by
  rw [outcome_elaborating]
  cases hf : f S with
  | ok a => exact ⟨rfl, rfl⟩
  | error s =>
    rw [hf] at h
    exact h

theorem admitting_spares {span : Span} {u : Update α} {f : Signature → Check (Signature × α)}
    (hu : u.Refines f) (h : Spares KernelError.Misuses (f S)) :
    Post ((admitting span u).outcome S) (fun p => f S = .ok (p.2, p.1))
      fun p => p.1.Outside ElaborationError.Misuses := by
  have hat : Spares ElaborationError.Misuses ((f S).at span) := h.at_span fun _ => id
  rw [outcome_admitting span hu]
  cases hf : f S with
  | ok p => rfl
  | error s =>
    rw [hf] at hat
    cases s <;> exact hat

/-- **A loop keeps an invariant,** and fails as one of its rounds does. -/
theorem forM_spares {k : α → Declare PUnit} {I : Signature → Prop} {as : List α}
    (hk : ∀ a S, I S → Post ((k a).outcome S) (fun p => I p.2) fun p => p.1.Outside M)
    (h : I S) : Post ((as.forM k).outcome S) (fun p => I p.2) fun p => p.1.Outside M := by
  induction as generalizing S with
  | nil => exact h
  | cons a as ih =>
    change Post ((k a >>= fun _ => as.forM k).outcome S) _ _
    rw [outcome_bind]
    exact Post.bind (hk a S h) fun p _ hp => ih hp

end Declare

namespace Command

open Signature

variable {S S' : Signature} {n : Nat}

/-- A signature that is left while a family over `Δ` is declared. -/
def Declaring (S : Signature) (n : Nat) (Δ : List (Label × Term)) (name : Name) (S' : Signature) :
    Prop :=
  ∃ F Ks, F.name = name ∧ S.Announced n Δ F ∧ S.Holds F Ks S'

/-- **One clause** spares the registry. -/
theorem clause_spares {Δ : List (Label × Term)} {name : Name} (clause : ConstructorClause)
    (h : Declaring S n Δ name S') :
    Post ((do
        let type ← Declare.elaborating fun S => elaborateOver S n Δ clause.type
        let _ ← Declare.admitting (.at clause.name.locus)
          (Update.declareConstructor n name clause.name.value type) : Declare PUnit).outcome S')
      (fun p => Declaring S n Δ name p.2) fun p => p.1.Outside ElaborationError.Misuses := by
  obtain ⟨F, Ks, rfl, hF, hS'⟩ := h
  rw [Declare.outcome_bind]
  refine Post.bind (Declare.elaborating_spares (elaborateOver_spares S' n Δ clause.type)) ?_
  rintro ⟨type, T⟩ _ ⟨htype, hT⟩
  obtain rfl : T = S' := hT
  obtain ⟨u, rfl⟩ := elaborateOver_eq_ok htype
  rw [Declare.outcome_bind]
  refine Post.bind (Declare.admitting_spares (Update.declareConstructor_refines _ _ _ _)
    (hS'.declareConstructor_spares hF clause.name.value u)) fun p _ hp => ?_
  obtain ⟨state, K, -, hK⟩ := hS'.declareConstructor hp
  exact ⟨{ F with state := state }, Ks ++ [K], rfl, ⟨hF.count, hF.type⟩, hK⟩

theorem runData_spares (n : Nat) (span : Span) (name : Located Name) (parameters : List Parameter)
    (arity : Expression) (clauses : List ConstructorClause) (S : Signature) :
    Post ((runData n span name parameters arity clauses).outcome S) (fun _ => True)
      fun p => p.1.Outside ElaborationError.Misuses := by
  rw [runData, Declare.outcome_bind]
  refine Post.bind (Declare.elaborating_spares (elaborateParameters_spares n _ parameters)) ?_
  rintro ⟨Δ, T⟩ _ ⟨-, hT⟩
  obtain rfl : T = S := hT
  rw [Declare.outcome_bind]
  refine Post.bind (Declare.elaborating_spares (elaborateOver_spares T n Δ arity)) ?_
  rintro ⟨type, S⟩ _ ⟨htype, hS⟩
  obtain rfl : S = T := hS
  obtain ⟨t, rfl⟩ := elaborateOver_eq_ok htype
  rw [Declare.outcome_bind]
  refine Post.bind (Declare.admitting_spares (Update.openFamily_refines _ _ _ _)
    (S.openFamily_spares n name.value Δ t)) fun p _ hp => ?_
  obtain ⟨F, hname, hcount, hA, hF⟩ := openFamily_holds hp
  have hopened : Declaring S n Δ name.value p.2 :=
    ⟨F, [], hname, ⟨hcount, t, eval_of_admitType hA⟩, hF⟩
  rw [Declare.outcome_bind]
  refine Post.bind (Declare.forM_spares (fun clause T hT => clause_spares clause hT) hopened)
    fun q _ hq => ?_
  obtain ⟨G, Ks, hG, -, hq⟩ := hq
  rw [Declare.outcome_bind, ← hG]
  exact Post.bind (Declare.admitting_spares (Update.closeFamily_refines _) hq.closeFamily_spares)
    fun _ _ _ => trivial

end Command

/-- **A family that is declared in a source never misuses the registry.**  Whatever the signature,
the parameters, the arity and the clauses are, a `data` declaration does not fail because too few
parameters are bound, because a constructor binds others, or because the family is unknown or
finalized.  For the type of the former binds the parameters that were elaborated, and the type of
each constructor binds them alike, wherever the family is open. -/
theorem Declaration.data_binds_parameters (n : Nat) (span : Span) (name : Located Name)
    (parameters : List Parameter) (arity : Expression) (clauses : List ConstructorClause)
    (S : Signature) :
    (∀ e S', (Declaration.run n ⟨span, .data name parameters arity clauses⟩).run S =
      (.error (.error e), S') → ¬ e.Misuses) ∧
    ∀ Δ type A, elaborateParameters n (.empty S) parameters = .ok Δ →
      elaborateOver S n Δ arity = .ok type → S.admitType n type = .ok A →
      (∀ m T, A.telescope S m 0 none = .ok T → Δ.length ≤ T.length) ∧
      ∀ F Ks S', F.type = A → S.Holds F Ks S' → ∀ c ∈ clauses, ∀ u B,
        elaborateOver S' n Δ c.type = .ok u → S'.admitType n u = .ok B →
        S'.BindsAlike Δ.length B A := by
  refine ⟨fun e S' h => ?_, fun Δ type A _ htype hA => ⟨fun m T hT => ?_, ?_⟩⟩
  · have hspares := Command.runData_spares n span name parameters arity clauses S
    exact hspares.of_error (Declare.outcome_eq_error.2 h)
  · obtain ⟨t, rfl⟩ := elaborateOver_eq_ok htype
    exact Term.length_le_of_pis (Signature.eval_of_admitType hA) hT
  · rintro F Ks S' rfl hS' c - u B hu hB
    obtain ⟨t, rfl⟩ := elaborateOver_eq_ok htype
    obtain ⟨w, rfl⟩ := elaborateOver_eq_ok hu
    exact Signature.bindsAlike_pis (Signature.eval_of_admitType hB)
      (hS'.eval (Signature.eval_of_admitType hA))

/-- The declaration `data Box (A : Type) : Type { box : A -> Box A, open : A }`. -/
def boxDeclaration : Declaration :=
  ⟨default, .data ⟨"Box", 0⟩ [⟨⟨some "A", 0⟩, .type default 0⟩] (.type default 0)
    [⟨⟨"box", 0⟩, .pi default ⟨none, 0⟩ (.var default "A")
        (.call default (.var default "Box") (.var default "A"))⟩,
      ⟨⟨"open", 0⟩, .var default "A"⟩]⟩

/-- The family `Box` before its constructors are declared. -/
def boxFamily : Family :=
  ⟨⟨0⟩, "Box", 1, 0, .pi (.type 0) (.mk [] (some "A") (.type 0)), .opened []⟩

/-- The second constructor is refused because it does not return the family, not because of the
parameters: the former binds one, and the first constructor binds it alike. -/
theorem box_binds_parameters :
    (∃ S', (boxDeclaration.run 30).run .empty =
      (.error (.error ⟨.at 0, .kernel (.signature (.constructorTarget "open"))⟩), S')) ∧
    ¬ ElaborationError.Misuses ⟨.at 0, .kernel (.signature (.constructorTarget "open"))⟩ ∧
    (∀ m T, boxFamily.type.telescope .empty m 0 none = .ok T → 1 ≤ T.length) ∧
    (Signature.empty.withFamily boxFamily rfl []).BindsAlike 1
      (.pi (.type 0) (.mk [] (some "A")
        (.pi none (.var (some "A") 0) (.former ⟨0⟩ [.var (some "A") 1])))) boxFamily.type :=
  have h := Declaration.data_binds_parameters 30 default ⟨"Box", 0⟩
    [⟨⟨some "A", 0⟩, .type default 0⟩] (.type default 0)
    [⟨⟨"box", 0⟩, .pi default ⟨none, 0⟩ (.var default "A")
        (.call default (.var default "Box") (.var default "A"))⟩,
      ⟨⟨"open", 0⟩, .var default "A"⟩] .empty
  have hbound := h.2 [(some "A", .type 0)] (.pi (some "A") (.type 0) (.type 0)) boxFamily.type
    rfl rfl rfl
  have hopened : Signature.empty.Holds boxFamily [] (Signature.empty.withFamily boxFamily rfl []) :=
    ⟨rfl, rfl, rfl, rfl, fun _ hK => absurd hK List.not_mem_nil, rfl⟩
  ⟨⟨_, rfl⟩, h.1 _ _ rfl, hbound.1,
    hbound.2 boxFamily [] _ rfl hopened _ (List.mem_cons_self ..) _ _ rfl rfl⟩

end Constructions
