/-
# What a failed declaration leaves behind

A request to the kernel that is refused leaves the signature as it was.  A declaration makes
several requests only if it is a `data` declaration: it opens the family, adds the constructors one
after the other, and closes the family.  So when it fails, the family may be there already.

| failing declaration | signature that it leaves |
| --- | --- |
| `axiom`, `def`, `eval`, `check` | the one before it |
| `data`, before the family is opened | the one before it |
| `data`, after that | the one before it, with the open family and its first constructors |

A program that fails has run the declarations before the one at fault, and nothing of those after
it (`Session.run_failure`).
-/

import Constructions.Proofs.Session

namespace Constructions

namespace Signature

variable {S S' : Signature} {n : Nat} {F : Family} {Ks : List Constructor}

/-! ### A family that is not finished -/

/-- The signature with a family after the others, and constructors after the others.  The names of
the constructors are the last ones that were declared. -/
def withFamily (S : Signature) (F : Family) (h : F.id = ⟨S.families.size⟩)
    (Ks : List Constructor) : Signature where
  entries := (Ks.map fun K => (K.name, .constructor K.id)).reverse ++
    (F.name, .family F.id) :: S.entries
  globals := S.globals
  families := S.families.push F
  constructors := S.constructors ++ Ks.toArray
  numbered := numbered_push S.numbered h

/-- Beyond what `S` has, the signature `S'` has a family, which is open, and its constructors. -/
structure Holds (S : Signature) (F : Family) (Ks : List Constructor) (S' : Signature) : Prop where
  id : F.id = ⟨S.families.size⟩
  tables : S' = S.withFamily F id Ks
  state : F.state = .opened (Ks.map (·.id))
  numbers : Ks.map (·.id) = (List.range' S.constructors.size Ks.length).map .mk
  family : ∀ K ∈ Ks, K.family = F.id
  /-- No constructor has taken the name of the family. -/
  entry : Signature.entry? S' F.name = some (.family F.id)

/-- Beyond what `S` has, the signature `S'` has a family with a name, which is open, and its
constructors with the given names, in their order. -/
def Unfinished (S : Signature) (name : Name) (names : List Name) (S' : Signature) : Prop :=
  ∃ F Ks, F.name = name ∧ Ks.map (·.name) = names ∧ S.Holds F Ks S'

/-- Adding a constructor to the last family. -/
theorem addConstructor_withFamily (hid : F.id = ⟨S.families.size⟩) (name : Name) (k : Nat)
    (r : List Nat) (A : Value) :
    let id : ConstructorId := ⟨(S.withFamily F hid Ks).constructors.size⟩
    ((S.withFamily F hid Ks).addConstructor name F k r A).1 =
      S.withFamily { F with state := .opened (F.constructors ++ [id]) } hid
        (Ks ++ [⟨id, name, F.id, F.parameterCount, k, r, A⟩]) := by
  have hset (G : Family) :
      (S.families.push F).setIfInBounds S.families.size G = S.families.push G := by
    simp [Array.setIfInBounds, Array.set_push]
  simp [addConstructor, setFamily, withFamily, hid, hset]

/-- **Opening a family** leaves it without constructors, with the parameters that were announced and
the type that was admitted. -/
theorem openFamily_holds {name : Name} {p : Nat} {type : Term} {id : FamilyId}
    (h : S.openFamily n name p type = .ok (S', id)) :
    ∃ F, F.name = name ∧ F.parameterCount = p ∧ S.admitType n type = .ok F.type ∧
      S.Holds F [] S' := by
  obtain ⟨A, T, l, _, hA, _, _, _, rfl⟩ := openFamily_eq_ok h
  refine ⟨⟨⟨S.families.size⟩, name, p, T.length - p, A, .opened []⟩, rfl, rfl, hA, ?_⟩
  exact
    { id := rfl
      tables := by simp [addFamily, withFamily]
      state := rfl
      numbers := rfl
      family := fun K hK => absurd hK List.not_mem_nil
      entry := by rw [entry?_addFamily, if_pos rfl] }

theorem openFamily_unfinished {name : Name} {p : Nat} {type : Term} {id : FamilyId}
    (h : S.openFamily n name p type = .ok (S', id)) : S.Unfinished name [] S' := by
  obtain ⟨F, hname, -, -, hF⟩ := openFamily_holds h
  exact ⟨F, [], hname, rfl, hF⟩

namespace Holds

variable (h : S.Holds F Ks S')

include h

theorem family?_eq_some : S'.family? F.id = some F := by
  rw [h.tables, family?, h.id]
  exact Array.getElem?_push_size

theorem familyNamed_eq {G : Family} (hG : S'.familyNamed F.name = .ok G) : G = F := by
  obtain ⟨id, hid, hG⟩ := familyNamed_eq_ok hG
  cases h.entry.symm.trans hid
  exact Option.some.inj (hG.symm.trans h.family?_eq_some)

theorem size_constructors : S'.constructors.size = S.constructors.size + Ks.length := by
  rw [h.tables]
  exact Array.size_append

end Holds

/-- **Declaring a constructor** adds it after the others, and the family stays as it is but for its
constructors. -/
theorem Holds.declareConstructor (h : S.Holds F Ks S') {name : Name} {type : Term}
    {id : ConstructorId} {S₁ : Signature}
    (hd : S'.declareConstructor n F.name name type = .ok (S₁, id)) :
    ∃ state K, K.name = name ∧ S.Holds { F with state := state } (Ks ++ [K]) S₁ := by
  obtain ⟨G, A, P, E, T, r, hG, hchecks, hS₁⟩ := declareConstructor_eq_ok_iff.1 hd
  obtain rfl := h.familyNamed_eq hG
  obtain rfl := congrArg Prod.fst hS₁
  have hsize := h.size_constructors
  have hne : G.name ≠ name := by
    rintro rfl
    exact absurd (h.entry.symm.trans hchecks.fresh) (by simp)
  let K : Constructor :=
    ⟨⟨S'.constructors.size⟩, name, G.id, G.parameterCount, T.length, r, A⟩
  refine ⟨.opened (G.constructors ++ [K.id]), K, rfl, ?_⟩
  exact
    { id := h.id
      tables := by
        have hid := h.id
        obtain rfl : S' = S.withFamily G hid Ks := h.tables
        exact addConstructor_withFamily hid name T.length r A
      state := by rw [Family.constructors, h.state, List.map_append, List.map_singleton]
      numbers := by
        rw [List.map_append, h.numbers, List.length_append, List.length_singleton,
          List.range'_1_concat, List.map_append, ← hsize]
        rfl
      family := List.forall_mem_append.2 ⟨h.family, List.forall_mem_singleton.2 rfl⟩
      entry := by rw [entry?_addConstructor, if_neg hne, h.entry] }

theorem Unfinished.declareConstructor {family name : Name} {names : List Name}
    (h : S.Unfinished family names S') {type : Term} {id : ConstructorId} {S₁ : Signature}
    (hd : S'.declareConstructor n family name type = .ok (S₁, id)) :
    S.Unfinished family (names ++ [name]) S₁ := by
  obtain ⟨F, Ks, rfl, rfl, h⟩ := h
  obtain ⟨state, K, rfl, hK⟩ := h.declareConstructor hd
  exact ⟨{ F with state := state }, Ks ++ [K], rfl, List.map_append, hK⟩

/-! ### One declaration -/

/-- What a command that fails on `S` may leave behind: `S` itself or, if it declares a family, `S`
with the family, still open, and with the constructors of its first `j` clauses. -/
inductive Leftover (S : Signature) : Command → Signature → Prop where
  | nothing (c : Command) : Leftover S c S
  | family {name : Located Name} {parameters : List Parameter} {arity : Expression}
      {clauses : List ConstructorClause} {S' : Signature} (j : Nat) : j ≤ clauses.length →
      S.Unfinished name.value ((clauses.take j).map (·.name.value)) S' →
      Leftover S (.data name parameters arity clauses) S'

end Signature

namespace Declare

open Signature

variable {α : Type} {P : α × Signature → Prop} {S : Signature}

/-- Elaboration leaves the signature as it is. -/
theorem elaborating_post {h : Signature → Elaborate α} (hok : ∀ a, h S = .ok a → P (a, S)) :
    Post ((elaborating h).outcome S) P fun p => p.2 = S := by
  rw [outcome_elaborating]
  cases hS : h S with
  | ok a => exact hok a hS
  | error e => exact rfl

/-- A refused update leaves the signature as it is. -/
theorem admitting_post {span : Span} {u : Update α} {h : Signature → Check (Signature × α)}
    (hu : u.Refines h) (hok : ∀ S' a, h S = .ok (S', a) → P (a, S')) :
    Post ((admitting span u).outcome S) P fun p => p.2 = S := by
  rw [outcome_admitting span hu]
  cases hS : h S with
  | ok p => exact hok p.1 p.2 hS
  | error s => cases s <;> exact rfl

/-- **A loop** keeps what each round preserves.  If a round fails, those before it are done. -/
theorem forM_post {k : α → Declare PUnit} {I : List α → Signature → Prop}
    (hk : ∀ before a S, I before S →
      Post ((k a).outcome S) (fun p => I (before ++ [a]) p.2) fun p => p.2 = S)
    (as before : List α) (h : I before S) :
    Post ((as.forM k).outcome S) (fun p => I (before ++ as) p.2)
      fun p => ∃ j ≤ as.length, I (before ++ as.take j) p.2 := by
  induction as generalizing before S with
  | nil => exact (List.append_nil before).symm ▸ h
  | cons a as ih =>
    change Post ((k a >>= fun _ => as.forM k).outcome S) _ _
    rw [outcome_bind]
    refine Post.bind ((hk before a S h).mono (fun _ hp => hp) ?_) fun p _ hp => ?_
    · rintro p rfl
      exact ⟨0, Nat.zero_le _, (List.append_nil before).symm ▸ h⟩
    · refine (ih _ hp).mono (fun q hq => ?_) ?_
      · rwa [List.append_cons]
      · rintro q ⟨j, hj, hq⟩
        refine ⟨j + 1, Nat.succ_le_succ hj, ?_⟩
        rwa [List.take_succ_cons, List.append_cons]

end Declare

namespace Command

open Signature

variable {S S' : Signature} {n : Nat} {name : Located Name}

/-- **One clause** adds its constructor to the open family, or changes nothing. -/
theorem clause_post (telescope : List (Label × Term)) (clause : ConstructorClause)
    {names : List Name} (h : S.Unfinished name.value names S') :
    Post ((do
        let type ← Declare.elaborating fun S => elaborateOver S n telescope clause.type
        let _ ← Declare.admitting (.at clause.name.locus)
          (Update.declareConstructor n name.value clause.name.value type) :
          Declare PUnit).outcome S')
      (fun p => S.Unfinished name.value (names ++ [clause.name.value]) p.2)
      fun p => p.2 = S' := by
  rw [Declare.outcome_bind]
  refine Post.bind (P := fun p => S' = p.2) (Declare.elaborating_post fun _ _ => rfl) ?_
  rintro ⟨type, _⟩ _ rfl
  rw [Declare.outcome_bind]
  refine Post.bind (P := fun p => S.Unfinished name.value (names ++ [clause.name.value]) p.2)
    (Declare.admitting_post (Update.declareConstructor_refines _ _ _ _)
      fun S₁ id hd => h.declareConstructor hd) fun p _ hp => ?_
  exact hp

/-- **A family that fails to be declared** is open, if it is there. -/
theorem runData_leftover (span : Span) (parameters : List Parameter) (arity : Expression)
    (clauses : List ConstructorClause) (S : Signature) :
    Post ((runData n span name parameters arity clauses).outcome S) (fun _ => True)
      fun p => S.Leftover (.data name parameters arity clauses) p.2 := by
  have hnothing {p : Stop ElaborationError × Signature} (hp : p.2 = S) :
      S.Leftover (.data name parameters arity clauses) p.2 := hp ▸ .nothing _
  rw [runData, Declare.outcome_bind]
  refine Post.bind (P := fun p => S = p.2)
    ((Declare.elaborating_post fun _ _ => rfl).mono (fun _ h => h) fun _ => hnothing) ?_
  rintro ⟨telescope, _⟩ _ rfl
  rw [Declare.outcome_bind]
  refine Post.bind (P := fun p => S = p.2)
    ((Declare.elaborating_post fun _ _ => rfl).mono (fun _ h => h) fun _ => hnothing) ?_
  rintro ⟨type, _⟩ _ rfl
  rw [Declare.outcome_bind]
  refine Post.bind (P := fun p => S.Unfinished name.value [] p.2)
    ((Declare.admitting_post (Update.openFamily_refines _ _ _ _)
      fun _ _ h => openFamily_unfinished h).mono (fun _ h => h) fun _ => hnothing)
    fun p _ hopened => ?_
  rw [Declare.outcome_bind]
  have hclauses := Declare.forM_post
    (I := fun done T => S.Unfinished name.value (done.map (·.name.value)) T)
    (fun done clause T h => (clause_post (n := n) telescope clause h).mono
      (fun _ hp => List.map_append ▸ hp) fun _ hp => hp) clauses [] hopened
  refine Post.bind (hclauses.mono (fun _ h => h) ?_) fun p _ hall => ?_
  · rintro p ⟨j, hj, h⟩
    exact .family j hj h
  · rw [Declare.outcome_bind]
    -- The family is refused as it stands: all its constructors are there, and it is open.
    refine Post.bind (P := fun _ => True)
      ((Declare.admitting_post (Update.closeFamily_refines _) fun _ _ _ => trivial).mono
        (fun _ h => h) fun q hq => ?_) fun _ _ _ => trivial
    rw [hq]
    exact .family clauses.length (Nat.le_refl _) (by rwa [List.take_length])

/-- **A command that fails leaves nothing behind but an open family.** -/
theorem run_leftover (n : Nat) (span : Span) (c : Command) (S : Signature) :
    Post ((c.run n span).outcome S) (fun _ => True) fun p => S.Leftover c p.2 := by
  have hnothing {p : Stop ElaborationError × Signature} (hp : p.2 = S) : S.Leftover c p.2 :=
    hp ▸ .nothing c
  have hwrites {u : Update Unit} {h : Signature → Check (Signature × Unit)} (hu : u.Refines h)
      {o : Outcome} : Post ((do Declare.admitting span u; pure o : Declare Outcome).outcome S)
        (fun _ => True) fun p => S.Leftover c p.2 := by
    rw [Declare.outcome_bind]
    exact Post.bind (P := fun _ => True) ((Declare.admitting_post hu fun _ _ _ => trivial).mono
      (fun _ h => h) fun _ => hnothing) fun _ _ _ => trivial
  cases c with
  | data name parameters arity clauses => exact runData_leftover span parameters arity clauses S
  | postulate name type =>
    rw [run, Declare.outcome_bind]
    refine Post.bind (P := fun p => S = p.2)
      ((Declare.elaborating_post fun _ _ => rfl).mono (fun _ h => h) fun _ => hnothing) ?_
    rintro ⟨x, _⟩ _ rfl
    exact hwrites (Update.postulate_refines _ _ _)
  | define name type value =>
    rw [run, Declare.outcome_bind]
    refine Post.bind (P := fun p => S = p.2)
      ((Declare.elaborating_post fun _ _ => rfl).mono (fun _ h => h) fun _ => hnothing) ?_
    rintro ⟨x, _⟩ _ rfl
    exact hwrites (Update.define_refines _ _ _ _)
  | evaluate term | check term type =>
    exact (Declare.elaborating_post fun _ _ => trivial).mono (fun _ h => h) fun _ => hnothing

end Command

/-! ### Programs -/

/-- **A fold that fails** has come to the element at fault. -/
theorem foldlM_eq_error {α β ε : Type} {f : β → α → Except ε β} {as : List α} {b : β} {e : ε}
    (h : as.foldlM f b = .error e) :
    ∃ before a after b', as = before ++ a :: after ∧ before.foldlM f b = .ok b' ∧
      f b' a = .error e := by
  induction as generalizing b with
  | nil => cases h
  | cons a as ih =>
    rw [List.foldlM_cons] at h
    cases hf : f b a with
    | error e' =>
      rw [hf] at h
      exact ⟨[], a, as, b, rfl, rfl, hf.trans h⟩
    | ok b₁ =>
      rw [hf] at h
      obtain ⟨before, a', after, b', rfl, hbefore, ha⟩ := ih h
      refine ⟨a :: before, a', after, b', rfl, ?_, ha⟩
      rw [List.foldlM_cons, hf]
      exact hbefore

namespace Session

open Signature

variable {n : Nat} {σ σ' : Session}

/-- A declaration that fails adds no outcome. -/
theorem step_eq_error {d : Declaration} {e : Stop ElaborationError}
    (h : step n σ d = .error (e, σ')) :
    σ'.outcomes = σ.outcomes ∧ σ.signature.Leftover d.command σ'.signature := by
  have hleft := Command.run_leftover n d.span d.command σ.signature
  unfold step Declaration.run at h
  cases hrun : (d.command.run n d.span).outcome σ.signature with
  | ok p =>
    rw [hrun] at h
    cases h
  | error p =>
    rw [hrun] at h
    cases h
    exact ⟨rfl, hleft.of_error hrun⟩

/-- Each declaration adds one outcome. -/
theorem foldlM_outcomes {P : Program} (h : P.foldlM (step n) σ = .ok σ') :
    ∃ os : List Outcome, os.length = P.length ∧ σ'.outcomes = σ.outcomes ++ os := by
  induction P generalizing σ with
  | nil =>
    cases h
    exact ⟨[], rfl, (List.append_nil _).symm⟩
  | cons d P ih =>
    rw [List.foldlM_cons] at h
    obtain ⟨σ₁, hd, h⟩ := bind_eq_ok.1 h
    obtain ⟨o, S, _, rfl⟩ := step_eq_ok hd
    obtain ⟨os, hos, hσ'⟩ := ih h
    exact ⟨o :: os, congrArg Nat.succ hos, by rw [hσ', List.append_assoc, List.singleton_append]⟩

/-- **Failed declarations leave nothing behind but an open family.**  An update that the kernel
refuses leaves the signature as it was.  A program that fails has run the declarations before
the one at fault, with one outcome each, and none after it; and the signature is the one from before
that declaration, unless it is a `data` declaration, which may leave its family open, with the
constructors of its first clauses. -/
theorem run_failure (n : Nat) :
    (∀ {r : Request} {S S' : Signature} {e : Stop KernelError},
      (r.update n).run S = (.error e, S') → S.answer n r = .error e ∧ S' = S) ∧
    ∀ {σ σ' : Session} {P : Program} {e : Stop ElaborationError},
      Session.run n σ P = (σ', some e) → ∃ before d after σ₁, ∃ os : List Outcome,
        P = before ++ d :: after ∧ Session.run n σ before = (σ₁, none) ∧
        os.length = before.length ∧ σ₁.outcomes = σ.outcomes ++ os ∧
        σ'.outcomes = σ₁.outcomes ∧ σ₁.signature.Leftover d.command σ'.signature := by
  refine ⟨fun {r S S' e} h => ?_, fun {σ σ' P e} h => ?_⟩
  · rw [r.run_update] at h
    cases hr : S.answer n r with
    | ok T =>
      rw [hr] at h
      cases h
    | error s =>
      rw [hr] at h
      cases h
      exact ⟨rfl, rfl⟩
  · rw [run_eq] at h
    cases hfold : P.foldlM (step n) σ with
    | ok σ₁ =>
      rw [hfold] at h
      cases h
    | error p =>
      rw [hfold] at h
      cases h
      obtain ⟨before, d, after, σ₁, hP, hbefore, hd⟩ := foldlM_eq_error hfold
      obtain ⟨os, hlength, hos⟩ := foldlM_outcomes hbefore
      obtain ⟨houtcomes, hleft⟩ := step_eq_error hd
      exact ⟨before, d, after, σ₁, os, hP, run_eq_iff.2 hbefore, hlength, hos, houtcomes, hleft⟩

/-- The program `axiom A : Type data D : Type { a : D, b : (D -> D) -> D } eval a`. -/
def negativeProgram : Program :=
  [⟨default, .postulate ⟨"A", 0⟩ (.type default 0)⟩,
    ⟨default, .data ⟨"D", 0⟩ [] (.type default 0)
      [⟨⟨"a", 0⟩, .var default "D"⟩,
        ⟨⟨"b", 0⟩, .pi default ⟨none, 0⟩
          (.pi default ⟨none, 0⟩ (.var default "D") (.var default "D")) (.var default "D")⟩]⟩,
    ⟨default, .evaluate (.var default "a")⟩]

/-- The second clause is refused, so the family stays, open and with the constructor of the first.
Closing a family without constructors takes its state out and puts it back. -/
theorem negative_run_failure :
    let S : Signature :=
      { entries := [("a", .constructor ⟨0⟩), ("D", .family ⟨0⟩), ("A", .global)]
        globals := [("A", ⟨.type 0, none⟩)]
        families := #[⟨⟨0⟩, "D", 0, 0, .type 0, .opened [⟨0⟩]⟩]
        constructors := #[⟨⟨0⟩, "a", ⟨0⟩, 0, 0, [], .former ⟨0⟩ []⟩] }
    let σ : Session := ⟨S, [.declared "A"]⟩
    let e : Stop ElaborationError := .error ⟨.at 0, .kernel (.signature (.nonPositive "b" 0))⟩
    let E : Signature := (Signature.empty.addFamily "E" 0 0 (.type 0)).1
    let r : Request := .closeFamily "E"
    (r.update 30).run E = (.error (.error (.signature (.noConstructors "E"))), E) ∧
    E.answer 30 r = .error (.error (.signature (.noConstructors "E"))) ∧
    Session.run 30 {} negativeProgram = (σ, some e) ∧
    ∃ before d after σ₁, ∃ os : List Outcome, negativeProgram = before ++ d :: after ∧
      Session.run 30 {} before = (σ₁, none) ∧ os.length = before.length ∧ σ₁.outcomes = [] ++ os ∧
      σ.outcomes = σ₁.outcomes ∧ σ₁.signature.Leftover d.command S := by
  intro S σ e E r
  have hr : (r.update 30).run E = (.error (.error (.signature (.noConstructors "E"))), E) := rfl
  have h : Session.run 30 {} negativeProgram = (σ, some e) := rfl
  exact ⟨hr, ((run_failure 30).1 hr).1, h, (run_failure 30).2 h⟩

end Session

end Constructions
