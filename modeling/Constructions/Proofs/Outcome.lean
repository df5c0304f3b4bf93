/-
# Outcomes of computations

How sequences, maps and folds of computations end, said once for all procedures:

* a sequence succeeds iff its parts do (`bind_eq_ok`), and so for a map over a list
  (`mapM_eq_ok`);
* `Post r P Q` says of an outcome `r` that its result satisfies `P` and its failure
  satisfies `Q`.  The rules for it follow the shape of a procedure, so that a proof
  walks through the procedure from its first step to its last.
-/

import Constructions.Evaluation
import Mathlib.Data.List.Forall2

namespace Constructions

variable {ε α β : Type}

theorem bind_eq_ok {x : Except ε α} {f : α → Except ε β} {b : β} :
    (x >>= f) = .ok b ↔ ∃ a, x = .ok a ∧ f a = .ok b := by
  cases x <;> simp [bind, Except.bind]

/-- **A map over a list succeeds iff it does at each element.** -/
theorem mapM_eq_ok {f : α → Except ε β} {as : List α} {bs : List β} :
    as.mapM f = .ok bs ↔ List.Forall₂ (fun a b => f a = .ok b) as bs := by
  induction as generalizing bs with
  | nil =>
    rw [List.mapM_nil, List.forall₂_nil_left_iff]
    exact ⟨fun h => (Except.ok.inj h).symm, fun h => h ▸ rfl⟩
  | cons a as ih =>
    rw [List.mapM_cons, bind_eq_ok, List.forall₂_cons_left_iff]
    constructor
    · rintro ⟨b, hb, h⟩
      obtain ⟨bs', hbs, h⟩ := bind_eq_ok.1 h
      exact ⟨b, bs', hb, ih.1 hbs, (Except.ok.inj h).symm⟩
    · rintro ⟨b, bs', hb, hbs, rfl⟩
      exact ⟨b, hb, bind_eq_ok.2 ⟨bs', ih.2 hbs, rfl⟩⟩

theorem forall_mem_of_forall₂ {p : β → Prop} {as : List α} {bs : List β}
    (h : List.Forall₂ (fun _ b => p b) as bs) : ∀ b ∈ bs, p b := by
  induction h with
  | nil => simp
  | cons h _ ih => exact List.forall_mem_cons.2 ⟨h, ih⟩

theorem orDangling_eq_ok {o : Option α} {a : α} : orDangling o = .ok a ↔ o = some a := by
  cases o <;> simp [orDangling]

theorem liftM_eq_ok {x : Except Halt α} {a : α} :
    (liftM x : Except (Stop ε) α) = .ok a ↔ x = .ok a := by
  cases x <;> simp [liftM, monadLift, MonadLift.monadLift]

theorem foldlM_liftM {f : β → α → Except Halt β} {as : List α} {b : β} :
    as.foldlM (fun b a => (liftM (f b a) : Except (Stop ε) β)) b = liftM (as.foldlM f b) := by
  induction as generalizing b with
  | nil => rfl
  | cons a as ih =>
    rw [List.foldlM_cons, List.foldlM_cons]
    cases f b a with
    | ok c => exact ih
    | error h => rfl

theorem mapError_eq_ok {ε' : Type} {f : ε → ε'} {x : Except ε α} {a : α} :
    x.mapError f = .ok a ↔ x = .ok a := by
  cases x <;> simp [Except.mapError]

/-- **What a successful elimination of a construction did.** -/
theorem eliminate_con_eq_ok {S : Signature} {n : Nat} {motive v : Value} {methods : List Value}
    {id : ConstructorId} {arguments : List Value}
    (h : Value.eliminate S (n + 1) motive methods (.con id arguments) = .ok v) :
    ∃ K F table method results, S.constructor? id = some K ∧ arguments.length = K.arity ∧
      S.family? K.family = some F ∧ F.dispatch? = some table ∧
      table.select? id methods = some method ∧
      List.Forall₂ (fun i r => ∃ a, arguments[i]? = some a ∧
        Value.eliminate S n motive methods a = .ok r) K.recursiveFields results ∧
      Value.applyAll S n method (arguments.drop K.parameterCount ++ results) = .ok v := by
  rw [Value.eliminate, bind_eq_ok] at h
  obtain ⟨K, hK, h⟩ := h
  split at h
  · cases h
  next hl =>
  obtain ⟨F, hF, h⟩ := bind_eq_ok.1 h
  split at h
  · cases h
  next table htable =>
  split at h
  · cases h
  next method hm =>
  obtain ⟨results, hrs, h⟩ := bind_eq_ok.1 h
  rw [liftM_eq_ok, orDangling_eq_ok] at hK hF
  rw [foldlM_liftM, liftM_eq_ok] at h
  refine ⟨K, F, table, method, results, hK, not_not.1 hl, hF, htable, hm, ?_, h⟩
  refine (mapM_eq_ok.1 hrs).imp fun i r hr => ?_
  obtain ⟨a, ha, hr⟩ := bind_eq_ok.1 hr
  rw [liftM_eq_ok, orDangling_eq_ok] at ha
  exact ⟨a, ha, hr⟩

theorem lookup_zipIdx (cs : List ConstructorId) (id : ConstructorId) (k : Nat) :
    (cs.zipIdx k).lookup id = (cs.idxOf? id).map (· + k) := by
  induction cs generalizing k with
  | nil => rfl
  | cons c cs ih =>
    rw [List.zipIdx_cons, List.lookup_cons, List.idxOf?_cons]
    by_cases h : id = c
    · simp [h]
    · simp only [beq_eq_false_iff_ne.2 h, beq_eq_false_iff_ne.2 (Ne.symm h), ih]
      cases cs.idxOf? id <;> simp [Nat.add_comm, Nat.add_left_comm]

namespace Dispatch

variable {α : Type} (table : Dispatch) (id : ConstructorId)

/-- **The table finds a method where its constructor stands.** -/
theorem select?_eq (methods : List α) :
    table.select? id methods = (table.constructors.idxOf? id).bind (methods[·]?) := by
  rw [select?, table.indexed, lookup_zipIdx]
  simp

variable {table} {id}

theorem select?_eq_some {methods : List α} {m : α} (h : table.select? id methods = some m) :
    ∃ i, table.constructors.idxOf? id = some i ∧ methods[i]? = some m :=
  Option.bind_eq_some_iff.1 ((table.select?_eq id methods).symm.trans h)

end Dispatch

/-- An open family has no table. -/
theorem Family.dispatch?_eq_none {F : Family} (h : F.isFinalized = false) :
    F.dispatch? = none := by
  unfold isFinalized at h
  unfold dispatch?
  split at h
  · rfl
  · cases h

theorem Family.exists_dispatch? {F : Family} (h : F.isFinalized) :
    ∃ table, F.dispatch? = some table := by
  unfold isFinalized at h
  unfold dispatch?
  split at h
  · cases h
  · exact ⟨_, rfl⟩

theorem Family.constructors_of_dispatch? {F : Family} {table : Dispatch}
    (h : F.dispatch? = some table) : F.constructors = table.constructors := by
  unfold dispatch? at h
  unfold constructors
  split at h
  · cases h
  · cases h
    rfl

/-- The result of an outcome satisfies `P`, and a failure satisfies `Q`. -/
def Post (r : Except ε α) (P : α → Prop) (Q : ε → Prop) : Prop :=
  match r with
  | .ok a => P a
  | .error e => Q e

namespace Post

variable {P : α → Prop} {Q : ε → Prop}

theorem of_ok {r : Except ε α} {a : α} (h : Post r P Q) (hr : r = .ok a) : P a := by
  subst hr
  exact h

theorem of_error {r : Except ε α} {e : ε} (h : Post r P Q) (hr : r = .error e) : Q e := by
  subst hr
  exact h

theorem intro {r : Except ε α} (hok : ∀ a, r = .ok a → P a) (herr : ∀ e, r = .error e → Q e) :
    Post r P Q := by
  cases r with
  | ok a => exact hok a rfl
  | error e => exact herr e rfl

theorem mono {r : Except ε α} {P' : α → Prop} {Q' : ε → Prop} (h : Post r P Q)
    (hP : ∀ a, P a → P' a) (hQ : ∀ e, Q e → Q' e) : Post r P' Q' := by
  cases r with
  | ok a => exact hP a h
  | error e => exact hQ e h

/-- **A sequence ends as its first step fails or as its second step ends.** -/
theorem bind {x : Except ε α} {f : α → Except ε β} {R : β → Prop} (hx : Post x P Q)
    (hf : ∀ a, x = .ok a → P a → Post (f a) R Q) : Post (x >>= f) R Q := by
  cases x with
  | ok a => exact hf a rfl hx
  | error e => exact hx

theorem mapError {ε' : Type} {f : ε → ε'} {Q' : ε' → Prop} {x : Except ε α}
    (h : Post x P fun e => Q' (f e)) : Post (x.mapError f) P Q' := by
  cases x with
  | ok a => exact h
  | error e => exact h

theorem mapM {f : α → Except ε β} {as : List α} {R : α → β → Prop}
    (h : ∀ a ∈ as, Post (f a) (R a) Q) : Post (as.mapM f) (List.Forall₂ R as) Q := by
  induction as with
  | nil => exact .nil
  | cons a as ih =>
    rw [List.mapM_cons]
    refine bind (h a List.mem_cons_self) fun b _ hb => ?_
    refine bind (ih fun x hx => h x (List.mem_cons_of_mem a hx)) fun bs _ hbs => ?_
    exact .cons hb hbs

theorem forM {f : α → Except ε PUnit} {as : List α} {R : α → Prop}
    (h : ∀ a ∈ as, Post (f a) (fun _ => R a) Q) :
    Post (as.forM f) (fun _ => ∀ a ∈ as, R a) Q := by
  induction as with
  | nil => exact fun _ h => nomatch h
  | cons a as ih =>
    refine bind (h a List.mem_cons_self) fun _ _ ha => ?_
    refine (ih fun x hx => h x (List.mem_cons_of_mem a hx)).mono (fun _ has => ?_) fun _ h => h
    exact List.forall_mem_cons.2 ⟨ha, has⟩

end Post

end Constructions
