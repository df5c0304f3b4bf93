/-
# The registry over whole runs

A run asks for declarations one after the other, in any order and with any number of
families open.  Some are admitted, and some are refused and change nothing.  After each of
them the tables of the signature fit together (`Signature.Registered`):

| table | fits |
| --- | --- |
| `entries` | a name denotes what bears it, and nothing else |
| `families` | the constructors of a family are listed in the order of their declaration |
| `constructors` | the recursive fields of a constructor are fields, in order |

Nothing that a later request does changes what is declared, except that an open family
gains constructors and is closed at last (`Signature.Le`, `Signature.run_registered`).
-/

import Constructions.Proofs.Growth
import Constructions.Proofs.Update

namespace Constructions

namespace Signature

/-! ### Runs -/

/-- A declaration that is asked for. -/
inductive Request where
  | postulate (name : Name) (type : Term)
  | define (name : Name) (type value : Term)
  | openFamily (name : Name) (parameterCount : Nat) (type : Term)
  | declareConstructor (family name : Name) (type : Term)
  | closeFamily (family : Name)

/-- What comes of a request, with the given fuel. -/
def answer (S : Signature) (n : Nat) : Request → Check Signature
  | .postulate name type => S.postulate n name type
  | .define name type value => S.define n name type value
  | .openFamily name parameterCount type => do
    let (S, _) ← S.openFamily n name parameterCount type
    .ok S
  | .declareConstructor family name type => do
    let (S, _) ← S.declareConstructor n family name type
    .ok S
  | .closeFamily family => do
    let (S, _) ← S.closeFamily family
    .ok S

/-- The update that is asked for. -/
def Request.update (n : Nat) : Request → Update Unit
  | .postulate name type => Update.postulate n name type
  | .define name type value => Update.define n name type value
  | .openFamily name parameterCount type => do
    let _ ← Update.openFamily n name parameterCount type
    pure ()
  | .declareConstructor family name type => do
    let _ ← Update.declareConstructor n family name type
    pure ()
  | .closeFamily family => do
    let _ ← Update.closeFamily family
    pure ()

/-- The signature that a request leaves. -/
def after (S : Signature) (n : Nat) (r : Request) : Signature := ((r.update n).run S).2

/-- The signature after requests, each with its own fuel. -/
def run (S : Signature) (rs : List (Nat × Request)) : Signature :=
  rs.foldl (fun S r => S.after r.1 r.2) S

variable {S S' : Signature} {Θ : Theory}

/-- **A request is granted as a whole, or it changes nothing.** -/
theorem Request.run_update (n : Nat) (r : Request) (S : Signature) :
    (r.update n).run S = match S.answer n r with
      | .ok S' => (.ok (), S')
      | .error e => (.error e, S) := by
  cases r with
  | postulate name type =>
    rw [update, Update.postulate_refines, answer]
    dsimp only
    cases S.postulate n name type <;> rfl
  | define name type value =>
    rw [update, Update.define_refines, answer]
    dsimp only
    cases S.define n name type value <;> rfl
  | openFamily name p type =>
    rw [update, Update.run_bind, Update.openFamily_refines, answer]
    dsimp only
    cases S.openFamily n name p type <;> rfl
  | declareConstructor family name type =>
    rw [update, Update.run_bind, Update.declareConstructor_refines, answer]
    dsimp only
    cases S.declareConstructor n family name type <;> rfl
  | closeFamily family =>
    rw [update, Update.run_bind, Update.closeFamily_refines, answer]
    dsimp only
    cases S.closeFamily family <;> rfl

theorem after_eq (S : Signature) (n : Nat) (r : Request) :
    S.after n r = match S.answer n r with
      | .ok S' => S'
      | .error _ => S := by
  rw [after, r.run_update]
  cases S.answer n r <;> rfl

theorem answer_step {n : Nat} {r : Request} (h : S.answer n r = .ok S') : Step S S' := by
  cases r with
  | postulate name type => exact .postulate n name type h
  | define name type value => exact .define n name type value h
  | openFamily name p type =>
    obtain ⟨⟨S₁, id⟩, e, h⟩ := bind_eq_ok.1 h
    cases h
    exact .openFamily n name p type e
  | declareConstructor family name type =>
    obtain ⟨⟨S₁, id⟩, e, h⟩ := bind_eq_ok.1 h
    cases h
    exact .declareConstructor n family name type e
  | closeFamily family =>
    obtain ⟨⟨S₁, id⟩, e, h⟩ := bind_eq_ok.1 h
    cases h
    exact .closeFamily family e

theorem Step.exists_answer (h : Step S S') : ∃ n r, S.answer n r = .ok S' := by
  cases h with
  | postulate n name type e => exact ⟨n, .postulate name type, e⟩
  | define n name type value e => exact ⟨n, .define name type value, e⟩
  | openFamily n name p type e => exact ⟨n, .openFamily name p type, bind_eq_ok.2 ⟨_, e, rfl⟩⟩
  | declareConstructor n family name type e =>
    exact ⟨n, .declareConstructor family name type, bind_eq_ok.2 ⟨_, e, rfl⟩⟩
  | closeFamily family e => exact ⟨0, .closeFamily family, bind_eq_ok.2 ⟨_, e, rfl⟩⟩

/-- **A request makes one step or none.** -/
theorem after_eq_or_step (S : Signature) (n : Nat) (r : Request) :
    S.after n r = S ∨ Step S (S.after n r) := by
  rw [after_eq]
  split
  · next h => exact .inr (answer_step h)
  · exact .inl rfl

/-- **A run is a sequence of successful declarations.** -/
theorem steps_run (S : Signature) (rs : List (Nat × Request)) :
    Relation.ReflTransGen Step S (S.run rs) := by
  induction rs generalizing S with
  | nil => exact .refl
  | cons r rs ih =>
    have hrest := ih (S.after r.1 r.2)
    obtain h | h := S.after_eq_or_step r.1 r.2
    · rw [h] at hrest
      rwa [run, List.foldl_cons, h]
    · exact .head h hrest

/-- **Runs reach exactly the signatures that declarations reach.** -/
theorem reachable_iff_run : S.Reachable ↔ ∃ rs, empty.run rs = S := by
  constructor
  · intro h
    induction h with
    | refl => exact ⟨[], rfl⟩
    | tail _ e ih =>
      obtain ⟨rs, rfl⟩ := ih
      obtain ⟨n, r, h⟩ := e.exists_answer
      refine ⟨rs ++ [(n, r)], ?_⟩
      rw [run, List.foldl_append]
      show (empty.run rs).after n r = _
      rw [after_eq, h]
  · rintro ⟨rs, rfl⟩
    exact steps_run empty rs

/-! ### Tables that fit together -/

/-- What a name stands for according to the tables of constants, families and constructors. -/
def Denotes (S : Signature) (name : Name) : Entry → Prop
  | .global => ∃ g, S.global? name = some g
  | .family id => ∃ F, S.family? id = some F ∧ F.name = name
  | .constructor id => ∃ K, S.constructor? id = some K ∧ K.name = name

/-- The table finds the method for a constructor where the constructor stands in the list. -/
def Selects (table : Dispatch) : Prop :=
  ∀ (α : Type) (c : ConstructorId) (methods : List α),
    (∀ m, table.select? c methods = some m ↔
      ∃ k : Nat, table.constructors[k]? = some c ∧ methods[k]? = some m) ∧
    (table.select? c methods = none ↔
      ∀ k : Nat, table.constructors[k]? = some c → methods.length ≤ k)

/-- Names denote what bears them, and constructors and recursive fields are listed in order. -/
structure Ordered (S : Signature) : Prop where
  entry : ∀ name e, S.entry? name = some e ↔ S.Denotes name e
  increasing : ∀ {id F}, S.family? id = some F → F.constructors.Pairwise (·.index < ·.index)
  nonempty : ∀ {id F}, S.family? id = some F → F.isFinalized → F.constructors ≠ []
  recursive : ∀ {id K}, S.constructor? id = some K → K.recursiveFields.Pairwise (· < ·) ∧
    ∀ r ∈ K.recursiveFields, K.parameterCount ≤ r ∧ r < K.arity

/-- The tables of a signature fit together. -/
structure Registered (S : Signature) : Prop extends S.Ordered where
  family_id : ∀ {id F}, S.family? id = some F → F.id = id
  constructor_id : ∀ {id K}, S.constructor? id = some K → K.id = id
  members : ∀ {id F}, S.family? id = some F →
    ∀ c, c ∈ F.constructors ↔ ∃ K, S.constructor? c = some K ∧ K.family = id
  dispatch : ∀ {id F}, S.family? id = some F → F.isFinalized →
    ∃ table : Dispatch, F.dispatch? = some table ∧ table.constructors = F.constructors ∧
      Selects table
  parameters : ∀ {id K}, S.constructor? id = some K →
    ∃ F, S.family? K.family = some F ∧ K.parameterCount = F.parameterCount

theorem selects_of_increasing {table : Dispatch}
    (h : table.constructors.Pairwise (·.index < ·.index)) : Selects table := by
  intro α c methods
  have hsome (m : α) : table.select? c methods = some m ↔
      ∃ k : Nat, table.constructors[k]? = some c ∧ methods[k]? = some m := by
    rw [Dispatch.select?_eq, Option.bind_eq_some_iff]
    refine exists_congr fun k => and_congr_left fun _ => ⟨getElem?_of_idxOf?, fun hk => ?_⟩
    obtain ⟨hlt, rfl⟩ := List.getElem?_eq_some_iff.1 hk
    refine List.idxOf?_eq_some_iff.2 ⟨hlt, rfl, fun j hj he => ?_⟩
    exact Nat.ne_of_lt (List.pairwise_iff_getElem.1 h j k _ _ hj) (congrArg _ he)
  refine ⟨hsome, ?_⟩
  rw [Option.eq_none_iff_forall_ne_some]
  constructor
  · intro h k hk
    by_contra hlt
    exact h _ ((hsome _).2 ⟨k, hk, List.getElem?_eq_getElem (Nat.not_le.1 hlt)⟩)
  · intro h m hm
    obtain ⟨k, hk, hmk⟩ := (hsome m).1 hm
    obtain ⟨hlt, _⟩ := List.getElem?_eq_some_iff.1 hmk
    exact Nat.not_le.2 hlt (h k hk)

/-- **Coherent tables in order fit together.** -/
theorem Coherent.registered (h : S.Coherent Θ) (o : S.Ordered) : S.Registered where
  toOrdered := o
  family_id := family?_id
  constructor_id hK := by
    obtain ⟨C, _, dK⟩ := h.models.describes.constructor_of_eq_some hK
    exact dK.id
  members := h.members
  dispatch hF hs := by
    obtain ⟨table, htable⟩ := Family.exists_dispatch? hs
    have hcs := Family.constructors_of_dispatch? htable
    exact ⟨table, htable, hcs.symm, selects_of_increasing (hcs ▸ o.increasing hF)⟩
  parameters hK := by
    obtain ⟨C, hC, dK⟩ := h.models.describes.constructor_of_eq_some hK
    obtain ⟨D, hD, hV⟩ := h.models.sound.constructor hC
    obtain ⟨F, hF, dF⟩ := h.models.describes.family?_of_eq_some hD
    refine ⟨F, dK.family ▸ hF, ?_⟩
    rw [← dK.parameters, hV.parameters, dF.parameters]

/-! ### What a declaration keeps in order -/

/-- **One more name.** -/
theorem entry_iff_of_new (h : ∀ c e, S.entry? c = some e ↔ S.Denotes c e) {name : Name}
    {new : Entry} (hname : S.entry? name = none)
    (hentry : ∀ c, Signature.entry? S' c = if c = name then some new else S.entry? c)
    (hnew : ∀ c e, S'.Denotes c e ↔ (c = name ∧ e = new) ∨ S.Denotes c e) (c : Name) (e : Entry) :
    Signature.entry? S' c = some e ↔ S'.Denotes c e := by
  rw [hentry, hnew, ← h]
  by_cases hc : c = name
  · subst hc
    simp [hname, eq_comm]
  · simp [hc]

theorem Ordered.addGlobal (o : S.Ordered) {name : Name} (hname : S.entry? name = none)
    (g : Global) : (S.addGlobal name g).Ordered where
  entry := by
    refine entry_iff_of_new o.entry hname (entry?_addGlobal S name g) fun c e => ?_
    cases e with
    | global =>
      simp only [Denotes, global?_addGlobal]
      by_cases hc : c = name
      · simp [hc]
      · simp [hc]
    | family id => exact (or_iff_right (by simp)).symm
    | constructor id => exact (or_iff_right (by simp)).symm
  increasing hF := o.increasing hF
  nonempty hF := o.nonempty hF
  recursive hK := o.recursive hK

theorem Ordered.addFamily (o : S.Ordered) {name : Name} (hname : S.entry? name = none)
    (p i : Nat) (A : Value) : (S.addFamily name p i A).1.Ordered where
  entry := by
    refine entry_iff_of_new o.entry hname (entry?_addFamily S name p i A) fun c e => ?_
    cases e with
    | global => exact (or_iff_right (by simp)).symm
    | family id =>
      simp only [Denotes, family?_addFamily]
      by_cases hid : id = ⟨S.families.size⟩
      · simp [hid, S.family?_size, eq_comm]
      · simp [hid]
    | constructor id => exact (or_iff_right (by simp)).symm
  increasing {id F} hF := by
    rw [family?_addFamily] at hF
    split at hF
    · cases hF
      exact .nil
    · exact o.increasing hF
  nonempty {id F} hF hs := by
    rw [family?_addFamily] at hF
    split at hF
    · cases hF
      cases hs
    · exact o.nonempty hF hs
  recursive hK := o.recursive hK

theorem Ordered.addConstructor (h : S.Coherent Θ) (o : S.Ordered) {name : Name} {F : Family}
    (hname : S.entry? name = none) (hF : S.family? F.id = some F) (hs : F.isFinalized = false)
    {k : Nat} {r : List Nat} (hr : r.Pairwise (· < ·))
    (hk : ∀ q ∈ r, F.parameterCount ≤ q ∧ q < F.parameterCount + k) (A : Value) :
    (S.addConstructor name F k r A).1.Ordered where
  entry := by
    refine entry_iff_of_new o.entry hname (entry?_addConstructor S name F k r A) fun c e => ?_
    cases e with
    | global => exact (or_iff_right (by simp)).symm
    | family id =>
      simp only [Denotes, family?_addConstructor name hF]
      by_cases hid : id = F.id
      · simp [hid, hF]
      · simp [hid]
    | constructor id =>
      simp only [Denotes, constructor?_addConstructor]
      by_cases hid : id = ⟨S.constructors.size⟩
      · simp [hid, S.constructor?_size, eq_comm]
      · simp [hid]
  increasing {id G} hG := by
    rw [family?_addConstructor name hF] at hG
    split at hG
    · cases hG
      refine List.pairwise_append.2 ⟨o.increasing hF, List.pairwise_singleton _ _, ?_⟩
      intro c hc d hd
      obtain rfl := List.mem_singleton.1 hd
      -- A constructor in the list is declared, so its number is below that of the new one.
      obtain ⟨K, hK, _⟩ := (h.members hF c).1 hc
      obtain ⟨hlt, _⟩ := Array.getElem?_eq_some_iff.1 hK
      exact hlt
    · exact o.increasing hG
  nonempty {id G} hG hfin := by
    rw [family?_addConstructor name hF] at hG
    split at hG
    · cases hG
      cases hfin
    · exact o.nonempty hG hfin
  recursive {id K} hK := by
    rw [constructor?_addConstructor] at hK
    split at hK
    · cases hK
      exact ⟨hr, hk⟩
    · exact o.recursive hK

theorem Ordered.finalize (o : S.Ordered) {F : Family} (hF : S.family? F.id = some F)
    (hne : F.constructors ≠ []) : (S.finalize F).Ordered where
  entry c e := by
    refine (o.entry c e).trans ?_
    cases e with
    | global => exact Iff.rfl
    | family id =>
      simp only [Denotes, family?_finalize hF]
      by_cases hid : id = F.id
      · simp [hid, hF]
      · simp [hid]
    | constructor id => exact Iff.rfl
  increasing {id G} hG := by
    rw [family?_finalize hF] at hG
    split at hG
    · cases hG
      exact (o.increasing hF : F.constructors.Pairwise _)
    · exact o.increasing hG
  nonempty {id G} hG hs := by
    rw [family?_finalize hF] at hG
    split at hG
    · cases hG
      exact hne
    · exact o.nonempty hG hs
  recursive hK := o.recursive hK

/-- **A declaration keeps the tables in order.** -/
theorem Step.ordered (h : S.Coherent Θ) (o : S.Ordered) (e : Step S S') : S'.Ordered := by
  cases e with
  | postulate n name type e =>
    obtain ⟨A, hname, _, rfl⟩ := postulate_eq_ok e
    exact o.addGlobal hname _
  | define n name type value e =>
    obtain ⟨A, a, hname, _, _, _, rfl⟩ := define_eq_ok e
    exact o.addGlobal hname _
  | openFamily n name p type e =>
    obtain ⟨A, T, l, hname, _, _, _, _, rfl⟩ := openFamily_eq_ok e
    exact o.addFamily hname _ _ _
  | declareConstructor n family name type e =>
    obtain ⟨id, F, A, P, E, T, r, hF, hc, rfl⟩ := declareConstructor_eq_ok e
    obtain rfl := family?_id hF
    have hr := (recursivePositions_eq_ok hc.recursive).1
    rw [Opened.length_domains] at hr
    exact o.addConstructor h hc.fresh hF hc.opened (recursivePositions_increasing hc.recursive) hr A
  | closeFamily family e =>
    obtain ⟨id, F, hF, _, hne, rfl⟩ := closeFamily_eq_ok e
    obtain rfl := family?_id hF
    exact o.finalize hF hne

theorem ordered_empty : Ordered empty where
  entry name e := by cases e <;> simp [Denotes, empty, entry?, global?, family?, constructor?]
  increasing hF := nomatch hF
  nonempty hF := nomatch hF
  recursive hK := nomatch hK

theorem Reachable.ordered (h : S.Reachable) : S.Ordered := by
  induction h with
  | refl => exact ordered_empty
  | tail hS e ih =>
    obtain ⟨Θ, hΘ⟩ := Reachable.coherent hS
    exact e.ordered hΘ ih

/-- **The tables of a reachable signature fit together.** -/
theorem Reachable.registered (h : S.Reachable) : S.Registered := by
  obtain ⟨Θ, hΘ⟩ := h.coherent
  exact hΘ.registered h.ordered

/-! ### What later declarations keep -/

theorem Le.refl (S : Signature) : S.Le S where
  global hg := hg
  constructor hK := hK
  family {_ F} hF := ⟨F.state, hF, fun _ => rfl⟩

theorem Le.trans {S'' : Signature} (h : S.Le S') (h' : S'.Le S'') : S.Le S'' where
  global hg := h'.global (h.global hg)
  constructor hK := h'.constructor (h.constructor hK)
  family hF := by
    obtain ⟨state, hF', hfin⟩ := h.family hF
    obtain ⟨state', hF'', hfin'⟩ := h'.family hF'
    refine ⟨state', hF'', fun hs => ?_⟩
    obtain rfl := hfin hs
    exact hfin' hs

/-- **Declarations keep what is declared.** -/
theorem Reachable.le_of_steps (h : S.Reachable) (h' : Relation.ReflTransGen Step S S') :
    S.Le S' := by
  induction h' with
  | refl => exact .refl S
  | tail hS e ih =>
    obtain ⟨Θ, hΘ⟩ := Reachable.coherent (Relation.ReflTransGen.trans h hS)
    exact ih.trans (e.le hΘ)

/-- **What a name stands for, it stands for in every extension.** -/
theorem Le.denotes (h : S.Le S') {name : Name} {e : Entry} (he : S.Denotes name e) :
    S'.Denotes name e := by
  cases e with
  | global =>
    obtain ⟨g, hg⟩ := he
    exact ⟨g, h.global hg⟩
  | family id =>
    obtain ⟨F, hF, rfl⟩ := he
    obtain ⟨state, hF', _⟩ := h.family hF
    exact ⟨_, hF', rfl⟩
  | constructor id =>
    obtain ⟨K, hK, rfl⟩ := he
    exact ⟨K, h.constructor hK, rfl⟩

theorem run_append (S : Signature) (rs rs' : List (Nat × Request)) :
    S.run (rs ++ rs') = (S.run rs).run rs' := List.foldl_append

/-- **After every run the tables fit together, and every later run keeps what they hold:** what
a name stands for, constants and constructors as they are, and families up to the state of
an open one. -/
theorem run_registered (rs later : List (Nat × Request)) :
    (empty.run rs).Registered ∧ (empty.run rs).Le (empty.run (rs ++ later)) ∧
      ∀ name e, Signature.entry? (empty.run rs) name = some e →
        Signature.entry? (empty.run (rs ++ later)) name = some e := by
  have h : (empty.run rs).Reachable := steps_run empty rs
  have h' : (empty.run (rs ++ later)).Reachable := steps_run empty (rs ++ later)
  have hle : (empty.run rs).Le (empty.run (rs ++ later)) := by
    rw [run_append]
    exact h.le_of_steps (steps_run _ later)
  refine ⟨h.registered, hle, fun name e he => ?_⟩
  exact (h'.registered.entry name e).2 (hle.denotes ((h.registered.entry name e).1 he))

end Signature

end Constructions
