/-
# Which constructors are admitted

A constructor is declared by procedures that open, compare and read back values with the fuel
they are given.  What they decide can be said without them: the type of the constructor opens
to the parameters of its family, then to fields, and ends in the family at these parameters;
and a field is of the same form, or the family does not occur in it
(`Signature.Admissible`).  A declaration that comes to an end succeeds for exactly these types
(`Signature.Reachable.declareConstructor_iff`).

| procedure | decides, if it returns |
| --- | --- |
| `Value.telescope` | `Value.Opens` |
| `Value.convert` | `Value.Convertible` |
| `Signature.noneMentions` | `Value.Avoids`, of each value |
| `Signature.isUniform` | `Family.Uniform` |
-/

import Constructions.Proofs.Agreement
import Constructions.Proofs.Conservativity
import Constructions.Proofs.ReadBack.Weakening

namespace Constructions

variable {Θ : Theory} {S : Signature}

/-! ### Opened types, comparison and normal forms without fuel -/

/-- The leading binders of a type are opened from `level` on, as many as the telescope has. -/
inductive Value.Opens (S : Signature) : Nat → Value → Telescope → Prop where
  | stop (level : Nat) (ty : Value) : Value.Opens S level ty ⟨[], ty⟩
  | pi {level : Nat} {d body : Value} {c : Closure} {T : Telescope} :
      Settles (fun m => c.enter S m level) body → Value.Opens S (level + 1) body T →
      Value.Opens S level (.pi d c) ⟨⟨c.label, d, c.parameter level⟩ :: T.binders, T.body⟩

/-- Two values are found convertible, with some fuel. -/
def Value.Convertible (S : Signature) (level : Nat) (v w : Value) : Prop :=
  ∃ n, v.convert S n level w = .ok true

/-- A value is read back as a term, with some fuel. -/
def Value.NormalForm (S : Signature) (level : Nat) (v : Value) (t : Term) : Prop :=
  ∃ n, v.readBack S n level = .ok t

/-- The value has a normal form, in which the family does not occur. -/
def Value.Avoids (S : Signature) (level : Nat) (F : FamilyId) (v : Value) : Prop :=
  ∃ t, v.NormalForm S level t ∧ t.mentions F = false

/-- The family occurs in the normal form of the value. -/
def Value.Mentions (S : Signature) (level : Nat) (F : FamilyId) (v : Value) : Prop :=
  ∀ t, v.NormalForm S level t → t.mentions F = true

theorem Settles.unique {α : Type} {f : Nat → Except Halt α} {a b : α} (ha : Settles f a)
    (hb : Settles f b) : a = b := by
  obtain ⟨N, hN⟩ := ha
  obtain ⟨M, hM⟩ := hb
  exact Except.ok.inj ((hN (max N M) (by omega)).symm.trans (hM (max N M) (by omega)))

theorem Term.eval_unique {n m : Nat} {env : Env} {t : Term} {v w : Value}
    (hv : t.eval S n env = .ok v) (hw : t.eval S m env = .ok w) : v = w :=
  Mends.unique (f := fun n => t.eval S n env) (fun hnm => (eval_mends
    (.refl (· = .exhausted) (Leaves.closed_any S)) hnm (fun _ => rfl)).1 (Value.alls_any env)
    t.all_any) hv hw

theorem Value.convert_unique (hM : Θ.Models S) {n m level : Nat} {v w : Value} {a b : Bool}
    (hv : v.All S.declared) (hw : w.All S.declared) (ha : v.convert S n level w = .ok a)
    (hb : v.convert S m level w = .ok b) : a = b := by
  obtain hnm | hmn := Nat.le_total n m
  · exact Except.ok.inj ((Value.convert_kept hM (.refl S) hnm hv hw a ha).1.symm.trans hb)
  · exact Except.ok.inj (ha.symm.trans (Value.convert_kept hM (.refl S) hmn hv hw b hb).1)

/-- **Comparison decides whether two values are convertible.** -/
theorem Value.convert_iff (hM : Θ.Models S) {n level : Nat} {v w : Value} {b : Bool}
    (hv : v.All S.declared) (hw : w.All S.declared) (hb : v.convert S n level w = .ok b) :
    b = true ↔ v.Convertible S level w := by
  constructor
  · rintro rfl
    exact ⟨n, hb⟩
  · rintro ⟨m, hm⟩
    exact Value.convert_unique hM hv hw hb hm

namespace Value.NormalForm

variable {level : Nat} {v : Value} {t : Term} {F : FamilyId}

theorem avoids_iff (h : v.NormalForm S level t) :
    t.mentions F = false ↔ v.Avoids S level F := by
  obtain ⟨n, h⟩ := h
  refine ⟨fun ht => ⟨t, ⟨n, h⟩, ht⟩, ?_⟩
  rintro ⟨u, ⟨m, hu⟩, ht⟩
  rwa [Value.readBack_unique h hu]

end Value.NormalForm

theorem Value.Avoids.not_mentions {level : Nat} {v : Value} {F : FamilyId}
    (h : v.Avoids S level F) : ¬ v.Mentions S level F := by
  obtain ⟨t, ht, hf⟩ := h
  intro hm
  exact Bool.false_ne_true (hf.symm.trans (hm t ht))

/-- A family occurs in every normal form of its own former. -/
theorem Value.mentions_former (S : Signature) (level : Nat) (F : FamilyId) (as : List Value) :
    (Value.former F as).Mentions S level F := by
  rintro t ⟨n, ht⟩
  cases n with
  | zero => cases ht
  | succ n =>
    obtain ⟨ts, _, ht⟩ := bind_eq_ok.1 ht
    cases ht
    rw [Term.mentions, beq_self_eq_true, Bool.true_or]

/-! ### Opening -/

namespace Value.Opens

variable {level : Nat} {ty : Value} {T T' : Telescope}

/-- **A type is opened in one way to a given number of binders.** -/
theorem eq_of_length (h : ty.Opens S level T) (h' : ty.Opens S level T')
    (hl : T.length = T'.length) : T = T' := by
  induction h generalizing T' with
  | stop level ty =>
    cases h' with
    | stop => rfl
    | pi => cases hl
  | pi hb _ ih =>
    cases h' with
    | stop => cases hl
    | pi hb' h' =>
      obtain rfl := hb.unique hb'
      obtain rfl := ih h' (Nat.succ.inj hl)
      rfl

/-- Where no binder is left, all binders were opened. -/
theorem length_le (h : ty.Opens S level T) (h' : ty.Opens S level T')
    (hstop : ∀ d c, T.body ≠ .pi d c) : T'.length ≤ T.length := by
  induction h generalizing T' with
  | stop level ty =>
    cases h' with
    | stop => exact Nat.le_refl _
    | pi => exact (hstop _ _ rfl).elim
  | pi hb _ ih =>
    cases h' with
    | stop => exact Nat.zero_le _
    | pi hb' h' =>
      obtain rfl := hb.unique hb'
      exact Nat.succ_le_succ (ih h' hstop)

end Value.Opens

/-- **A telescope is an opened type,** with no more binders than the limit, and with all of them
if it has fewer. -/
theorem Value.telescope_opens {n level : Nat} {limit : Option Nat} {ty : Value} {T : Telescope}
    (h : ty.telescope S n level limit = .ok T) :
    ty.Opens S level T ∧ (∀ k, limit = some k → T.length ≤ k) ∧
      (limit ≠ some T.length → ∀ d c, T.body ≠ .pi d c) := by
  induction n generalizing level limit ty T with
  | zero => cases h
  | succ n ih =>
    by_cases hstop : limit ≠ some 0 → ∀ d c, ty ≠ .pi d c
    · rw [telescope_stop S n level hstop] at h
      cases h
      exact ⟨.stop level ty, fun _ _ => Nat.zero_le _, hstop⟩
    simp only [not_forall, not_not] at hstop
    obtain ⟨hlimit, d, c, rfl⟩ := hstop
    rw [telescope_pi S n level hlimit] at h
    obtain ⟨body, hbody, h⟩ := bind_eq_ok.1 h
    obtain ⟨rest, hrest, h⟩ := bind_eq_ok.1 h
    cases h
    obtain ⟨hopens, hle, hall⟩ := ih hrest
    refine ⟨.pi (Closure.settles_enter hbody) hopens, ?_, fun hne => hall fun e => hne ?_⟩
    · rintro k rfl
      have hk : k ≠ 0 := fun hk => hlimit (congrArg some hk)
      have hrest : rest.length ≤ k - 1 := hle _ rfl
      exact show rest.length + 1 ≤ k by omega
    · obtain ⟨k, rfl, hk⟩ := Option.map_eq_some_iff.1 e
      have hk0 : k ≠ 0 := fun hk => hlimit (congrArg some hk)
      exact congrArg some (show k = rest.length + 1 by omega)

/-- **Opening up to a number of binders** finds the telescope of that length. -/
theorem Value.Opens.telescope_eq {n level k : Nat} {ty : Value} {T T' : Telescope}
    (h : ty.Opens S level T) (hl : T.length = k)
    (hT' : ty.telescope S n level (some k) = .ok T') : T' = T := by
  obtain ⟨hopens, hle, hall⟩ := Value.telescope_opens hT'
  refine hopens.eq_of_length h ?_
  by_cases hk : T'.length = k
  · rw [hk, hl]
  · have hge := hopens.length_le h (hall fun e => hk (Option.some.inj e).symm)
    have := hle k rfl
    omega

/-- **Opening without a limit** finds the telescope behind which no binder is left. -/
theorem Value.Opens.telescope_eq_all {n level : Nat} {ty : Value} {T T' : Telescope}
    (h : ty.Opens S level T) (hstop : ∀ d c, T.body ≠ .pi d c)
    (hT' : ty.telescope S n level none = .ok T') : T' = T := by
  obtain ⟨hopens, _, hall⟩ := Value.telescope_opens hT'
  have hge := hopens.length_le h (hall (by rintro ⟨⟩))
  exact hopens.eq_of_length h (Nat.le_antisymm (h.length_le hopens hstop) hge)

/-! ### Comparing lists -/

/-- **Lists are compared element by element.** -/
theorem convertList_iff (hM : Θ.Models S) {n level : Nat} {vs ws : List Value} {b : Bool}
    (hvs : Value.Alls S.declared vs) (hws : Value.Alls S.declared ws)
    (hb : convertList (fun v w => v.convert S n level w) vs ws = .ok b) :
    b = true ↔ List.Forall₂ (Value.Convertible S level) vs ws := by
  unfold convertList at hb
  split at hb
  · next hl =>
    induction vs generalizing ws with
    | nil =>
      obtain rfl := List.length_eq_zero_iff.1 hl.symm
      cases hb
      exact iff_of_true rfl .nil
    | cons v vs ih =>
      cases ws with
      | nil => cases hl
      | cons w ws =>
        rw [List.forall₂_cons]
        obtain ⟨p, hp, hb⟩ := bind_eq_ok.1 hb
        have hvw := Value.convert_iff hM hvs.1 hws.1 hp
        cases p with
        | true => exact (ih hvs.2 hws.2 (Nat.succ.inj hl) hb).trans (and_iff_right (hvw.1 rfl)).symm
        | false =>
          cases hb
          exact iff_of_false Bool.false_ne_true fun h => Bool.false_ne_true (hvw.2 h.1)
  · next hl =>
    cases hb
    exact iff_of_false Bool.false_ne_true fun h => hl h.length_eq

/-- **Telescopes are compared domain by domain.** -/
theorem convertDomains_iff (hM : Θ.Models S) {n level : Nat} {ds es : List Value} {b : Bool}
    (hds : Value.Alls S.declared ds) (hes : Value.Alls S.declared es)
    (hb : convertDomains S n level ds es = .ok b) :
    b = true ↔ ∀ (j : Nat) (d e : Value), ds[j]? = some d → es[j]? = some e →
      d.Convertible S (level + j) e := by
  induction ds generalizing es level with
  | nil =>
    cases hb
    exact iff_of_true rfl fun j d e hd => nomatch hd
  | cons d ds ih =>
    cases es with
    | nil =>
      cases hb
      exact iff_of_true rfl fun j d e _ he => nomatch he
    | cons e es =>
      obtain ⟨p, hp, hb⟩ := bind_eq_ok.1 hb
      have hde := Value.convert_iff hM hds.1 hes.1 hp
      cases p with
      | true =>
        refine (ih hds.2 hes.2 hb).trans ⟨fun h j d' e' hd' he' => ?_, fun h j d' e' hd' he' => ?_⟩
        · cases j with
          | zero =>
            cases hd'
            cases he'
            exact hde.1 rfl
          | succ j =>
            have := h j d' e' hd' he'
            rwa [Nat.add_right_comm] at this
        · have := h (j + 1) d' e' hd' he'
          rwa [← Nat.add_assoc, Nat.add_right_comm] at this
      | false =>
        cases hb
        refine iff_of_false Bool.false_ne_true fun h => Bool.false_ne_true (hde.2 ?_)
        exact h 0 d e rfl rfl

/-! ### Uniform types -/

/-- A value is the family at `ps`, up to conversion, and no index mentions the family. -/
def Family.Uniform (S : Signature) (F : Family) (ps : List Value) (level : Nat) (v : Value) :
    Prop :=
  ∃ us is, v = .former F.id (us ++ is) ∧ is.length = F.indexCount ∧
    List.Forall₂ (Value.Convertible S level) us ps ∧ ∀ i ∈ is, i.Avoids S level F.id

theorem Family.Uniform.mentions {F : Family} {ps : List Value} {level : Nat} {v : Value}
    (h : F.Uniform S ps level v) : v.Mentions S level F.id := by
  obtain ⟨us, is, rfl, _⟩ := h
  exact Value.mentions_former S level F.id (us ++ is)

namespace Signature

theorem noneMentions_iff {n level : Nat} {F : FamilyId} {vs : List Value} {b : Bool}
    (hb : S.noneMentions n level F vs = .ok b) :
    b = true ↔ ∀ v ∈ vs, v.Avoids S level F := by
  induction vs with
  | nil =>
    cases hb
    exact iff_of_true rfl fun v hv => nomatch hv
  | cons v vs ih =>
    obtain ⟨t, ht, hb⟩ := bind_eq_ok.1 hb
    have hv := Value.NormalForm.avoids_iff (F := F) ⟨n, ht⟩
    rw [List.forall_mem_cons, ← hv]
    split at hb
    · next hm =>
      cases hb
      exact iff_of_false Bool.false_ne_true fun h => Bool.false_ne_true (h.1.symm.trans hm)
    · next hm => exact (ih hb).trans (and_iff_right (Bool.eq_false_iff.2 hm)).symm

/-- **What is decided of a type that should be the family at the parameters.** -/
theorem isUniform_iff (hM : Θ.Models S) {n level : Nat} {F : Family} {ps : List Value} {v : Value}
    {b : Bool} (hl : ps.length = F.parameterCount) (hps : Value.Alls S.declared ps)
    (hv : v.All S.declared) (hb : S.isUniform n F ps level v = .ok b) :
    b = true ↔ F.Uniform S ps level v := by
  constructor
  · rintro rfl
    obtain ⟨as, rfl, hlen, hconv, hnone⟩ := isUniform_eq_true hb
    have has := Value.alls_iff.1 hv
    refine ⟨as.take F.parameterCount, as.drop F.parameterCount, ?_, ?_, ?_, ?_⟩
    · rw [List.take_append_drop]
    · rw [List.length_drop, hlen, Family.arity, Nat.add_sub_cancel_left]
    · refine (convertList_iff hM (Value.alls_iff.2 fun a ha => ?_) hps hconv).1 rfl
      exact has a (List.mem_of_mem_take ha)
    · exact (noneMentions_iff hnone).1 rfl
  · rintro ⟨us, is, rfl, his, hus, hnone⟩
    have hlen : us.length = F.parameterCount := hus.length_eq.trans hl
    have hcond : F.id = F.id ∧ (us ++ is).length = F.arity :=
      ⟨rfl, by rw [List.length_append, hlen, his, Family.arity]⟩
    rw [isUniform, if_pos hcond, List.take_left' hlen, List.drop_left' hlen] at hb
    obtain ⟨p, hp, hb⟩ := bind_eq_ok.1 hb
    have huse : Value.Alls S.declared us := (Value.alls_append.1 hv).1
    obtain rfl := (convertList_iff hM huse hps hp).2 hus
    exact (noneMentions_iff hb).2 hnone

end Signature

/-! ### Procedures that return -/

namespace Context.Returns

variable {α β : Type}

theorem of_bind {x : Check α} {f : α → Check β} (h : Returns (x >>= f)) : Returns x := by
  rintro e rfl
  exact h e rfl

theorem bind {x : Check α} {f : α → Check β} {a : α} (h : Returns (x >>= f)) (hx : x = .ok a) :
    Returns (f a) := by
  subst hx
  exact h

theorem of_lift {x : Except Halt α} (h : Returns (liftM x : Check α)) : ∃ a, x = .ok a := by
  cases x with
  | ok a => exact ⟨a, rfl⟩
  | error e => exact (h e rfl).elim

/-- A computation before the end of a procedure has a result. -/
theorem bind_lift {x : Except Halt α} {f : α → Check β}
    (h : Returns ((liftM x : Check α) >>= f)) : ∃ a, x = .ok a ∧ Returns (f a) := by
  cases x with
  | ok a => exact ⟨a, rfl, h⟩
  | error e => exact (h e rfl).elim

end Context.Returns

/-! ### Fields -/

namespace Signature

variable {n position : Nat} {F : Family} {ps ds : List Value} {name : Name}

variable (hM : Θ.Models S) (hl : ps.length = F.parameterCount) (hps : Value.Alls S.declared ps)
  (hds : Value.Alls S.declared ds)

include hM hl hps hds

/-- **Fields that are uniform or avoid the family are accepted.** -/
theorem exists_recursivePositions
    (h : Context.Returns (S.recursivePositions n F ps name position ds))
    (hfields : ∀ (i : Nat) (d : Value), ds[i]? = some d →
      F.Uniform S ps (position + i) d ∨ d.Avoids S (position + i) F.id) :
    ∃ r, S.recursivePositions n F ps name position ds = .ok r := by
  induction ds generalizing position with
  | nil => exact ⟨[], rfl⟩
  | cons d ds ih =>
    have hrest (i : Nat) (e : Value) (he : ds[i]? = some e) :
        F.Uniform S ps (position + 1 + i) e ∨ e.Avoids S (position + 1 + i) F.id := by
      have := hfields (i + 1) e he
      rwa [← Nat.add_assoc, Nat.add_right_comm] at this
    rw [recursivePositions] at h ⊢
    obtain ⟨u, hu, h⟩ := h.bind_lift
    have huniform := isUniform_iff hM hl hps hds.1 hu
    rw [hu]
    cases u with
    | true =>
      obtain ⟨r, hr⟩ := ih hds.2 h.of_bind hrest
      exact ⟨position :: r, bind_eq_ok.2 ⟨true, rfl, bind_eq_ok.2 ⟨r, hr, rfl⟩⟩⟩
    | false =>
      obtain ⟨t, ht, h⟩ := h.bind_lift
      have havoids := (hfields 0 d rfl).resolve_left fun hd => Bool.false_ne_true (huniform.2 hd)
      have hm : ¬ t.mentions F.id = true := Bool.eq_false_iff.1
        ((Value.NormalForm.avoids_iff ⟨n, ht⟩).2 havoids)
      rw [if_neg hm] at h
      obtain ⟨r, hr⟩ := ih hds.2 h hrest
      refine ⟨r, bind_eq_ok.2 ⟨false, rfl, bind_eq_ok.2 ⟨t, liftM_eq_ok.2 ht, ?_⟩⟩⟩
      rw [if_neg hm]
      exact hr

/-- **What is known of the fields that were accepted.** -/
theorem recursivePositions_iff {r : List Nat}
    (h : S.recursivePositions n F ps name position ds = .ok r) :
    (∀ (i : Nat) (d : Value), ds[i]? = some d →
      F.Uniform S ps (position + i) d ∨ d.Avoids S (position + i) F.id) ∧
    ∀ q, q ∈ r ↔ ∃ i d, ds[i]? = some d ∧ q = position + i ∧ d.Mentions S q F.id := by
  obtain ⟨hbounds, hfields⟩ := recursivePositions_eq_ok h
  have hdeclared {i : Nat} {d : Value} (hd : ds[i]? = some d) : d.All S.declared :=
    Value.alls_iff.1 hds d (List.mem_of_getElem? hd)
  have huniform {i : Nat} {d : Value} (hd : ds[i]? = some d)
      (hu : S.isUniform n F ps (position + i) d = .ok true) : F.Uniform S ps (position + i) d :=
    (isUniform_iff hM hl hps (hdeclared hd) hu).1 rfl
  refine ⟨fun i d hd => ?_, fun q => ⟨fun hq => ?_, ?_⟩⟩
  · obtain ⟨_, hu⟩ | ⟨_, t, ht, hm⟩ := hfields hd
    · exact .inl (huniform hd hu)
    · exact .inr ⟨t, ⟨n, ht⟩, hm⟩
  · obtain ⟨hle, hlt⟩ := hbounds q hq
    obtain ⟨i, rfl⟩ := Nat.exists_eq_add_of_le hle
    have hd := List.getElem?_eq_getElem (show i < ds.length by omega)
    obtain ⟨_, hu⟩ := (hfields hd).resolve_right fun hr => hr.1 hq
    exact ⟨i, _, hd, rfl, (huniform hd hu).mentions⟩
  · rintro ⟨i, d, hd, rfl, hm⟩
    obtain ⟨hr, _⟩ | ⟨_, t, ht, hf⟩ := hfields hd
    · exact hr
    · exact (Value.Avoids.not_mentions ⟨t, ⟨n, ht⟩, hf⟩ hm).elim

/-! ### Constructors -/

omit hM hl hps hds

/-- The value `A` of a type opens to parameters `P` that are convertible with those of the family
`F`, one by one, and behind them to fields `T` and the family at the parameters; a field is of
that form too, or the family does not occur in it. -/
structure Admissible (S : Signature) (F : Family) (A : Value) (P T : Telescope) : Prop where
  parameters : A.Opens S 0 P
  length : P.length = F.parameterCount
  agree : ∃ E, F.type.Opens S 0 E ∧ E.length = F.parameterCount ∧
    ∀ (j : Nat) (d e : Value), P.domains[j]? = some d → E.domains[j]? = some e →
      d.Convertible S j e
  fields : P.body.Opens S F.parameterCount T
  field : ∀ (i : Nat) (d : Value), T.domains[i]? = some d →
    F.Uniform S P.parameters (F.parameterCount + i) d ∨
      d.Avoids S (F.parameterCount + i) F.id
  target : F.Uniform S P.parameters (F.parameterCount + T.length) T.body

namespace Admissible

variable {A : Value} {P T P' T' : Telescope}

/-- Nothing is left to open behind the fields. -/
theorem body_ne_pi (h : S.Admissible F A P T) (d : Value) (c : Closure) : T.body ≠ .pi d c := by
  obtain ⟨us, is, hbody, _⟩ := h.target
  rw [hbody]
  rintro ⟨⟩

/-- **The parameters and fields are determined by the type.** -/
theorem unique (h : S.Admissible F A P T) (h' : S.Admissible F A P' T') : P = P' ∧ T = T' := by
  obtain rfl := h.parameters.eq_of_length h'.parameters (h.length.trans h'.length.symm)
  refine ⟨rfl, h.fields.eq_of_length h'.fields (Nat.le_antisymm ?_ ?_)⟩
  · exact h'.fields.length_le h.fields h'.body_ne_pi
  · exact h.fields.length_le h'.fields h.body_ne_pi

end Admissible

/-- The binders of an admitted type, and what stands behind them, have declared constants. -/
theorem telescope_declared (hM : Θ.Models S) {level : Nat} {limit : Option Nat} {A : Value}
    {T : Telescope} (hA : A.All S.declared) (hT : A.telescope S n level limit = .ok T) :
    Telescope.All S.declared T :=
  (Value.telescope_kept hM (.refl S) (Nat.le_refl n) hA level limit T hT).2

variable {family : Name} {type : Term}

/-- **The former of a family opens to its parameters.** -/
theorem Coherent.length_parameters (h : S.Coherent Θ) {id : FamilyId} (hF : S.family? id = some F)
    {E : Telescope} (hE : F.type.telescope S n 0 (some F.parameterCount) = .ok E) :
    E.length = F.parameterCount := by
  obtain ⟨hΘ, hS, hG⟩ := h.models
  obtain ⟨D, _, dF⟩ := hS.family_of_eq_some hF
  have hs := (Context.Typed.empty h.models).scope
  have hFt : F.type.IsType Θ [] S.valueLeaves noLevels :=
    ⟨(hG.family hF).mono S.leaves_le, dF.valid noLevels⟩
  have hop := (hFt.telescope hΘ hS n hs).of_ok hE
  have hFe := dF.type noLevels
  rw [FamilyShape.type, Plain.pis_append] at hFe
  refine Nat.le_antisymm (hop.le rfl) (dF.parameters ▸ ?_)
  exact hop.le_length hFt hΘ hs hFe (.inr (congrArg some dF.parameters.symm))

/-- **The checks that a declaration has made say that the type is admissible.** -/
theorem ConstructorChecks.admissible (h : S.Coherent Θ) {id : FamilyId}
    (hF : S.family? id = some F) {A : Value} {P E T : Telescope} {r : List Nat}
    (hc : S.ConstructorChecks n F name type A P E T r) :
    S.Admissible F A P T ∧ ∀ q, q ∈ r ↔ ∃ i d, T.domains[i]? = some d ∧
      q = F.parameterCount + i ∧ d.Mentions S q F.id := by
  have hM := h.models
  have hA := (admitType_eq_ok hM hc.type).1.mono S.leaves_le_declared
  have hP := telescope_declared hM hA hc.parameters
  have hE := telescope_declared hM ((hM.grounded.family hF).mono S.leaves_le_declared) hc.expected
  have hT := telescope_declared hM hP.body hc.fields
  have hl : P.parameters.length = F.parameterCount := (Opened.length_parameters P).trans hc.length
  have hrec := recursivePositions_iff hM hl hP.parameters hT.domains hc.recursive
  refine ⟨⟨(Value.telescope_opens hc.parameters).1, hc.length, ⟨E, ?_, ?_, ?_⟩, ?_, hrec.1, ?_⟩,
    hrec.2⟩
  · exact (Value.telescope_opens hc.expected).1
  · exact h.length_parameters hF hc.expected
  · have := (convertDomains_iff hM hP.domains hE.domains hc.agree).1 rfl
    simpa only [Nat.zero_add] using this
  · exact (Value.telescope_opens hc.fields).1
  · exact (isUniform_iff hM hl hP.parameters hT.body hc.target).1 rfl

/-- **An admissible type passes the checks,** if they come to an end. -/
theorem Admissible.exists_checks (hM : Θ.Models S) {id : FamilyId} (hF : S.family? id = some F)
    (hnamed : S.familyNamed family = .ok F) (hopen : F.isFinalized = false)
    (hname : S.entry? name = none) {m k : Nat} {l : UInt64}
    (htype : Context.checkType m (.empty S) type = .ok l) {A : Value}
    (hA : type.eval S k [] = .ok A) {P T : Telescope} (ha : S.Admissible F A P T)
    (hr : Context.Returns (S.declareConstructor n family name type)) :
    ∃ E rs, S.ConstructorChecks n F name type A P E T rs := by
  have hreserve : S.reserve name = .ok () := by rw [reserve, hname]
  have hr := hr.bind hnamed
  rw [if_neg (Bool.eq_false_iff.1 hopen)] at hr
  have hr := hr.bind hreserve
  obtain ⟨hall, ht⟩ := (Context.checkType_post (.empty hM) m type).of_ok htype
  obtain ⟨l', hl', _⟩ := hr.of_bind.of_bind.exists_ok (Context.checkType_post (.empty hM) n type)
    ⟨hall.bounded, _, ht⟩
  obtain ⟨A', hA'⟩ := (hr.of_bind.bind hl').of_lift
  obtain rfl := Term.eval_unique hA hA'
  have hadmit : S.admitType n type = .ok A := bind_eq_ok.2 ⟨l', hl', liftM_eq_ok.2 hA'⟩
  -- The binders that the procedures open are those of the admissible type.
  obtain ⟨P', hP, hr⟩ := (hr.bind hadmit).of_bind.bind_lift
  obtain rfl := ha.parameters.telescope_eq ha.length hP
  obtain ⟨E', hE, hr⟩ := hr.bind_lift
  obtain ⟨E, hEopens, hElength, hagree⟩ := ha.agree
  obtain rfl := hEopens.telescope_eq hElength hE
  have hPd := telescope_declared hM ((admitType_eq_ok hM hadmit).1.mono S.leaves_le_declared) hP
  have hEd := telescope_declared hM ((hM.grounded.family hF).mono S.leaves_le_declared) hE
  have hl : P'.parameters.length = F.parameterCount :=
    (Opened.length_parameters P').trans ha.length
  dsimp only at hr
  rw [if_pos ha.length] at hr
  obtain ⟨agree, hconvert, hr⟩ := hr.bind_lift
  obtain rfl : agree = true := by
    refine (convertDomains_iff hM hPd.domains hEd.domains hconvert).2 ?_
    simpa only [Nat.zero_add] using hagree
  obtain ⟨T', hT, hr⟩ := Context.Returns.bind_lift hr
  obtain rfl := ha.fields.telescope_eq_all ha.body_ne_pi hT
  have hTd := telescope_declared hM hPd.body hT
  obtain ⟨rs, hrs⟩ := exists_recursivePositions hM hl hPd.parameters hTd.domains hr.of_bind ha.field
  obtain ⟨target, htarget, _⟩ := (hr.bind hrs).bind_lift
  obtain rfl := (isUniform_iff hM hl hPd.parameters hTd.body htarget).2 ha.target
  exact ⟨E', rs, hopen, hname, hadmit, hP, hE, ha.length, hconvert, hT, hrs, htarget⟩

/-- **A constructor is admitted exactly if its type is admissible.**  A declaration for an open
family, a name that is not taken and a type that is accepted succeeds, if it comes to an end, just
when the value of the type is admissible.  The constructor then has the fields of the type, and
recorded are, in order, the positions of the fields whose normal form mentions the family. -/
theorem Reachable.declareConstructor_iff (hS : S.Reachable) (hF : S.familyNamed? family = some F)
    (hopen : F.isFinalized = false) (hname : S.entry? name = none) {m : Nat} {l : UInt64}
    (htype : Context.checkType m (.empty S) type = .ok l)
    (hr : Context.Returns (S.declareConstructor n family name type)) :
    ((∃ S' id, S.declareConstructor n family name type = .ok (S', id)) ↔
      ∃ A P T, (∃ k, type.eval S k [] = .ok A) ∧ S.Admissible F A P T) ∧
    ∀ S' id, S.declareConstructor n family name type = .ok (S', id) →
      ∀ A P T k, type.eval S k [] = .ok A → S.Admissible F A P T →
        ∃ K, S'.constructor? id = some K ∧ K.family = F.id ∧
          K.parameterCount = F.parameterCount ∧ K.fieldCount = T.length ∧
          K.recursiveFields.Pairwise (· < ·) ∧
          ∀ q, q ∈ K.recursiveFields ↔ ∃ i d, T.domains[i]? = some d ∧
            q = F.parameterCount + i ∧ d.Mentions S q F.id := by
  obtain ⟨Θ, h⟩ := hS.coherent
  have hnamed := familyNamed_of_eq_some hF
  obtain ⟨fid, _, hfid⟩ := familyNamed_eq_ok hnamed
  refine ⟨⟨?_, ?_⟩, fun S' id hok A P T k hA ha => ?_⟩
  · rintro ⟨S', id, hok⟩
    obtain ⟨F', A, P, E, T, rs, hF', hc, _⟩ := declareConstructor_eq_ok_iff.1 hok
    obtain rfl := Except.ok.inj (hnamed.symm.trans hF')
    obtain ⟨l', _, hA⟩ := bind_eq_ok.1 hc.type
    exact ⟨A, P, T, ⟨n, liftM_eq_ok.1 hA⟩, (hc.admissible h hfid).1⟩
  · rintro ⟨A, P, T, ⟨k, hA⟩, ha⟩
    obtain ⟨E, rs, hc⟩ := ha.exists_checks h.models hfid hnamed hopen hname htype hA hr
    exact ⟨_, _, declareConstructor_eq_ok_iff.2 ⟨F, A, P, E, T, rs, hnamed, hc, rfl⟩⟩
  · obtain ⟨F', A', P', E, T', rs, hF', hc, hS'⟩ := declareConstructor_eq_ok_iff.1 hok
    obtain rfl := Except.ok.inj (hnamed.symm.trans hF')
    obtain ⟨l', _, hA'⟩ := bind_eq_ok.1 hc.type
    obtain rfl := Term.eval_unique hA (liftM_eq_ok.1 hA')
    obtain ⟨ha', hrec⟩ := hc.admissible h hfid
    obtain ⟨rfl, rfl⟩ := ha.unique ha'
    cases hS'
    refine ⟨_, (constructor?_addConstructor S name F T.length rs A _).trans (if_pos rfl), rfl, rfl,
      rfl, recursivePositions_increasing hc.recursive, hrec⟩

/-- The family of vectors, over the type of their entries and indexed by their length. -/
def vectorFamily : Family :=
  ⟨⟨1⟩, "Vec", 1, 1, .pi (.type 0) ⟨[], some "A", .pi (some "n") (.former ⟨0⟩ []) (.type 0)⟩,
    .opened []⟩

/-- The natural numbers, and vectors that have no constructors yet. -/
def vectors : Signature :=
  { naturals with
    entries := ("Vec", .family ⟨1⟩) :: naturals.entries
    families := naturals.families.push vectorFamily
    numbered := numbered_push naturals.numbered rfl }

theorem reachable_vectors : vectors.Reachable :=
  .tail reachable_naturals (.openFamily 9 "Vec" 1
    (.pi (some "A") (.type 0) (.pi (some "n") (.former ⟨0⟩ []) (.type 0))) rfl)

/-- The type of the constructor that puts an entry in front of a vector. -/
def consType : Term :=
  .pi (some "A") (.type 0) (.pi (some "n") (.former ⟨0⟩ []) (.pi none (.var (some "A") 1)
    (.pi none (.former ⟨1⟩ [.var (some "A") 2, .var (some "n") 1])
      (.former ⟨1⟩ [.var (some "A") 3, .con ⟨1⟩ [.var (some "n") 2]]))))

theorem cons_declareConstructor_iff :
    vectors.Reachable ∧ vectors.familyNamed? "Vec" = some vectorFamily ∧
    vectors.entry? "cons" = none ∧ Context.checkType 20 (.empty vectors) consType = .ok 1 ∧
    ∃ S' id A P T K, vectors.declareConstructor 20 "Vec" "cons" consType = .ok (S', id) ∧
      vectors.Admissible vectorFamily A P T ∧ S'.constructor? id = some K ∧
      K.fieldCount = T.length ∧ K.recursiveFields = [3] ∧ ∀ q, q ∈ K.recursiveFields ↔
        ∃ i d, T.domains[i]? = some d ∧ q = 1 + i ∧ d.Mentions vectors q ⟨1⟩ := by
  have hF : vectors.familyNamed? "Vec" = some vectorFamily := rfl
  have hname : vectors.entry? "cons" = none := rfl
  have htype : Context.checkType 20 (.empty vectors) consType = .ok 1 := rfl
  obtain ⟨⟨S', id⟩, hok⟩ : ∃ r, vectors.declareConstructor 20 "Vec" "cons" consType = .ok r :=
    ⟨_, rfl⟩
  obtain ⟨hiff, hfields⟩ := reachable_vectors.declareConstructor_iff hF rfl hname htype (n := 20)
    fun e he => nomatch hok.symm.trans he
  obtain ⟨A, P, T, ⟨k, hA⟩, ha⟩ := hiff.1 ⟨S', id, hok⟩
  obtain ⟨K, hK, _, _, hcount, _, hmem⟩ := hfields S' id hok A P T k hA ha
  refine ⟨reachable_vectors, hF, hname, htype, S', id, A, P, T, K, hok, ha, hK, hcount, ?_, hmem⟩
  cases hok
  cases hK
  rfl

end Signature

end Constructions
