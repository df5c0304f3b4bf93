/-
# How signatures grow

The tables of a signature after each of its changes, what each successful declaration did
(`Signature.postulate_eq_ok` and so on), and the signatures that can be reached from the
empty one by declarations (`Signature.Reachable`).  A declaration that fails leaves the
signature as it is, so only successful ones make steps.
-/

import Constructions.Proofs.Outcome
import Constructions.Signature.Admission
import Mathlib.Logic.Relation

namespace Constructions

namespace Signature

/-! ### Tables -/

theorem lookup_cons_eq {α : Type} (c name : Name) (a : α) (l : List (Name × α)) :
    ((name, a) :: l).lookup c = if c = name then some a else l.lookup c := by
  rw [List.lookup_cons]
  by_cases h : c = name
  · rw [if_pos h, beq_iff_eq.2 h]
  · rw [if_neg h, beq_eq_false_iff_ne.2 h]

section Tables

variable (S : Signature) (name : Name) (g : Global) (F : Family)

theorem global?_addGlobal (c : Name) :
    (S.addGlobal name g).global? c = if c = name then some g else S.global? c :=
  lookup_cons_eq c name g S.globals

theorem entry?_addGlobal (c : Name) :
    Signature.entry? (S.addGlobal name g) c = if c = name then some .global else S.entry? c :=
  lookup_cons_eq c name Entry.global S.entries

theorem family?_addFamily (p i : Nat) (A : Value) (id : FamilyId) :
    (S.addFamily name p i A).1.family? id =
      if id = ⟨S.families.size⟩ then some ⟨⟨S.families.size⟩, name, p, i, A, .opened []⟩
      else S.family? id := by
  obtain ⟨k⟩ := id
  rw [family?, addFamily]
  simp only [Array.getElem?_push, FamilyId.mk.injEq]
  rfl

theorem entry?_addFamily (p i : Nat) (A : Value) (c : Name) :
    Signature.entry? (S.addFamily name p i A).1 c =
      if c = name then some (.family ⟨S.families.size⟩) else S.entry? c :=
  lookup_cons_eq c name _ S.entries

variable {S} {F}

/-- **A family is found under its own number.** -/
theorem family?_id {id : FamilyId} (h : S.family? id = some F) : F.id = id := by
  obtain ⟨hlt, rfl⟩ := Array.getElem?_eq_some_iff.1 h
  exact S.numbered id.index hlt

theorem family?_setFamily {G : Family} (h : S.family? F.id = some G) (id : FamilyId) :
    (S.setFamily F).family? id = if id = F.id then some F else S.family? id := by
  obtain ⟨k⟩ := id
  have hk : F.id.index < S.families.size := by
    obtain ⟨hk, _⟩ := Array.getElem?_eq_some_iff.1 h
    exact hk
  have hid : F.id.index = k ↔ ⟨k⟩ = F.id := ⟨fun h => h ▸ rfl, fun h => h ▸ rfl⟩
  rw [family?, setFamily]
  simp only [Array.getElem?_setIfInBounds, if_pos hk, hid]
  rfl

theorem family?_addConstructor {G : Family} (h : S.family? F.id = some G) (k : Nat) (r : List Nat)
    (A : Value) (id : FamilyId) :
    (S.addConstructor name F k r A).1.family? id =
      if id = F.id then
        some { F with state := .opened (F.constructors ++ [⟨S.constructors.size⟩]) }
      else S.family? id :=
  family?_setFamily (F := { F with state := .opened (F.constructors ++ _) }) h id

theorem family?_finalize {G : Family} (h : S.family? F.id = some G) (id : FamilyId) :
    (S.finalize F).family? id =
      if id = F.id then some { F with state := .finalized (.build F.constructors) }
      else S.family? id :=
  family?_setFamily (F := { F with state := .finalized (.build F.constructors) }) h id

variable (S F)

theorem constructor?_addConstructor (k : Nat) (r : List Nat) (A : Value) (c : ConstructorId) :
    (S.addConstructor name F k r A).1.constructor? c =
      if c = ⟨S.constructors.size⟩ then
        some ⟨⟨S.constructors.size⟩, name, F.id, F.parameterCount, k, r, A⟩
      else S.constructor? c := by
  obtain ⟨i⟩ := c
  rw [constructor?, addConstructor]
  simp only [Array.getElem?_push, ConstructorId.mk.injEq]
  rfl

theorem entry?_addConstructor (k : Nat) (r : List Nat) (A : Value) (c : Name) :
    Signature.entry? (S.addConstructor name F k r A).1 c =
      if c = name then some (.constructor ⟨S.constructors.size⟩) else S.entry? c :=
  lookup_cons_eq c name _ S.entries

theorem family?_size : S.family? ⟨S.families.size⟩ = none := Array.getElem?_eq_none (Nat.le_refl _)

theorem constructor?_size : S.constructor? ⟨S.constructors.size⟩ = none :=
  Array.getElem?_eq_none (Nat.le_refl _)

end Tables

/-! ### What a declaration did -/

variable {S S' : Signature} {n : Nat} {name family : Name} {type : Term}

theorem reserve_eq_ok {u : Unit} (h : S.reserve name = .ok u) : S.entry? name = none := by
  unfold reserve at h
  split at h
  · cases h
  · next he => exact he

theorem postulate_eq_ok (h : S.postulate n name type = .ok S') :
    ∃ A, S.entry? name = none ∧ S.admitType n type = .ok A ∧ S' = S.addGlobal name ⟨A, none⟩ := by
  obtain ⟨_, hr, h⟩ := bind_eq_ok.1 h
  obtain ⟨A, hA, h⟩ := bind_eq_ok.1 h
  exact ⟨A, reserve_eq_ok hr, hA, (Except.ok.inj h).symm⟩

theorem define_eq_ok {value : Term} (h : S.define n name type value = .ok S') :
    ∃ A a, S.entry? name = none ∧ S.admitType n type = .ok A ∧
      Context.check n (.empty S) value A = .ok () ∧ value.eval S n [] = .ok a ∧
      S' = S.addGlobal name ⟨A, some a⟩ := by
  obtain ⟨_, hr, h⟩ := bind_eq_ok.1 h
  obtain ⟨A, hA, h⟩ := bind_eq_ok.1 h
  obtain ⟨_, hc, h⟩ := bind_eq_ok.1 h
  obtain ⟨a, ha, h⟩ := bind_eq_ok.1 h
  exact ⟨A, a, reserve_eq_ok hr, hA, hc, liftM_eq_ok.1 ha, (Except.ok.inj h).symm⟩

theorem indexCount_eq_ok {p i : Nat} {A : Value} (h : S.indexCount n name p A = .ok i) :
    ∃ T l, A.telescope S n 0 none = .ok T ∧ p ≤ T.length ∧ T.body = .type l ∧
      i = T.length - p := by
  obtain ⟨T, hT, h⟩ := bind_eq_ok.1 h
  split at h
  · cases h
  · next hp =>
    split at h
    · next l hl =>
      exact ⟨T, l, liftM_eq_ok.1 hT, Nat.not_lt.1 hp, hl, (Except.ok.inj h).symm⟩
    · cases h

theorem openFamily_eq_ok {p : Nat} {id : FamilyId}
    (h : S.openFamily n name p type = .ok (S', id)) :
    ∃ A T l, S.entry? name = none ∧ S.admitType n type = .ok A ∧
      A.telescope S n 0 none = .ok T ∧ p ≤ T.length ∧ T.body = .type l ∧
      S' = (S.addFamily name p (T.length - p) A).1 := by
  obtain ⟨_, hr, h⟩ := bind_eq_ok.1 h
  obtain ⟨A, hA, h⟩ := bind_eq_ok.1 h
  obtain ⟨i, hi, h⟩ := bind_eq_ok.1 h
  obtain ⟨T, l, hT, hp, hl, rfl⟩ := indexCount_eq_ok hi
  exact ⟨A, T, l, reserve_eq_ok hr, hA, hT, hp, hl, (congrArg Prod.fst (Except.ok.inj h)).symm⟩

theorem familyNamed_eq_ok {F : Family} (h : S.familyNamed family = .ok F) :
    ∃ id, S.entry? family = some (.family id) ∧ S.family? id = some F := by
  unfold familyNamed at h
  split at h
  · next G hG =>
    cases h
    unfold familyNamed? at hG
    split at hG
    · next id hid => exact ⟨id, hid, hG⟩
    · cases hG
  · cases h

theorem isUniform_eq_true {F : Family} {ps : List Value} {level : Nat} {v : Value}
    (h : S.isUniform n F ps level v = .ok true) :
    ∃ as, v = .former F.id as ∧ as.length = F.arity ∧
      convertList (fun a b => a.convert S n level b) (as.take F.parameterCount) ps = .ok true ∧
      S.noneMentions n level F.id (as.drop F.parameterCount) = .ok true := by
  unfold isUniform at h
  split at h
  · next id as =>
    split at h
    · next hid =>
      obtain ⟨rfl, hl⟩ := hid
      obtain ⟨b, hb, h⟩ := bind_eq_ok.1 h
      cases b with
      | false => cases h
      | true => exact ⟨as, rfl, hl, hb, h⟩
    · cases h
  · cases h

/-- **A field is recursive, or it does not mention the family.** -/
theorem recursivePositions_eq_ok {F : Family} {ps ds : List Value} {position : Nat} {r : List Nat}
    (h : S.recursivePositions n F ps name position ds = .ok r) :
    (∀ q ∈ r, position ≤ q ∧ q < position + ds.length) ∧ ∀ {i d}, ds[i]? = some d →
      (position + i ∈ r ∧ S.isUniform n F ps (position + i) d = .ok true) ∨
      (position + i ∉ r ∧
        ∃ t, d.readBack S n (position + i) = .ok t ∧ t.mentions F.id = false) := by
  induction ds generalizing position r with
  | nil =>
    cases h
    exact ⟨fun _ hq => (nomatch hq), fun hd => (nomatch hd)⟩
  | cons e ds ih =>
    obtain ⟨u, hu, h⟩ := bind_eq_ok.1 h
    have hu := liftM_eq_ok.1 hu
    cases u with
    | true =>
      obtain ⟨rest, hrest, h⟩ := bind_eq_ok.1 h
      cases h
      obtain ⟨hle, ih⟩ := ih hrest
      refine ⟨fun q hq => ?_, fun {i d} hd => ?_⟩
      · rw [List.length_cons]
        obtain rfl | hq := List.mem_cons.1 hq
        · omega
        · have := hle q hq
          omega
      · cases i with
        | zero =>
          cases hd
          exact .inl ⟨List.mem_cons_self, hu⟩
        | succ i =>
          rw [← Nat.add_assoc, Nat.add_right_comm]
          refine (ih hd).imp (fun ⟨hi, hu⟩ => ⟨List.mem_cons_of_mem _ hi, hu⟩) ?_
          rintro ⟨hi, ht⟩
          refine ⟨fun hm => ?_, ht⟩
          obtain hm | hm := List.mem_cons.1 hm
          · omega
          · exact hi hm
    | false =>
      obtain ⟨t, ht, h⟩ := bind_eq_ok.1 h
      have ht := liftM_eq_ok.1 ht
      split at h
      · cases h
      next hm =>
      obtain ⟨hle, ih⟩ := ih h
      refine ⟨fun q hq => ?_, fun {i d} hd => ?_⟩
      · have := hle q hq
        rw [List.length_cons]
        omega
      · cases i with
        | zero =>
          cases hd
          exact .inr ⟨fun hr => Nat.not_succ_le_self _ (hle _ hr).1, t, ht, Bool.eq_false_iff.2 hm⟩
        | succ i =>
          rw [← Nat.add_assoc, Nat.add_right_comm]
          exact ih hd

/-- **The recursive fields are found from the first to the last.** -/
theorem recursivePositions_increasing {F : Family} {ps ds : List Value} {position : Nat}
    {r : List Nat} (h : S.recursivePositions n F ps name position ds = .ok r) :
    r.Pairwise (· < ·) := by
  induction ds generalizing position r with
  | nil =>
    cases h
    exact .nil
  | cons d ds ih =>
    obtain ⟨u, _, h⟩ := bind_eq_ok.1 h
    cases u with
    | true =>
      obtain ⟨rest, hrest, h⟩ := bind_eq_ok.1 h
      cases h
      refine .cons (fun q hq => ?_) (ih hrest)
      exact ((recursivePositions_eq_ok hrest).1 q hq).1
    | false =>
      obtain ⟨t, _, h⟩ := bind_eq_ok.1 h
      split at h
      · cases h
      · exact ih h

/-- What has been found out about the type of a constructor when it is declared: the parameters,
those of the family, the fields, and the positions of the recursive fields. -/
structure ConstructorChecks (S : Signature) (n : Nat) (F : Family) (name : Name) (type : Term)
    (A : Value) (P E T : Telescope) (r : List Nat) : Prop where
  opened : F.isFinalized = false
  fresh : S.entry? name = none
  type : S.admitType n type = .ok A
  parameters : A.telescope S n 0 (some F.parameterCount) = .ok P
  expected : F.type.telescope S n 0 (some F.parameterCount) = .ok E
  length : P.length = F.parameterCount
  agree : convertDomains S n 0 P.domains E.domains = .ok true
  fields : P.body.telescope S n F.parameterCount none = .ok T
  recursive : S.recursivePositions n F P.parameters name F.parameterCount T.domains = .ok r
  target : S.isUniform n F P.parameters (F.parameterCount + T.length) T.body = .ok true

theorem familyNamed_of_eq_some {F : Family} (h : S.familyNamed? family = some F) :
    S.familyNamed family = .ok F := by rw [familyNamed, h]

/-- **A constructor is declared exactly if all checks are passed.** -/
theorem declareConstructor_eq_ok_iff {r : Signature × ConstructorId} :
    S.declareConstructor n family name type = .ok r ↔ ∃ F A P E T rs,
      S.familyNamed family = .ok F ∧ S.ConstructorChecks n F name type A P E T rs ∧
      r = S.addConstructor name F T.length rs A := by
  constructor
  · intro h
    obtain ⟨F, hF, h⟩ := bind_eq_ok.1 h
    split at h
    · cases h
    next hopen =>
    obtain ⟨_, hr, h⟩ := bind_eq_ok.1 h
    obtain ⟨A, hA, h⟩ := bind_eq_ok.1 h
    obtain ⟨x, hx, h⟩ := bind_eq_ok.1 h
    obtain ⟨P, hP, hx⟩ := bind_eq_ok.1 hx
    obtain ⟨E, hE, hx⟩ := bind_eq_ok.1 hx
    dsimp only at hx
    split at hx
    · next hl =>
      obtain ⟨b, hb, hx⟩ := bind_eq_ok.1 hx
      cases b with
      | false => cases hx
      | true =>
        obtain ⟨T, hT, hx⟩ := bind_eq_ok.1 hx
        obtain ⟨r, hrec, hx⟩ := bind_eq_ok.1 hx
        obtain ⟨u, hu, hx⟩ := bind_eq_ok.1 hx
        cases u with
        | false => cases hx
        | true =>
          cases hx
          exact ⟨F, A, P, E, T, r, hF, ⟨Bool.eq_false_iff.2 hopen, reserve_eq_ok hr, hA,
            liftM_eq_ok.1 hP, liftM_eq_ok.1 hE, hl, liftM_eq_ok.1 hb, liftM_eq_ok.1 hT, hrec,
            liftM_eq_ok.1 hu⟩, (Except.ok.inj h).symm⟩
    · cases hx
  · rintro ⟨F, A, P, E, T, rs, hF, hc, rfl⟩
    have hreserve : S.reserve name = .ok () := by rw [reserve, hc.fresh]
    refine bind_eq_ok.2 ⟨F, hF, ?_⟩
    rw [if_neg (Bool.eq_false_iff.1 hc.opened)]
    refine bind_eq_ok.2 ⟨(), hreserve, bind_eq_ok.2 ⟨A, hc.type, ?_⟩⟩
    refine bind_eq_ok.2 ⟨(T.length, rs), ?_, rfl⟩
    refine bind_eq_ok.2 ⟨P, liftM_eq_ok.2 hc.parameters, ?_⟩
    refine bind_eq_ok.2 ⟨E, liftM_eq_ok.2 hc.expected, ?_⟩
    dsimp only
    rw [if_pos hc.length]
    refine bind_eq_ok.2 ⟨true, liftM_eq_ok.2 hc.agree, ?_⟩
    refine bind_eq_ok.2 ⟨T, liftM_eq_ok.2 hc.fields, bind_eq_ok.2 ⟨rs, hc.recursive, ?_⟩⟩
    exact bind_eq_ok.2 ⟨true, liftM_eq_ok.2 hc.target, rfl⟩

theorem declareConstructor_eq_ok {id : ConstructorId}
    (h : S.declareConstructor n family name type = .ok (S', id)) :
    ∃ fid F A P E T r, S.family? fid = some F ∧ S.ConstructorChecks n F name type A P E T r ∧
      S' = (S.addConstructor name F T.length r A).1 := by
  obtain ⟨F, A, P, E, T, r, hF, hc, hS'⟩ := declareConstructor_eq_ok_iff.1 h
  obtain ⟨fid, _, hF⟩ := familyNamed_eq_ok hF
  exact ⟨fid, F, A, P, E, T, r, hF, hc, congrArg Prod.fst hS'⟩

theorem closeFamily_eq_ok {id : FamilyId} (h : S.closeFamily family = .ok (S', id)) :
    ∃ fid F, S.family? fid = some F ∧ F.isFinalized = false ∧ F.constructors ≠ [] ∧
      S' = S.finalize F := by
  obtain ⟨F, hF, h⟩ := bind_eq_ok.1 h
  obtain ⟨fid, _, hF⟩ := familyNamed_eq_ok hF
  split at h
  · cases h
  next hopen =>
  split at h
  · cases h
  next hne =>
  exact ⟨fid, F, hF, Bool.eq_false_iff.2 hopen, by simpa using hne,
    (congrArg Prod.fst (Except.ok.inj h)).symm⟩

/-! ### Reachable signatures -/

/-- One successful declaration. -/
inductive Step (S S' : Signature) : Prop where
  | postulate (n : Nat) (name : Name) (type : Term) :
      S.postulate n name type = .ok S' → Step S S'
  | define (n : Nat) (name : Name) (type value : Term) :
      S.define n name type value = .ok S' → Step S S'
  | openFamily (n : Nat) (name : Name) (parameterCount : Nat) (type : Term) {id : FamilyId} :
      S.openFamily n name parameterCount type = .ok (S', id) → Step S S'
  | declareConstructor (n : Nat) (family name : Name) (type : Term) {id : ConstructorId} :
      S.declareConstructor n family name type = .ok (S', id) → Step S S'
  | closeFamily (family : Name) {id : FamilyId} :
      S.closeFamily family = .ok (S', id) → Step S S'

/-- A signature is reached from the empty one by declarations. -/
def Reachable (S : Signature) : Prop := Relation.ReflTransGen Step .empty S

end Signature

end Constructions
