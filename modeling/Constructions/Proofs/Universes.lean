/-
# The universes of fields

The universe of a field is the one that checking finds for its domain, read back, in the
context of the binders before it (`Constructor.fieldLevels`).  When a constructor is
declared, nothing compares it with the universe that the family lives in: a family in
`Type 0` may store an element of `Type 0` and hand it back.

The universe of the type of a constructor behind its parameters is the largest of the
universes of the fields and of the family.  So the fields stay within the universe of the
family exactly if that type does.

| universe | found by |
| --- | --- |
| of a field | `Constructor.fieldLevels` |
| of the type behind the parameters | `Constructor.bodyLevel` |
| that the family lives in | `Family.level` |
-/

import Constructions.Proofs.Fields

namespace Constructions

open Plain

/-! ### Levels -/

/-- A context with opened binders. -/
def Context.bindOpened (Γ : Context) : List OpenedBinder → Context
  | [] => Γ
  | b :: bs => (Γ.bind b.label b.domain).bindOpened bs

theorem Context.level_bindOpened (Γ : Context) (bs : List OpenedBinder) :
    (Γ.bindOpened bs).level = Γ.level + bs.length := by
  induction bs generalizing Γ with
  | nil => rfl
  | cons b bs ih =>
    rw [bindOpened, ih, level_bind, List.length_cons]
    omega

/-- The universe of a value that is a type. -/
def Context.levelOf (n : Nat) (Γ : Context) (v : Value) : Check UInt64 := do
  let t ← Γ.quote n v
  Γ.checkType n t

/-- The universes of the domains of opened binders, each in the context of those before it. -/
def Context.levels (n : Nat) (Γ : Context) : List OpenedBinder → Check (List UInt64)
  | [] => .ok []
  | b :: bs => do
    let l ← Γ.levelOf n b.domain
    let ls ← (Γ.bind b.label b.domain).levels n bs
    .ok (l :: ls)

/-- The universes of the fields of a constructor. -/
def Constructor.fieldLevels (S : Signature) (n : Nat) (K : Constructor) : Check (List UInt64) := do
  let (P, T) ← K.opened S n
  ((Context.empty S).bindOpened P.binders).levels n T.binders

/-- The universe of the type of a constructor behind its parameters. -/
def Constructor.bodyLevel (S : Signature) (n : Nat) (K : Constructor) : Check UInt64 := do
  let P ← K.type.telescope S n 0 (some K.parameterCount)
  ((Context.empty S).bindOpened P.binders).levelOf n P.body

/-- The universe that the former of a family ends in. -/
def Family.level (S : Signature) (n : Nat) (F : Family) : Except Halt (Option UInt64) := do
  let E ← F.type.telescope S n 0 none
  match E.body with
  | .type u => .ok (some u)
  | _ => .ok none

variable {Θ : Theory} {S : Signature} {Γ : Context} {Δ ε : List Plain} {ℓ : Nat → Plain}
  {L : Leaves}

namespace Context.Typed

/-- **More variables**, one for each binder of a telescope. -/
theorem bindOpened {bs : List OpenedBinder} {B : Plain} {u : Nat} (h : Γ.Typed Θ Δ ε ℓ L)
    (hall : TeleAll L Γ.level (bs.map (·.domain)))
    (ht : HasType Θ Δ (pis (telePlain ℓ Γ.level (bs.map (·.domain))) B) (.atom (.type u))) :
    ∃ ε', (Γ.bindOpened bs).Typed Θ ((telePlain ℓ Γ.level (bs.map (·.domain))).reverse ++ Δ) ε'
      (extendBy ℓ Γ.level bs.length) (L.binds Γ.level bs.length) := by
  induction bs generalizing Γ Δ ε ℓ L u with
  | nil => exact ⟨ε, h⟩
  | cons b bs ih =>
    obtain ⟨m, _, hd, hB, _⟩ := ht.pi_inv
    obtain ⟨ε', h'⟩ := ih (h.bind ⟨hall.1, m, hd⟩ b.label) hall.2 hB
    refine ⟨ε', ?_⟩
    rw [List.map_cons, telePlain, List.reverse_cons, List.append_assoc]
    exact h'

/-- **The universe that is found is the universe.** -/
theorem levelOf_eq (h : Γ.Typed Θ Δ ε ℓ L) {v : Value} (hv : v.All L) {m : Nat}
    (hm : HasType Θ Δ (v.plain ℓ) (.atom (.type m))) {n : Nat} {l : UInt64}
    (e : Γ.levelOf n v = .ok l) : l.toNat = m := by
  obtain ⟨t, ht, hl⟩ := bind_eq_ok.1 e
  obtain ⟨_, htl⟩ := (Context.checkType_post h n t).of_ok hl
  -- The value and the term that it is read back as reduce to the same.
  have hred := Value.readBack_reds h.models.describes h.scope.closed h.scope.below h.inverse hv
    (liftM_eq_ok.1 ht)
  have htl' := htl.reds h.models.sound (h.under_reds t)
  exact (htl'.unique (hm.reds h.models.sound hred)).type_inj

/-- **The universe of function types** is the largest of the universes of the domains and of the
type behind them. -/
theorem levels_eq {bs : List OpenedBinder} {B : Plain} {u w n : Nat} {ls : List UInt64}
    (h : Γ.Typed Θ Δ ε ℓ L) (hall : TeleAll L Γ.level (bs.map (·.domain)))
    (hw : HasType Θ Δ (pis (telePlain ℓ Γ.level (bs.map (·.domain))) B) (.atom (.type w)))
    (hu : HasType Θ ((telePlain ℓ Γ.level (bs.map (·.domain))).reverse ++ Δ) B (.atom (.type u)))
    (e : Γ.levels n bs = .ok ls) : w = (ls.map UInt64.toNat).foldr max u := by
  induction bs generalizing Γ Δ ε ℓ L w ls with
  | nil =>
    cases e
    exact (hw.unique hu).type_inj
  | cons b bs ih =>
    obtain ⟨l, hl, e⟩ := bind_eq_ok.1 e
    obtain ⟨ls', hls, e⟩ := bind_eq_ok.1 e
    cases e
    obtain ⟨m, k, hd, hB, hmax⟩ := hw.pi_inv
    rw [List.map_cons, telePlain, List.reverse_cons, List.append_assoc] at hu
    have hk := ih (h.bind ⟨hall.1, m, hd⟩ b.label) hall.2 hB hu hls
    have hm := h.levelOf_eq hall.1 hd hl
    rw [List.map_cons, List.foldr_cons, ← hk, hm]
    exact hmax.type_inj.symm

end Context.Typed

/-! ### Constructors and families -/

/-- The universe of a family, in the theory. -/
theorem Family.level_eq (h : Θ.Models S) {id : FamilyId} {F : Family} {D : FamilyShape}
    (dF : D.Describes Θ id F) (hF : F.type.All S.leaves) {n : Nat} {u : UInt64}
    (e : F.level S n = .ok (some u)) : u.toNat = D.level := by
  obtain ⟨E, hE, e⟩ := bind_eq_ok.1 e
  have hty : F.type.IsType Θ [] S.valueLeaves noLevels := ⟨hF.mono S.leaves_le, dF.valid noLevels⟩
  have hs := (Context.Typed.empty h).scope
  have hop := (hty.telescope h.sound h.describes n hs).of_ok hE
  have hlen := Nat.le_antisymm (hop.length_le (dF.type noLevels) fun _ _ e => e.type_ne_pi)
    (hop.le_length hty h.sound hs (dF.type noLevels) (.inl rfl))
  obtain ⟨_, hbody⟩ := hop.domains_equal (dF.type noLevels) hlen
  split at e
  · next l hl =>
    cases e
    rw [hl] at hbody
    exact hbody.type_inj
  · cases e

namespace ConstructorOpened

variable {A : Value} {P T : Telescope} {C : ConstructorShape} {D : FamilyShape}

/-- **What stands behind the fields lives in the universe of the family.** -/
theorem body_hasType (h : Θ.Models S) (ho : ConstructorOpened Θ S D A P T)
    (hD : Θ.family C.family = some D) (hV : C.Valid Θ D)
    (e : Θ.Equal (P.body.plain (extendBy noLevels 0 P.length))
      (pis C.fields (C.familyAt C.target))) :
    HasType Θ ((telePlain (extendBy noLevels 0 P.length) P.length T.domains).reverse ++
        (telePlain noLevels 0 P.domains).reverse)
      (T.body.plain (extendBy (extendBy noLevels 0 P.length) P.length T.length))
      (.atom (.type D.level)) := by
  have hlen := Nat.le_antisymm
    (ho.fields.length_le e fun A B e => C.familyAt_ne_pi C.target .var A B (by rwa [subst_var]))
    (ho.fields.le_length ho.body h.sound ho.scope e (.inl rfl))
  obtain ⟨_, hbody⟩ := ho.fields.domains_equal e hlen
  have hty := ho.fields.isType_body ho.body h.sound
  obtain ⟨bs, hbs, hall⟩ := hty.eq_former (ho.scope.binds T.length) hbody
  obtain ⟨m, hm⟩ := hty.typed
  rw [hbs, Value.plain] at hm ⊢
  obtain ⟨D', hD', _, _, hfull⟩ := hm.spine_former_inv
  obtain rfl := Option.some.inj (hD.symm.trans hD')
  obtain ⟨_, hlevel⟩ := hfull (by
    rw [hall.length_eq, List.length_append, hV.target, ← hV.parameters, List.length_take,
      length_vars, ConstructorShape.arity]
    omega)
  exact hm.conv hlevel.symm

end ConstructorOpened

theorem foldr_max_toNat (ls : List UInt64) (u : UInt64) :
    (ls.map UInt64.toNat).foldr max u.toNat = (ls.foldr max u).toNat := by
  induction ls with
  | nil => rfl
  | cons l ls ih => rw [List.map_cons, List.foldr_cons, ih, List.foldr_cons, UInt64.toNat_max]

theorem foldr_max_eq_iff (ls : List UInt64) (u : UInt64) :
    ls.foldr max u = u ↔ ∀ l ∈ ls, l ≤ u := by
  have hle : u ≤ ls.foldr max u ∧ (ls.foldr max u = u ↔ ∀ l ∈ ls, l ≤ u) := by
    induction ls with
    | nil => exact ⟨UInt64.le_refl u, iff_of_true rfl fun _ h => nomatch h⟩
    | cons l ls ih =>
      obtain ⟨hu, hiff⟩ := ih
      rw [List.foldr_cons, List.forall_mem_cons, ← hiff]
      simp only [UInt64.le_iff_toNat_le, ← UInt64.toNat_inj, UInt64.toNat_max] at hu ⊢
      omega
  exact hle.2

namespace Signature

/-- **The universe of a constructor behind its parameters** is the largest of the universes of its
fields and of its family.  So the fields stay within the universe of the family exactly if it is
that universe. -/
theorem Reachable.bodyLevel_eq (h : S.Reachable) {c : ConstructorId} {K : Constructor} {F : Family}
    (hK : S.constructor? c = some K) (hF : S.family? K.family = some F) {n m k : Nat}
    {ls : List UInt64} {w u : UInt64} (hls : K.fieldLevels S n = .ok ls)
    (hw : K.bodyLevel S m = .ok w) (hu : F.level S k = .ok (some u)) :
    w = ls.foldr max u ∧ ((∀ l ∈ ls, l ≤ u) ↔ w = u) := by
  obtain ⟨Θ, hΘ⟩ := h.coherent
  have hM := hΘ.models
  obtain ⟨C, hC, dK⟩ := hM.describes.constructor_of_eq_some hK
  obtain ⟨D, hD, hV⟩ := hM.sound.constructor hC
  obtain ⟨D', hD', dF⟩ := hM.describes.family_of_eq_some hF
  obtain rfl := Option.some.inj (hD.symm.trans (dK.family ▸ hD'))
  have hKall := hM.grounded.constructor hK
  -- The two procedures open the same parameters.
  obtain ⟨⟨P, T⟩, ho, hls⟩ := bind_eq_ok.1 hls
  have ho := liftM_eq_ok.1 ho
  obtain ⟨P', hP', hw⟩ := bind_eq_ok.1 hw
  obtain rfl := Value.telescope_unique (Constructor.opened_eq_ok.1 ho).1 (liftM_eq_ok.1 hP')
  obtain ⟨_, he, ho⟩ := (Constructor.opened_post hM hV dK hKall n).of_ok ho
  obtain ⟨v, hv⟩ := ho.parameters.typed (Constructor.isType_type dK hKall) hM.sound
  obtain ⟨ε, hP⟩ := (Context.Typed.empty hM).bindOpened ho.parameters.domains hv
  rw [List.append_nil] at hP
  have hlevel : ((Context.empty S).bindOpened P.binders).level = P.length :=
    (Context.level_bindOpened _ _).trans (Nat.zero_add _)
  -- The type behind the parameters reduces to function types over the fields.
  obtain ⟨v, hv⟩ := ho.body.typed
  have hwv := hP.levelOf_eq ho.body.all hv hw
  have hmax := hP.levels_eq (u := D.level) (by rw [hlevel]; exact ho.fields.domains)
    (by rw [hlevel]; exact hv.reds hM.sound ho.fields.reds)
    (by rw [hlevel]; exact ho.body_hasType hM hD hV he) hls
  rw [← Family.level_eq hM dF (hM.grounded.family hF) hu, foldr_max_toNat, ← hwv] at hmax
  obtain rfl := UInt64.toNat_inj.1 hmax
  exact ⟨rfl, (foldr_max_eq_iff ls u).symm⟩

/-! ### A family that stores its universe -/

/-- The finalized family `Box : Type 0` with `box : Type 0 -> Box`. -/
def boxed : Signature where
  entries := [("box", .constructor ⟨0⟩), ("Box", .family ⟨0⟩)]
  families := #[⟨⟨0⟩, "Box", 0, 0, .type 0, .finalized (.build [⟨0⟩])⟩]
  constructors := #[⟨⟨0⟩, "box", ⟨0⟩, 0, 1, [], .pi (.type 0) ⟨[], some "A", .former ⟨0⟩ []⟩⟩]

theorem reachable_boxed : boxed.Reachable :=
  .tail (.tail (.tail .refl (.openFamily 5 "Box" 0 (.type 0) rfl))
    (.declareConstructor 9 "Box" "box" (.pi (some "A") (.type 0) (.former ⟨0⟩ [])) rfl))
    (.closeFamily "Box" rfl)

/-- The type that a box holds, by elimination. -/
def unbox (b : Term) : Term :=
  .elim b (.lam none (.former ⟨0⟩ []) (.type 0)) [.lam (some "A") (.type 0) (.var (some "A") 0)]

theorem boxed_bodyLevel_eq : ∃ K F, boxed.constructor? ⟨0⟩ = some K ∧
    boxed.family? K.family = some F ∧ K.fieldLevels boxed 9 = .ok [1] ∧
    K.bodyLevel boxed 9 = .ok 1 ∧ F.level boxed 9 = .ok (some 0) ∧
    ((∀ l ∈ [(1 : UInt64)], l ≤ 0) ↔ (1 : UInt64) = 0) :=
  ⟨_, _, rfl, rfl, rfl, rfl, rfl,
    (reachable_boxed.bodyLevel_eq (c := ⟨0⟩) (n := 9) (m := 9) (k := 9) rfl rfl rfl rfl rfl).2⟩

/-- **A family in `Type 0` may store an element of `Type 0` and hand it back.**  The field of `box`
lives above its family, and a box of the family itself is opened to the family. -/
theorem boxed_hands_back : boxed.Reachable ∧ (∃ K F, boxed.constructor? ⟨0⟩ = some K ∧
    boxed.family? K.family = some F ∧ K.fieldLevels boxed 9 = .ok [1] ∧
    F.level boxed 9 = .ok (some 0) ∧ ¬ (1 : UInt64) ≤ 0) ∧
    Context.infer 20 (.empty boxed) (unbox (.con ⟨0⟩ [.former ⟨0⟩ []])) = .ok (.type 0) ∧
    (unbox (.con ⟨0⟩ [.former ⟨0⟩ []])).normalize boxed 20 = .ok (.former ⟨0⟩ []) :=
  ⟨reachable_boxed, ⟨_, _, rfl, rfl, rfl, rfl, by decide⟩, rfl, rfl⟩

end Signature

end Constructions
