/-
# The fields of a constructor

`Constructor.opened` opens the type of a constructor behind its parameters, as it is done
when the constructor is declared.  In a coherent signature the fields can be opened and
read back without a violation, and further declarations do not change them
(`Constructor.opened_stable`).
-/

import Constructions.Proofs.Growth

namespace Constructions

open Plain

variable {Θ : Theory} {S S' : Signature} {K : Constructor}

/-- The binders of a constructor: its parameters, and the fields behind them. -/
def Constructor.opened (S : Signature) (n : Nat) (K : Constructor) :
    Except Halt (Telescope × Telescope) := do
  let P ← K.type.telescope S n 0 (some K.parameterCount)
  let T ← P.body.telescope S n K.parameterCount none
  .ok (P, T)

theorem Constructor.opened_eq_ok {n : Nat} {P T : Telescope} :
    K.opened S n = .ok (P, T) ↔ K.type.telescope S n 0 (some K.parameterCount) = .ok P ∧
      P.body.telescope S n K.parameterCount none = .ok T := by
  constructor
  · intro h
    obtain ⟨P', hP, h⟩ := bind_eq_ok.1 h
    obtain ⟨T', hT, h⟩ := bind_eq_ok.1 h
    cases h
    exact ⟨hP, hT⟩
  · rintro ⟨hP, hT⟩
    exact bind_eq_ok.2 ⟨P, hP, bind_eq_ok.2 ⟨T, hT, rfl⟩⟩

theorem Constructor.opened_unique {n m : Nat} {P P' T T' : Telescope}
    (h : K.opened S n = .ok (P, T)) (h' : K.opened S m = .ok (P', T')) : P = P' ∧ T = T' := by
  obtain ⟨hP, hT⟩ := opened_eq_ok.1 h
  obtain ⟨hP', hT'⟩ := opened_eq_ok.1 h'
  obtain rfl := Value.telescope_unique hP hP'
  exact ⟨rfl, Value.telescope_unique hT hT'⟩

section

variable (h : Θ.Models S) {c : ConstructorId} {C : ConstructorShape} {D : FamilyShape}
  (hV : C.Valid Θ D) (dK : C.Describes Θ c K) (hK : K.type.All S.leaves)

include dK hK

theorem Constructor.isType_type : K.type.IsType Θ [] S.valueLeaves noLevels :=
  ⟨hK.mono S.leaves_le, dK.valid noLevels⟩

include h hV

/-- **The parameters of a constructor are opened.** -/
theorem Constructor.parameters_post (n : Nat) :
    Post (K.type.telescope S n 0 (some K.parameterCount)) (fun P =>
      P.length = K.parameterCount ∧
      Opened Θ S.valueLeaves noLevels 0 (some D.parameters.length) K.type P ∧
      List.Forall₂ Θ.Equal (telePlain noLevels 0 P.domains) D.parameters ∧
      Θ.Equal (P.body.plain (extendBy noLevels 0 P.length))
        (pis C.fields (C.familyAt C.target))) Halt.Resource := by
  have hty := Constructor.isType_type dK hK
  have hs := (Context.Typed.empty h).scope
  have he := dK.type noLevels
  rw [ConstructorShape.type, pis_append] at he
  refine (hty.telescope h.sound h.describes n hs).mono (fun P hP => ?_) fun _ h => h
  have hlen : P.length = C.parameters.length := by
    refine Nat.le_antisymm (dK.parameters ▸ hP.le rfl) ?_
    exact hP.le_length hty h.sound hs he (.inr (congrArg some dK.parameters.symm))
  obtain ⟨hds, hbody⟩ := hP.domains_equal he hlen
  rw [← hV.parameters]
  exact ⟨hlen.trans dK.parameters, dK.parameters ▸ hP, hds, hbody⟩

/-- **The fields of a constructor are opened.** -/
theorem Constructor.opened_post (n : Nat) :
    Post (K.opened S n) (fun (P, T) => P.length = K.parameterCount ∧
      Θ.Equal (P.body.plain (extendBy noLevels 0 P.length)) (pis C.fields (C.familyAt C.target)) ∧
      ConstructorOpened Θ S D K.type P T) Halt.Resource := by
  have hty := Constructor.isType_type dK hK
  refine Post.bind (Constructor.parameters_post h hV dK hK n) fun P _ ⟨hlen, hP, hds, he⟩ => ?_
  obtain ⟨hs, hb⟩ := hP.scope_body h hty
  rw [← hlen]
  refine Post.bind (hb.telescope h.sound h.describes n hs) fun T _ hT => ?_
  exact ⟨rfl, he, hP, hds, hs, hb, hT⟩

/-- **Further declarations do not change the binders of a constructor.** -/
theorem Constructor.opened_stable (hle : S.Le S') (n : Nat) : K.opened S' n = K.opened S n := by
  refine Mends.eq_of_safe ?_ (Constructor.opened_post h hV dK hK n)
  have hag := hle.agrees h
  have hlt : n < n → ¬ Halt.exhausted.Resource := fun h => (Nat.lt_irrefl n h).elim
  refine .bind (Value.telescope_mends hag (fun _ => trivial) (Nat.le_refl n) hlt
    (hK.mono S.leaves_le_names)) fun P hP => ?_
  obtain ⟨_, hP, _⟩ := (Constructor.parameters_post h hV dK hK n).of_ok hP
  have hall := hP.body.mono (S.valueLeaves_le_names.binds (fun _ => trivial) 0 P.length)
  exact .bind (Value.telescope_mends hag (fun _ => trivial) (Nat.le_refl n) hlt hall)
    fun _ _ => .refl _

end

namespace ConstructorOpened

variable {D : FamilyShape} {A d : Value} {P T : Telescope} (h : Θ.Models S)
  (ho : ConstructorOpened Θ S D A P T) {i : Nat} (hd : T.domains[i]? = some d)

include h ho hd

/-- **A field domain is read back without a violation.** -/
theorem readBack_safe (n : Nat) : Safe (d.readBack S n (P.length + i)) := by
  have hs := ho.scope.binds i
  obtain ⟨hall, m, hm⟩ := ho.fields.isType_getElem? h.sound ho.body hd
  exact Value.readBack_safe h.sound h.describes hs.closed hs.below hs.levelMap hall hm

/-- **Further declarations do not change its normal form.** -/
theorem readBack_stable (hle : S.Le S') (n : Nat) :
    d.readBack S' n (P.length + i) = d.readBack S n (P.length + i) := by
  refine Mends.eq_of_safe ?_ (ho.readBack_safe h hd n)
  have hall := (ho.fields.isType_getElem? h.sound ho.body hd).all
  refine (readBack_mends (hle.agrees h) (fun _ => trivial) (Nat.le_refl n)
    (fun h => (Nat.lt_irrefl n h).elim)).1 (hall.mono ?_)
  exact (S.valueLeaves_le_names.binds (fun _ => trivial) 0 P.length).binds (fun _ => trivial) _ i

end ConstructorOpened

end Constructions
