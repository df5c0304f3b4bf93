/-
# Updates are all or nothing

An update of a signature in place does what the operation does that returns the new signature,
and an update that is refused leaves the signature as it was (`Update.Refines`).

| update | operation |
| --- | --- |
| `Update.postulate` | `Signature.postulate` |
| `Update.define` | `Signature.define` |
| `Update.openFamily` | `Signature.openFamily` |
| `Update.declareConstructor` | `Signature.declareConstructor` |
| `Update.closeFamily` | `Signature.closeFamily` |

Only the last two take more than one write.  A constructor is written to the family first, but
nothing is refused after that.  To close a family its state is taken out first, so it has to be
put back before the family is refused (`Update.run_sealFamily`).
-/

import Constructions.Proofs.Registry
import Constructions.Signature.Update

namespace Constructions

namespace Signature

variable {S : Signature} {F : Family}

theorem setFamily_setFamily (S : Signature) (F : Family) (state : FamilyState) :
    (S.setFamily { F with state := state }).setFamily F = S.setFamily F := by
  simp [setFamily]

theorem setFamily_self (h : S.family? F.id = some F) : S.setFamily F = S := by
  obtain ⟨hlt, _⟩ := Array.getElem?_eq_some_iff.1 h
  have hset : S.families.setIfInBounds F.id.index F = S.families := by
    refine Array.ext_getElem? fun i => ?_
    rw [Array.getElem?_setIfInBounds]
    split
    · next hi =>
      rw [← hi]
      exact h.symm
    · rfl
  simp only [setFamily, hset]

theorem family?_of_familyNamed {family : Name} (h : S.familyNamed family = .ok F) :
    S.family? F.id = some F := by
  obtain ⟨id, _, hF⟩ := familyNamed_eq_ok h
  rwa [family?_id hF]

end Signature

namespace Update

open Signature

variable {α β : Type} {S : Signature} {F : Family}

/-- The result of an answer and the signature that it leaves. -/
def settled (S : Signature) :
    Check (Signature × α) → Except (Stop KernelError) α × Signature
  | .ok (S', a) => (.ok a, S')
  | .error e => (.error e, S)

/-- The update writes the signature that `f` returns, and none if `f` refuses. -/
def Refines (u : Update α) (f : Signature → Check (Signature × α)) : Prop :=
  ∀ S, u.run S = settled S (f S)

theorem run_bind (u : Update α) (k : α → Update β) (S : Signature) :
    (u >>= k).run S = (ExceptT.bindCont k (u.run S).1).run (u.run S).2 := rfl

theorem run_get_bind (k : Signature → Update α) (S : Signature) :
    (get >>= k).run S = (k S).run S := rfl

theorem run_reading (f : Signature → Check α) (S : Signature) : (reading f).run S = (f S, S) := by
  rw [reading, run_get_bind]
  cases f S <;> rfl

/-- **Looking at a signature changes nothing.** -/
theorem run_reading_bind {f : Signature → Check α} {k : α → Update β}
    {g : α → Check (Signature × β)}
    (h : ∀ a, f S = .ok a → (k a).run S = settled S (g a)) :
    (reading f >>= k).run S = settled S (f S >>= g) := by
  rw [run_bind, run_reading]
  cases hf : f S with
  | ok a => exact h a hf
  | error e => rfl

theorem postulate_refines (n : Nat) (name : Name) (type : Term) :
    (postulate n name type).Refines (fun S => do .ok (← S.postulate n name type, ())) := by
  intro S
  simp only [Signature.postulate, bind_assoc]
  refine run_reading_bind fun _ _ => run_reading_bind fun A _ => ?_
  rfl

theorem define_refines (n : Nat) (name : Name) (type value : Term) :
    (define n name type value).Refines (fun S => do .ok (← S.define n name type value, ())) := by
  intro S
  simp only [Signature.define, bind_assoc]
  refine run_reading_bind fun _ _ => run_reading_bind fun A _ => ?_
  refine run_reading_bind fun _ _ => run_reading_bind fun a _ => ?_
  rfl

theorem openFamily_refines (n : Nat) (name : Name) (p : Nat) (type : Term) :
    (openFamily n name p type).Refines (·.openFamily n name p type) := by
  intro S
  refine run_reading_bind fun _ _ => run_reading_bind fun A _ => run_reading_bind fun i _ => ?_
  rfl

/-- **A constructor is written to a family that is open.** -/
theorem run_insertConstructor (hF : S.family? F.id = some F) (hopen : F.isFinalized = false)
    (name : Name) (k : Nat) (r : List Nat) (A : Value) :
    (insertConstructor name F.id k r A).run S =
      settled S (.ok (S.addConstructor name F k r A)) := by
  have hread : liftM (orDangling (S.family? F.id)) = (.ok F : Check Family) := by rw [hF]; rfl
  obtain ⟨id, name', p, i, type, state⟩ := F
  cases state with
  | finalized table => cases hopen
  | opened cs =>
    rw [insertConstructor, run_get_bind, run_bind, run_reading, hread]
    rfl

/-- **Closing a family** puts its state back when it is refused. -/
theorem run_sealFamily (hF : S.family? F.id = some F) :
    (sealFamily F.id).run S = settled S (
      if F.isFinalized then (SignatureError.familyFinalized F.name).throw
      else if F.constructors.isEmpty then (SignatureError.noConstructors F.name).throw
      else .ok (S.finalize F, ())) := by
  have hread : liftM (orDangling (S.family? F.id)) = (.ok F : Check Family) := by rw [hF]; rfl
  have hback (state : FamilyState) :
      (S.setFamily { F with state := state }).setFamily F = S := by
    rw [setFamily_setFamily, setFamily_self hF]
  rw [sealFamily, run_bind, run_reading, hread]
  obtain ⟨id, name, p, i, type, state⟩ := F
  cases state with
  | finalized table => exact congrArg (Prod.mk _) (hback (.opened []))
  | opened cs =>
    cases cs with
    | nil => exact congrArg (Prod.mk _) (hback (.opened []))
    | cons c cs =>
      exact congrArg (Prod.mk _) (setFamily_setFamily S
        ⟨id, name, p, i, type, .finalized (.build (c :: cs))⟩ (.opened []))

theorem declareConstructor_refines (n : Nat) (family name : Name) (type : Term) :
    (declareConstructor n family name type).Refines
      (·.declareConstructor n family name type) := by
  intro S
  refine run_reading_bind fun F hF => ?_
  cases hopen : F.isFinalized with
  | true => rfl
  | false =>
    refine run_reading_bind fun _ _ => run_reading_bind fun A _ => run_reading_bind fun x _ => ?_
    exact run_insertConstructor (family?_of_familyNamed hF) hopen name x.1 x.2 A

theorem closeFamily_refines (family : Name) :
    (closeFamily family).Refines (·.closeFamily family) := by
  intro S
  refine run_reading_bind fun F hF => ?_
  rw [run_bind, run_sealFamily (family?_of_familyNamed hF)]
  split
  · rfl
  · split <;> rfl

end Update

end Constructions
