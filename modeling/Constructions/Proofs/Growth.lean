/-
# Declarations keep what is declared

A declaration adds to the tables of a signature and changes nothing in them but the family
that it extends or closes, which was open before (`Signature.Step.le`).  What computes
without a violation in the smaller signature computes alike in the larger one
(`Mends.eq_of_safe`).

| table | after a declaration |
| --- | --- |
| constants | the same, and perhaps one more |
| constructors | the same, and perhaps one more |
| families | the finalized ones are the same |
-/

import Constructions.Proofs.Admission
import Constructions.Proofs.Stability

namespace Constructions

variable {Θ : Theory}

theorem Leaves.Le.binds {L L' : Leaves} (h : L.Le L') (hl : ∀ l, L'.level l) (n k : Nat) :
    (L.binds n k).Le L' := by
  induction k generalizing L n with
  | zero => exact h
  | succ k ih => exact ih (L := L.bind n) ⟨fun _ => hl _, h.stuck, h.name, h.univ⟩ (n + 1)

namespace Signature

/-- Everything that is declared stays declared; a family may change its state as long as it is
open. -/
structure Le (S S' : Signature) : Prop where
  global : ∀ {c g}, S.global? c = some g → S'.global? c = some g
  constructor : ∀ {c K}, S.constructor? c = some K → S'.constructor? c = some K
  family : ∀ {id F}, S.family? id = some F →
    ∃ state, S'.family? id = some { F with state := state } ∧ (F.isFinalized → state = F.state)

variable {S S' : Signature}

theorem Coherent.le_addGlobal (h : S.Coherent Θ) {name : Name} (hname : S.entry? name = none)
    (g : Global) : S.Le (S.addGlobal name g) where
  global {c g'} hg := by
    rw [global?_addGlobal, if_neg, hg]
    rintro rfl
    exact h.entry hg hname
  constructor hK := hK
  family {id F} hF := ⟨F.state, hF, fun _ => rfl⟩

/-- **A declaration keeps what is declared.** -/
theorem Step.le (h : S.Coherent Θ) (e : Step S S') : S.Le S' := by
  cases e with
  | postulate n name type e =>
    obtain ⟨A, hname, _, rfl⟩ := postulate_eq_ok e
    exact h.le_addGlobal hname _
  | define n name type value e =>
    obtain ⟨A, a, hname, _, _, _, rfl⟩ := define_eq_ok e
    exact h.le_addGlobal hname _
  | openFamily n name p type e =>
    obtain ⟨A, T, l, _, _, _, _, _, rfl⟩ := openFamily_eq_ok e
    refine ⟨fun hg => hg, fun hK => hK, fun {id F} hF => ⟨F.state, ?_, fun _ => rfl⟩⟩
    rw [family?_addFamily, if_neg, hF]
    rintro rfl
    cases (S.family?_size).symm.trans hF
  | declareConstructor n family name type e =>
    obtain ⟨id, F, A, P, E, T, r, hF, hc, rfl⟩ := declareConstructor_eq_ok e
    obtain rfl := family?_id hF
    refine ⟨fun hg => hg, fun {c K} hK => ?_, fun {id' G} hG => ?_⟩
    · rw [constructor?_addConstructor, if_neg, hK]
      rintro rfl
      cases (S.constructor?_size).symm.trans hK
    · rw [family?_addConstructor _ hF]
      by_cases hid : id' = F.id
      · obtain rfl := Option.some.inj (hF.symm.trans (hid ▸ hG))
        exact ⟨_, if_pos hid, fun hs => nomatch hc.opened.symm.trans hs⟩
      · exact ⟨G.state, (if_neg hid).trans hG, fun _ => rfl⟩
  | closeFamily family e =>
    obtain ⟨id, F, hF, hopen, _, rfl⟩ := closeFamily_eq_ok e
    obtain rfl := family?_id hF
    refine ⟨fun hg => hg, fun hK => hK, fun {id' G} hG => ?_⟩
    rw [family?_finalize hF]
    by_cases hid : id' = F.id
    · obtain rfl := Option.some.inj (hF.symm.trans (hid ▸ hG))
      exact ⟨_, if_pos hid, fun hs => nomatch hopen.symm.trans hs⟩
    · exact ⟨G.state, (if_neg hid).trans hG, fun _ => rfl⟩

/-! ### Computing in a larger signature -/

/-- Leaves whose constants are declared. -/
def names (S : Signature) : Leaves :=
  ⟨fun _ => True, fun _ => True, fun c => ∃ g, S.global? c = some g, fun _ => True⟩

theorem leaves_le_names (S : Signature) : S.leaves.Le S.names :=
  ⟨fun _ => trivial, fun _ => trivial, fun h => h, fun _ => trivial⟩

theorem valueLeaves_le_names (S : Signature) : S.valueLeaves.Le S.names :=
  ⟨fun _ => trivial, fun _ => trivial, fun h => h, fun _ => trivial⟩

/-- **The signatures before and after declarations agree** on what does not violate anything. -/
theorem Le.agrees (hle : S.Le S') (h : Θ.Models S) :
    S.Agrees (fun e => ¬ e.Resource) S.names S' where
  closed := fun c hc => (h.closed c hc).mono S.leaves_le_names
  unfold := by
    rintro c ⟨g, hg⟩
    rw [unfold, unfold, hle.global hg, hg]
  constructor c := by
    cases hK : S.constructor? c with
    | none => exact .inl ⟨_, rfl, by simp [Halt.Resource]⟩
    | some K =>
      rw [hle.constructor hK]
      exact .refl _
  family id := by
    cases hF : S.family? id with
    | none => exact .inl (.inl ⟨_, rfl, by simp [Halt.Resource]⟩)
    | some F =>
      obtain ⟨state, hF', hfin⟩ := hle.family hF
      refine .inr ⟨F, _, rfl, hF', ?_⟩
      cases hs : F.isFinalized with
      | true =>
        obtain rfl := hfin hs
        exact .inr rfl
      | false => exact .inl ⟨Family.dispatch?_eq_none hs, fun v => by simp [Halt.Resource]⟩

end Signature

/-- **A computation without faults is the same afterwards.** -/
theorem Mends.eq_of_safe {α : Type} {P : α → Prop} {r r' : Except Halt α}
    (h : Mends (fun e => ¬ e.Resource) r r') (hs : Post r P Halt.Resource) : r' = r := by
  obtain ⟨e, rfl, he⟩ | h := h
  · exact (he hs).elim
  · exact h

end Constructions
