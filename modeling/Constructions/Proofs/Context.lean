/-
# Typed contexts

A context of the kernel is read in a context of plain types: a variable stands for itself,
and a local definition for the term that defines it.  Such a context is `Typed` if every
entry has its type and computes to its value.

| kernel | plain |
| --- | --- |
| `Γ.bind label d` | one more variable of type `d` |
| `Γ.define label d v` | the same variables, one more term |

In a typed context, terms that are typed can be computed and values can be read back
(`Context.Typed.eval_post`, `Context.Typed.quote_safe`).
-/

import Constructions.Proofs.Motive
import Constructions.Typing.Context

namespace Constructions

open Plain

/-! ### What signatures store -/

/-- A universe that is an element of a universe. -/
def Inhabits (l : UInt64) : Prop := nextLevel? l ≠ none

namespace Signature

/-- The leaves of what a signature stores: no variables, declared constants, and universes
that are elements of a universe. -/
def leaves (S : Signature) : Leaves where
  level _ := False
  stuck c := ∃ g, S.global? c = some g ∧ g.definition = none
  name c := ∃ g, S.global? c = some g
  univ := Inhabits

/-- The leaves of closed values: those of what is stored, and all universes. -/
def valueLeaves (S : Signature) : Leaves := { S.leaves with univ := fun _ => True }

theorem leaves_le (S : Signature) : S.leaves.Le S.valueLeaves :=
  ⟨fun h => h, fun h => h, fun h => h, fun _ => trivial⟩

/-- A signature stores nothing that is not declared in it. -/
structure Grounded (S : Signature) : Prop where
  type : ∀ {c g}, S.global? c = some g → g.type.All S.leaves
  definition : ∀ {c g v}, S.global? c = some g → g.definition = some v → v.All S.leaves
  family : ∀ {id F}, S.family? id = some F → F.type.All S.leaves
  constructor : ∀ {id K}, S.constructor? id = some K → K.type.All S.leaves

end Signature

/-- A theory is sound and describes a signature that only stores what is declared in it. -/
structure Theory.Models (Θ : Theory) (S : Signature) : Prop where
  sound : Θ.Sound
  describes : Θ.Describes S
  grounded : S.Grounded

variable {Θ : Theory}

theorem Theory.Models.closed {S : Signature} (h : Θ.Models S) : S.leaves.Closed S := by
  rintro c ⟨g, hg⟩
  rw [Signature.unfold, hg, Option.bind_some]
  split
  · next v hv => exact h.grounded.definition hg hv
  · next hv => exact ⟨g, hg, hv⟩

theorem Theory.Models.stuck {S : Signature} (h : Θ.Models S) {c : Name} (hc : S.leaves.stuck c) :
    Θ.definition c = none := by
  obtain ⟨g, hg, hd⟩ := hc
  rw [h.describes.definition c (fun _ => .atom .hole), hg, Option.bind_some, hd]
  rfl

/-! ### Terms in contexts -/

/-- A term in a context whose variables stand for plain terms. -/
def Term.under (ε : List Plain) (t : Term) : Plain := t.plain.subst (ofList ε)

theorem Term.under_bind (ε : List Plain) (t : Term) :
    t.under (.var 0 :: ε.map shift) = t.plain.subst (liftSub (ofList ε)) := by
  rw [under, liftSub_ofList]

theorem Term.inst_under (ε : List Plain) (a t : Term) :
    (t.plain.subst (liftSub (ofList ε))).inst (a.under ε) = t.under (a.under ε :: ε) :=
  inst_ofList _ _ _

theorem Term.under_former (ε : List Plain) (F : FamilyId) (as : List Term) :
    (Term.former F as).under ε = spine (.atom (.former F)) (as.map (Term.under ε)) := by
  rw [under, Term.plain, subst_spine, Term.plains_subst]
  rfl

theorem Term.under_con (ε : List Plain) (c : ConstructorId) (as : List Term) :
    (Term.con c as).under ε = spine (.atom (.con c)) (as.map (Term.under ε)) := by
  rw [under, Term.plain, subst_spine, Term.plains_subst]
  rfl

theorem Term.under_elim (ε : List Plain) (t M : Term) (ms : List Term) :
    (Term.elim t M ms).under ε =
      Plain.elim (M.under ε) (ms.map (Term.under ε)) (t.under ε) := by
  rw [under, Term.plain, Plain.elim, subst, subst_elimHead, Term.plains_subst]
  rfl

/-- The level map of values without variables. -/
def noLevels : Nat → Plain := fun _ => .atom .hole

/-- **A typed closed term computes to a value of its type.** -/
theorem Theory.Models.eval_closed {S : Signature} (h : Θ.Models S) {n : Nat} {t : Term} {v : Value}
    {T : Plain} (ht : t.All S.leaves) (htT : HasType Θ [] (t.under []) T)
    (e : t.eval S n [] = .ok v) : v.All S.leaves ∧ HasType Θ [] (v.plain noLevels) T :=
  ⟨Term.eval_all h.closed .nil ht e, htT.reds h.sound (Term.eval_reds h.describes e noLevels)⟩

/-- A context is read in the plain context `Δ`: its variables stand for the terms `ε`, its levels
for `ℓ`, and the leaves of its values are in `L`. -/
structure Context.Typed (Θ : Theory) (Γ : Context) (Δ ε : List Plain) (ℓ : Nat → Plain)
    (L : Leaves) : Prop where
  models : Θ.Models Γ.signature
  scope : Scope Θ Γ.signature L Γ.level ℓ
  leaves : Γ.signature.leaves.Le L
  univ : ∀ l, L.univ l
  inverse : Inverse L Γ.level ℓ (ofList (Value.plains ℓ Γ.env))
  entries : List.Forall₂ (fun b a => b.type.IsType Θ Δ L ℓ ∧ b.value.All L ∧
    HasType Θ Δ a (b.type.plain ℓ) ∧ Reds Θ a (b.value.plain ℓ)) Γ.bindings ε

namespace Context.Typed

variable {Γ : Context} {Δ ε : List Plain} {ℓ : Nat → Plain} {L : Leaves}

/-- **The context without variables is typed.** -/
theorem empty {S : Signature} (h : Θ.Models S) :
    (Context.empty S).Typed Θ [] [] noLevels S.valueLeaves where
  models := h
  leaves := S.leaves_le
  univ _ := trivial
  inverse := fun _ hl => hl.elim
  entries := .nil
  scope :=
    { closed := fun c hc => (h.closed c hc).mono S.leaves_le
      below := fun _ hl => hl.elim
      levelMap := fun _ => .inl rfl
      var := fun hl => hl.elim
      injective := fun hl => hl.elim
      stuck := h.stuck
      named := fun _ ⟨g, hg, _⟩ => ⟨g, hg⟩ }

variable (h : Γ.Typed Θ Δ ε ℓ L)

include h

theorem alls_env : Value.Alls L Γ.env := by
  refine Value.alls_iff.2 fun v hv => ?_
  obtain ⟨b, hb, rfl⟩ := List.mem_map.1 hv
  have hentries := h.entries.flip
  exact forall_mem_of_forall₂ (p := fun b => b.value.All L)
    (hentries.imp fun _ _ h => h.2.1) b hb

theorem env_reds : List.Forall₂ (Reds Θ) ε (Value.plains ℓ Γ.env) := by
  rw [Value.plains_eq_map, Context.env, List.map_map, List.forall₂_map_right_iff]
  exact h.entries.flip.imp fun _ _ h => h.2.2.2

/-- A term reduces to what it is in the values of its context. -/
theorem under_reds (t : Term) : Reds Θ (t.under ε) (t.plainIn ℓ Γ.env) :=
  Reds.subst_right t.plain (Reds.ofList h.env_reds)

theorem not_hasType_of_none {i : Nat} (hi : Γ.bindings[i]? = none) {T : Plain} :
    ¬ HasType Θ Δ (ofList ε i) T := by
  intro hT
  rw [List.getElem?_eq_none_iff, h.entries.length_eq] at hi
  rw [ofList, List.getD_eq_default _ _ hi] at hT
  obtain ⟨_, hA, _⟩ := hT.declared_inv (by simp)
  cases hA

theorem not_partial (t : Term) : ¬ (t.under ε).Partial := by
  refine Term.not_partial (fun i => ?_) t
  cases hi : Γ.bindings[i]? with
  | none =>
    rw [List.getElem?_eq_none_iff, h.entries.length_eq] at hi
    rw [ofList, List.getD_eq_default _ _ hi]
    exact not_partial_spine (a := .hole) (by simp) []
  | some b =>
    obtain ⟨a, ha, _, _, hat, _⟩ := forall₂_getElem? h.entries hi
    rw [ofList_eq ha]
    exact hat.not_partial

/-- **One more variable.** -/
theorem bind {d : Value} (hd : d.IsType Θ Δ L ℓ) (label : Label) :
    (Γ.bind label d).Typed Θ (d.plain ℓ :: Δ) (.var 0 :: ε.map shift) (extend ℓ Γ.level)
      (L.bind Γ.level) where
  models := h.models
  scope := h.scope.bind
  leaves := ⟨fun hl => .inl (h.leaves.level hl), h.leaves.stuck, h.leaves.name, h.leaves.univ⟩
  univ := h.univ
  inverse := by
    have hinv := h.inverse.bind h.scope.below
    rw [liftSub_ofList, ← Value.plains_extend h.scope.below h.alls_env,
      ← extend_self ℓ Γ.level] at hinv
    exact hinv
  entries := by
    have hL := h.scope.below
    refine .cons ⟨hd.bind hL _, .inr rfl, ?_, ?_⟩ ?_
    · rw [Value.plain_extend hL hd.all]
      exact .var (.zero _ _)
    · rw [show (Value.var label Γ.level).plain (extend ℓ Γ.level) = .var 0 from extend_self ℓ _]
    · rw [List.forall₂_map_right_iff]
      refine h.entries.imp fun b a ⟨ht, hv, hat, hr⟩ =>
        ⟨ht.bind hL _, hv.mono (L.le_bind _), ?_, ?_⟩
      · rw [Value.plain_extend hL ht.all]
        exact hat.shift _
      · rw [Value.plain_extend hL hv]
        exact Reds.rename hr _

/-- **One more local definition.** -/
theorem define {d v : Value} {a : Plain} (hd : d.IsType Θ Δ L ℓ) (hv : v.All L)
    (ha : HasType Θ Δ a (d.plain ℓ)) (hav : Reds Θ a (v.plain ℓ)) (label : Label) :
    (Γ.define label d v).Typed Θ Δ (a :: ε) ℓ L where
  models := h.models
  scope := { h.scope with below := fun l hl => Nat.lt_succ_of_lt (h.scope.below l hl) }
  leaves := h.leaves
  univ := h.univ
  inverse := by
    intro l hl
    have hlt := h.scope.below l hl
    rw [level_define, show Γ.level + 1 - (l + 1) = Γ.level - (l + 1) + 1 by omega, ← h.inverse l hl]
    rfl
  entries := .cons ⟨hd, hv, ha, hav⟩ h.entries

/-- **A declared constant has the type that it was declared with**, and likewise a former and a
constructor. -/
theorem const_typed {c : Name} {g : Global} (hg : Γ.signature.global? c = some g) :
    g.type.IsType Θ Δ L ℓ ∧ HasType Θ Δ (.atom (.const c)) (g.type.plain ℓ) := by
  have hc := h.models.describes.constant c ℓ
  rw [hg] at hc
  obtain ⟨m, hm⟩ := h.models.sound.constant hc
  exact ⟨⟨(h.models.grounded.type hg).mono h.leaves, m, hm.weaken Δ⟩, .atom hc⟩

theorem former_typed {id : FamilyId} {F : Family} (hF : Γ.signature.family? id = some F) :
    F.type.IsType Θ Δ L ℓ ∧ HasType Θ Δ (.atom (.former id)) (F.type.plain ℓ) := by
  obtain ⟨D, hD, dF⟩ := h.models.describes.family_of_eq_some hF
  obtain ⟨m, hm⟩ := dF.valid ℓ
  refine ⟨⟨(h.models.grounded.family hF).mono h.leaves, m, hm.weaken Δ⟩, ?_⟩
  exact .conv (.atom (congrArg (Option.map FamilyShape.type) hD)) (dF.type ℓ).symm

theorem con_typed {id : ConstructorId} {K : Constructor}
    (hK : Γ.signature.constructor? id = some K) :
    K.type.IsType Θ Δ L ℓ ∧ HasType Θ Δ (.atom (.con id)) (K.type.plain ℓ) := by
  obtain ⟨C, hC, dK⟩ := h.models.describes.constructor_of_eq_some hK
  obtain ⟨m, hm⟩ := dK.valid ℓ
  refine ⟨⟨(h.models.grounded.constructor hK).mono h.leaves, m, hm.weaken Δ⟩, ?_⟩
  exact .conv (.atom (congrArg (Option.map ConstructorShape.type) hC)) (dK.type ℓ).symm

/-- **A typed term is computed**, whatever universes it mentions. -/
theorem eval_all_post {t : Term} {T : Plain} (ht : t.All L) (htT : HasType Θ Δ (t.under ε) T)
    (n : Nat) :
    Post (Γ.eval n t) (fun v => v.All L ∧ Reds Θ (t.under ε) (v.plain ℓ)) Halt.Resource := by
  have hin := htT.reds h.models.sound (h.under_reds t)
  refine .intro (fun v e => ?_) fun _ e => Post.of_error
    (Term.eval_safe h.models.sound h.models.describes h.scope.levelMap hin) e
  exact ⟨Term.eval_all h.scope.closed h.alls_env ht e,
    (h.under_reds t).trans (Term.eval_reds h.models.describes e ℓ)⟩

/-- **A typed term is computed.** -/
theorem eval_post {t : Term} {T : Plain} (ht : t.All Γ.signature.leaves)
    (htT : HasType Θ Δ (t.under ε) T) (n : Nat) :
    Post (Γ.eval n t) (fun v => v.All L ∧ Reds Θ (t.under ε) (v.plain ℓ)) Halt.Resource :=
  h.eval_all_post (ht.mono (fun _ => h.leaves.name) fun _ => h.leaves.univ) htT n

/-- **A typed value is read back.** -/
theorem quote_safe {v : Value} {T : Plain} (hv : v.All L) (hvT : HasType Θ Δ (v.plain ℓ) T)
    (n : Nat) : Safe (Γ.quote n v) :=
  Value.readBack_safe h.models.sound h.models.describes h.scope.closed h.scope.below
    h.scope.levelMap hv hvT

/-- **Types are compared.** -/
theorem convert_decides {v w : Value} (hv : v.IsType Θ Δ L ℓ) (hw : w.IsType Θ Δ L ℓ) (n : Nat) :
    Decides (Γ.convert n v w) (Θ.Equal (v.plain ℓ) (w.plain ℓ)) := by
  obtain ⟨_, hvt⟩ := hv.typed
  obtain ⟨_, hwt⟩ := hw.typed
  exact Value.convert_decides h.models.sound h.models.describes h.scope hv.all hw.all hvt hwt
    (.type _ _)

end Context.Typed

end Constructions
