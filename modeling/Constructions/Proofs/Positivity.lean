/-
# Which families use which

A family uses another one if a field of one of its constructors mentions it; its own
recursive fields do not count for the family itself.  Declaring a constructor looks at the
family of the constructor alone.  So no family uses itself, but two families that are open
at the same time may use each other, and in that way contain functions from themselves.

What keeps chains of uses from closing is a guard on declarations: the fields of a new
constructor mention no family that already uses the family of the constructor, directly or
through others (`Signature.Guarded`).

| signature | chains of uses |
| --- | --- |
| reached by declarations | no chain of length one closes |
| reached by guarded declarations | no chain closes, and conversely |
-/

import Constructions.Proofs.Fields

namespace Constructions

open Relation

/-- A field of a constructor mentions a family, read back.  For the family that the constructor
belongs to, its recursive fields do not count. -/
def Constructor.Mentions (S : Signature) (K : Constructor) (G : FamilyId) : Prop :=
  ∃ n P T i d t, K.opened S n = .ok (P, T) ∧ T.domains[i]? = some d ∧
    d.readBack S n (K.parameterCount + i) = .ok t ∧ t.mentions G = true ∧
    ¬ (G = K.family ∧ K.parameterCount + i ∈ K.recursiveFields)

namespace Signature

/-- A family uses another one. -/
def Uses (S : Signature) (F G : FamilyId) : Prop :=
  ∃ c K, S.constructor? c = some K ∧ K.family = F ∧ K.Mentions S G

/-- The constructor that a declaration adds, if it adds one, mentions no family that uses the
family of the constructor, directly or through others. -/
def Guarded (S S' : Signature) : Prop :=
  ∀ c K, S.constructor? c = none → S'.constructor? c = some K →
    ∀ G, K.Mentions S' G → ¬ ReflTransGen S.Uses G K.family

variable {Θ : Theory} {S S' : Signature}

/-! ### What a constructor mentions -/

/-- **Further declarations do not change what a constructor mentions.** -/
theorem mentions_stable (h : Θ.Models S) (hle : S.Le S') {c : ConstructorId} {K : Constructor}
    {C : ConstructorShape} {D : FamilyShape} (hV : C.Valid Θ D) (dK : C.Describes Θ c K)
    (hK : K.type.All S.leaves) (G : FamilyId) : K.Mentions S' G ↔ K.Mentions S G := by
  have hopened (n : Nat) := Constructor.opened_stable h hV dK hK hle n
  have hread {n i : Nat} {P T : Telescope} {d : Value} (ho : K.opened S n = .ok (P, T))
      (hd : T.domains[i]? = some d) : d.readBack S' n (K.parameterCount + i) =
        d.readBack S n (K.parameterCount + i) := by
    obtain ⟨hlen, _, ho⟩ := (Constructor.opened_post h hV dK hK n).of_ok ho
    rw [← hlen]
    exact ho.readBack_stable h hd hle n
  constructor
  · rintro ⟨n, P, T, i, d, t, ho, hd, ht, hm⟩
    rw [hopened] at ho
    exact ⟨n, P, T, i, d, t, ho, hd, (hread ho hd).symm.trans ht, hm⟩
  · rintro ⟨n, P, T, i, d, t, ho, hd, ht, hm⟩
    exact ⟨n, P, T, i, d, t, (hopened n).trans ho, hd, (hread ho hd).trans ht, hm⟩

/-- **A constructor that passes the checks does not mention its family.** -/
theorem ConstructorChecks.not_mentions {n : Nat} {F : Family} {name : Name} {type : Term}
    {A : Value} {P E T : Telescope} {r : List Nat}
    (hc : S.ConstructorChecks n F name type A P E T r) (c : ConstructorId) :
    ¬ Constructor.Mentions S ⟨c, name, F.id, F.parameterCount, T.length, r, A⟩ F.id := by
  rintro ⟨m, P', T', i, d, t, ho, hd, ht, hm, hr⟩
  obtain ⟨rfl, rfl⟩ := Constructor.opened_unique
    (Constructor.opened_eq_ok.2 ⟨hc.parameters, hc.fields⟩) ho
  obtain ⟨hi, _⟩ | ⟨_, t', ht', hm'⟩ := (recursivePositions_eq_ok hc.recursive).2 hd
  · exact hr ⟨rfl, hi⟩
  · obtain rfl := Value.readBack_unique ht ht'
    exact Bool.false_ne_true (hm'.symm.trans hm)

/-- **A declaration adds at most one constructor**, which has passed the checks. -/
theorem Step.new_constructor (h : S.Coherent Θ) (e : Step S S') {c : ConstructorId}
    {K : Constructor} (hn : S.constructor? c = none) (hK : S'.constructor? c = some K) :
    c = ⟨S.constructors.size⟩ ∧ ∃ n F name type A P E T r, S.family? F.id = some F ∧
      S.ConstructorChecks n F name type A P E T r ∧
      K = ⟨c, name, F.id, F.parameterCount, T.length, r, A⟩ := by
  have hsame (hs : S'.constructors = S.constructors) : False := by
    rw [constructor?, hs] at hK
    cases hn.symm.trans hK
  cases e with
  | postulate n name type e =>
    obtain ⟨A, _, _, rfl⟩ := postulate_eq_ok e
    exact (hsame rfl).elim
  | define n name type value e =>
    obtain ⟨A, a, _, _, _, _, rfl⟩ := define_eq_ok e
    exact (hsame rfl).elim
  | openFamily n name p type e =>
    obtain ⟨A, T, l, _, _, _, _, _, rfl⟩ := openFamily_eq_ok e
    exact (hsame rfl).elim
  | closeFamily family e =>
    obtain ⟨id, F, _, _, _, rfl⟩ := closeFamily_eq_ok e
    exact (hsame rfl).elim
  | declareConstructor n family name type e =>
    obtain ⟨id, F, A, P, E, T, r, hF, hc, rfl⟩ := declareConstructor_eq_ok e
    obtain ⟨D, _, dF⟩ := h.models.describes.family_of_eq_some hF
    obtain rfl := dF.id
    rw [constructor?_addConstructor] at hK
    split at hK
    · next hcn =>
      cases hK
      exact ⟨hcn, n, F, name, type, A, P, E, T, r, hF, hc, by rw [hcn]⟩
    · cases hn.symm.trans hK

/-! ### How uses grow -/

/-- **A declaration keeps the uses, and adds those of the constructor that it adds.** -/
theorem Step.uses_iff (h : S.Coherent Θ) (e : Step S S') {F G : FamilyId} :
    S'.Uses F G ↔ S.Uses F G ∨ ∃ c K, S.constructor? c = none ∧ S'.constructor? c = some K ∧
      K.family = F ∧ K.Mentions S' G := by
  have hle := e.le h
  have hstable {c : ConstructorId} {K : Constructor} (hK : S.constructor? c = some K) :
      K.Mentions S' G ↔ K.Mentions S G := by
    obtain ⟨C, hC, dK⟩ := h.models.describes.constructor_of_eq_some hK
    obtain ⟨D, _, hV⟩ := h.models.sound.constructor hC
    exact mentions_stable h.models hle hV dK (h.models.grounded.constructor hK) G
  constructor
  · rintro ⟨c, K, hK, hF, hm⟩
    cases hc : S.constructor? c with
    | none => exact .inr ⟨c, K, hc, hK, hF, hm⟩
    | some K' =>
      obtain rfl := Option.some.inj ((hle.constructor hc).symm.trans hK)
      exact .inl ⟨c, K', hc, hF, (hstable hc).1 hm⟩
  · rintro (⟨c, K, hK, hF, hm⟩ | ⟨c, K, _, hK, hF, hm⟩)
    · exact ⟨c, K, hle.constructor hK, hF, (hstable hK).2 hm⟩
    · exact ⟨c, K, hK, hF, hm⟩

/-- **No family uses itself directly.** -/
theorem Reachable.not_uses_self (h : S.Reachable) (F : FamilyId) : ¬ S.Uses F F := by
  induction h with
  | refl =>
    rintro ⟨c, K, hK, _⟩
    cases hK
  | @tail S S' hS e ih =>
    obtain ⟨Θ, hΘ⟩ := Reachable.coherent hS
    rw [e.uses_iff hΘ]
    rintro (hu | ⟨c, K, hn, hK, hF, hm⟩)
    · exact ih hu
    obtain ⟨_, n, G, name, type, A, P, E, T, r, hG, hc, rfl⟩ := e.new_constructor hΘ hn hK
    obtain rfl : G.id = F := hF
    -- What the new constructor mentions was mentioned when it was checked.
    obtain ⟨D, hD, dG⟩ := hΘ.models.describes.family_of_eq_some hG
    have hGall := hΘ.models.grounded.family hG
    obtain ⟨C, hV, dK⟩ := hc.exists_shape hΘ.models hD dG hGall c
    have hall := (admitType_eq_ok hΘ.models hc.type).1
    exact hc.not_mentions c ((mentions_stable hΘ.models (e.le hΘ) hV dK hall G.id).1 hm)

/-! ### Chains of uses -/

/-- **Edges from one vertex close no chain** if what they lead to does not lead back to it. -/
theorem not_transGen_self {α : Type} {r r' : α → α → Prop} {d : α} {M : α → Prop}
    (hr : ∀ {a b}, r' a b → r a b ∨ a = d ∧ M b) (hM : ∀ {b}, M b → ¬ ReflTransGen r b d)
    (h : ∀ a, ¬ TransGen r a a) (a : α) : ¬ TransGen r' a a := by
  -- A chain with a new edge reaches the vertex by old edges, and goes on from it by old edges.
  have hchain {a b : α} (hab : TransGen r' a b) :
      TransGen r a b ∨ ReflTransGen r a d ∧ ∃ e, M e ∧ ReflTransGen r e b := by
    induction hab with
    | single hab =>
      obtain hab | ⟨rfl, hb⟩ := hr hab
      · exact .inl (.single hab)
      · exact .inr ⟨.refl, _, hb, .refl⟩
    | tail _ hbc ih =>
      obtain hbc | ⟨rfl, hc⟩ := hr hbc
      · obtain hab | ⟨had, e, he, heb⟩ := ih
        · exact .inl (hab.tail hbc)
        · exact .inr ⟨had, e, he, heb.tail hbc⟩
      · obtain hab | ⟨_, e, he, heb⟩ := ih
        · exact .inr ⟨hab.to_reflTransGen, _, hc, .refl⟩
        · exact (hM he heb).elim
  intro haa
  obtain haa | ⟨had, e, he, hea⟩ := hchain haa
  · exact h a haa
  · exact hM he (hea.trans had)

/-- **A guarded declaration closes no chain of uses.** -/
theorem Step.acyclic (h : S.Coherent Θ) (e : Step S S') (hg : S.Guarded S')
    (hac : ∀ F, ¬ TransGen S.Uses F F) (F : FamilyId) : ¬ TransGen S'.Uses F F := by
  by_cases hnew : ∃ c K, S.constructor? c = none ∧ S'.constructor? c = some K
  · obtain ⟨c, K, hn, hK⟩ := hnew
    refine not_transGen_self (d := K.family) (M := K.Mentions S') (fun {F G} hu => ?_)
      (fun {G} hm => hg c K hn hK G hm) hac F
    obtain hu | ⟨c', K', hn', hK', hF, hm⟩ := (e.uses_iff h).1 hu
    · exact .inl hu
    · have hc : c' = c := (e.new_constructor h hn' hK').1.trans (e.new_constructor h hn hK).1.symm
      obtain rfl := Option.some.inj (hK.symm.trans (hc ▸ hK'))
      exact .inr ⟨hF.symm, hm⟩
  · refine fun hc => hac F (hc.lift id fun F G hu => ?_)
    obtain hu | ⟨c, K, hn, hK, _⟩ := (e.uses_iff h).1 hu
    · exact hu
    · exact (hnew ⟨c, K, hn, hK⟩).elim

/-- **A declaration after which no chain of uses closes is guarded.** -/
theorem Step.guarded (h : S.Coherent Θ) (e : Step S S')
    (hac : ∀ F, ¬ TransGen S'.Uses F F) : S.Guarded S' := by
  intro c K hn hK G hm hback
  refine hac K.family (.head' ((e.uses_iff h).2 (.inr ⟨c, K, hn, hK, rfl, hm⟩)) ?_)
  exact hback.lift id fun F G hu => (e.uses_iff h).2 (.inl hu)

/-- **Strict positivity.**  No family uses itself.  No family uses itself through a chain of uses
exactly if the signature is reached by guarded declarations. -/
theorem Reachable.acyclic_iff_guarded (h : S.Reachable) :
    (∀ F, ¬ S.Uses F F) ∧ ((∀ F, ¬ TransGen S.Uses F F) ↔
      ReflTransGen (fun S S' => Step S S' ∧ S.Guarded S') .empty S) := by
  refine ⟨h.not_uses_self, fun hac => ?_, fun hg => ?_⟩
  · induction h with
    | refl => exact .refl
    | @tail S S' hS e ih =>
      obtain ⟨Θ, hΘ⟩ := Reachable.coherent hS
      refine .tail (ih fun F hF => hac F ?_) ⟨e, e.guarded hΘ hac⟩
      exact hF.lift id fun F G hu => (e.uses_iff hΘ).2 (.inl hu)
  · clear h
    induction hg with
    | refl =>
      intro F hF
      obtain ⟨G, ⟨c, K, hK, _⟩, _⟩ := TransGen.head'_iff.1 hF
      cases hK
    | @tail S S' hS e ih =>
      have hreach : S.Reachable := hS.lift id fun _ _ h => h.1
      obtain ⟨Θ, hΘ⟩ := hreach.coherent
      exact e.1.acyclic hΘ e.2 ih

/-! ### Two families that use each other -/

/-- Two open families, `D` with `d : (E -> E) -> D` and `E` with `e : D -> E`. -/
def entangled : Signature where
  entries := [("e", .constructor ⟨1⟩), ("d", .constructor ⟨0⟩), ("E", .family ⟨1⟩),
    ("D", .family ⟨0⟩)]
  families := #[⟨⟨0⟩, "D", 0, 0, .type 0, .opened [⟨0⟩]⟩,
    ⟨⟨1⟩, "E", 0, 0, .type 0, .opened [⟨1⟩]⟩]
  constructors := #[
    ⟨⟨0⟩, "d", ⟨0⟩, 0, 1, [],
      .pi (.pi (.former ⟨1⟩ []) ⟨[], none, .former ⟨1⟩ []⟩) ⟨[], none, .former ⟨0⟩ []⟩⟩,
    ⟨⟨1⟩, "e", ⟨1⟩, 0, 1, [], .pi (.former ⟨0⟩ []) ⟨[], none, .former ⟨1⟩ []⟩⟩]

theorem reachable_entangled : entangled.Reachable :=
  .tail (.tail (.tail (.tail .refl (.openFamily 5 "D" 0 (.type 0) rfl))
    (.openFamily 5 "E" 0 (.type 0) rfl))
    (.declareConstructor 9 "D" "d"
      (.pi none (.pi none (.former ⟨1⟩ []) (.former ⟨1⟩ [])) (.former ⟨0⟩ [])) rfl))
    (.declareConstructor 9 "E" "e" (.pi none (.former ⟨0⟩ []) (.former ⟨1⟩ [])) rfl)

theorem uses_entangled : entangled.Uses ⟨0⟩ ⟨1⟩ ∧ entangled.Uses ⟨1⟩ ⟨0⟩ :=
  ⟨⟨⟨0⟩, _, rfl, rfl, 5, _, _, 0, _, _, rfl, rfl, rfl, rfl, by decide⟩,
    ⟨1⟩, _, rfl, rfl, 5, _, _, 0, _, _, rfl, rfl, rfl, rfl, by decide⟩

/-- **Two families may use each other.** -/
theorem uses_each_other : entangled.Reachable ∧ TransGen entangled.Uses ⟨0⟩ ⟨0⟩ :=
  ⟨reachable_entangled, .tail (.single uses_entangled.1) uses_entangled.2⟩

/-- No guarded declarations reach the two families. -/
theorem entangled_not_guarded : entangled.Reachable ∧ (∀ F, ¬ entangled.Uses F F) ∧
    ¬ ReflTransGen (fun S S' => Step S S' ∧ S.Guarded S') .empty entangled := by
  obtain ⟨hself, hiff⟩ := reachable_entangled.acyclic_iff_guarded
  refine ⟨reachable_entangled, hself, fun hg => ?_⟩
  exact hiff.2 hg ⟨0⟩ (.tail (.single uses_entangled.1) uses_entangled.2)

end Signature

end Constructions
