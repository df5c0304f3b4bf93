/-
# Checking agrees with inference

Checking has ways of its own through functions and local definitions, where it never builds
the type that inference would find.  The two agree all the same: in a context whose entries
the kernel accepted one after the other, a term is accepted at a type exactly if its
inferred type is convertible with it (`Context.Built.check_iff`).  Both are compared with the
typing rules, in which a term has one type up to conversion.

| type in scope | where it comes from |
| --- | --- |
| `Context.TypeValue.computed` | a term that is accepted as a type |
| `Context.TypeValue.inferred` | inference |
| `Context.TypeValue.domain`, `codomain`, `opened` | a function type in scope |
| `Context.TypeValue.outer` | a smaller context |
-/

import Constructions.Proofs.Safety

namespace Constructions

open Plain

namespace Context

/-- Types in the scope of a context, as the kernel comes by them. -/
inductive TypeValue : Context → Value → Prop where
  | computed {Γ : Context} {n m : Nat} {A : Term} {l : UInt64} {d : Value} :
      checkType n Γ A = .ok l → Γ.eval m A = .ok d → TypeValue Γ d
  | inferred {Γ : Context} {n : Nat} {t : Term} {d : Value} :
      infer n Γ t = .ok d → TypeValue Γ d
  | domain {Γ : Context} {d : Value} {c : Closure} : TypeValue Γ (.pi d c) → TypeValue Γ d
  | codomain {Γ : Context} {n m k : Nat} {a : Term} {d v w : Value} {c : Closure} :
      TypeValue Γ (.pi d c) → check n Γ a d = .ok () → Γ.eval m a = .ok v →
      c.instantiate Γ.signature k v = .ok w → TypeValue Γ w
  | opened {Γ : Context} {n : Nat} {d w : Value} {c : Closure} (label : Label) :
      TypeValue Γ (.pi d c) → c.enter Γ.signature n Γ.level = .ok w →
      TypeValue (Γ.bind label d) w
  | outer {Γ : Context} {d : Value} (label : Label) (type value : Value) :
      TypeValue Γ d → TypeValue (Γ.define label type value) d

/-- Contexts over a signature whose entries were accepted one after the other. -/
inductive Built (S : Signature) : Context → Prop where
  | empty : Built S (.empty S)
  | bind {Γ : Context} {d : Value} (label : Label) :
      Built S Γ → Γ.TypeValue d → Built S (Γ.bind label d)
  | define {Γ : Context} {n m : Nat} {a : Term} {d v : Value} (label : Label) :
      Built S Γ → Γ.TypeValue d → check n Γ a d = .ok () → Γ.eval m a = .ok v →
      Built S (Γ.define label d v)

/-! ### Readings -/

/-- How a context is read, entry by entry: a variable is one more variable of the plain context,
and a local definition is one more term in it. -/
inductive Reads (Θ : Theory) (S : Signature) :
    Context → List Plain → List Plain → (Nat → Plain) → Leaves → Prop where
  | empty : Reads Θ S (.empty S) [] [] noLevels S.valueLeaves
  | bind {Γ : Context} {Δ ε : List Plain} {ℓ : Nat → Plain} {L : Leaves} {d : Value}
      (label : Label) : Reads Θ S Γ Δ ε ℓ L → d.IsType Θ Δ L ℓ →
      Reads Θ S (Γ.bind label d) (d.plain ℓ :: Δ) (.var 0 :: ε.map shift) (extend ℓ Γ.level)
        (L.bind Γ.level)
  | define {Γ : Context} {Δ ε : List Plain} {ℓ : Nat → Plain} {L : Leaves} {d v : Value}
      {a : Plain} (label : Label) : Reads Θ S Γ Δ ε ℓ L → d.IsType Θ Δ L ℓ → v.All L →
      HasType Θ Δ a (d.plain ℓ) → Reds Θ a (v.plain ℓ) →
      Reads Θ S (Γ.define label d v) Δ (a :: ε) ℓ L

variable {Θ : Theory} {S : Signature} {Γ : Context} {Δ ε : List Plain} {ℓ : Nat → Plain}
  {L : Leaves}

/-- **A context that is read is typed.** -/
theorem Reads.typed (hΘ : Θ.Models S) (h : Reads Θ S Γ Δ ε ℓ L) : Γ.Typed Θ Δ ε ℓ L := by
  induction h with
  | empty => exact .empty hΘ
  | bind label _ hd ih => exact ih.bind hd label
  | define label _ hd hv ha hr ih => exact ih.define hd hv ha hr label

theorem define_inj {Γ' : Context} {label label' : Label} {d d' v v' : Value}
    (h : Γ.define label d v = Γ'.define label' d' v') : Γ = Γ' ∧ d = d' ∧ v = v' := by
  obtain ⟨S, bs⟩ := Γ
  obtain ⟨S', bs'⟩ := Γ'
  cases h
  exact ⟨rfl, rfl, rfl⟩

/-- A type of the smaller context is one of the larger context. -/
theorem Reads.outer (hΘ : Θ.Models S) {label : Label} {type value d : Value}
    (h : Reads Θ S (Γ.define label type value) Δ ε ℓ L)
    (hd : ∀ {Δ ε ℓ L}, Reads Θ S Γ Δ ε ℓ L → d.IsType Θ Δ L ℓ) : d.IsType Θ Δ L ℓ := by
  generalize hΓ' : Γ.define label type value = Γ' at h
  cases h with
  | empty => cases hΓ'
  | @bind Γ₀ _ _ _ _ _ _ h₀ _ =>
    obtain ⟨rfl, _⟩ := define_inj hΓ'
    exact (hd h₀).bind (h₀.typed hΘ).scope.below _
  | @define Γ₀ _ _ _ _ _ _ _ _ h₀ _ _ _ _ =>
    obtain ⟨rfl, _⟩ := define_inj hΓ'
    exact hd h₀

/-- A variable that stands for itself is read as a variable. -/
theorem Reads.opened (hΘ : Θ.Models S) {label : Label} {d w : Value}
    (h : Reads Θ S (Γ.bind label d) Δ ε ℓ L)
    (hw : ∀ {Δ ε ℓ L}, Reads Θ S Γ Δ ε ℓ L →
      w.IsType Θ (d.plain ℓ :: Δ) (L.bind Γ.level) (extend ℓ Γ.level)) : w.IsType Θ Δ L ℓ := by
  generalize hΓ' : Γ.bind label d = Γ' at h
  cases h with
  | empty => cases hΓ'
  | @bind Γ₀ _ _ _ _ _ _ h₀ _ =>
    obtain ⟨rfl, rfl, _⟩ := define_inj hΓ'
    exact hw h₀
  | @define Γ₀ _ _ _ _ _ _ _ _ h₀ _ hv _ _ =>
    -- A local definition does not stand for the level that it is about to occupy.
    obtain ⟨rfl, _, rfl⟩ := define_inj hΓ'
    exact (Nat.lt_irrefl _ ((h₀.typed hΘ).scope.below _ hv)).elim

/-- **What the kernel comes by as a type is a type.** -/
theorem TypeValue.isType (hΘ : Θ.Models S) {d : Value} (hd : Γ.TypeValue d) :
    ∀ {Δ ε ℓ L}, Reads Θ S Γ Δ ε ℓ L → d.IsType Θ Δ L ℓ := by
  induction hd with
  | @computed Γ n m A l d hA he =>
    intro Δ ε ℓ L h
    obtain ⟨hAa, hAt⟩ := (checkType_post (h.typed hΘ) n A).of_ok hA
    obtain ⟨hda, hr⟩ := ((h.typed hΘ).eval_post hAa hAt m).of_ok he
    exact ⟨hda, _, hAt.reds hΘ.sound hr⟩
  | @inferred Γ n t d ht =>
    intro Δ ε ℓ L h
    exact ((infer_post (h.typed hΘ) n t).of_ok ht).type
  | domain _ ih => exact fun h => (ih h).domain
  | @codomain Γ n m k a d v w c _ ha hv hw ih =>
    intro Δ ε ℓ L h
    have hΓ := h.typed hΘ
    obtain ⟨haa, hat⟩ := (check_post hΓ n a (ih h).domain).of_ok ha
    obtain ⟨hva, hr⟩ := (hΓ.eval_post haa hat m).of_ok hv
    exact (((ih h).instantiate hΓ.models.sound hΓ.models.describes hΓ.scope hva
      (hat.reds hΓ.models.sound hr) k).of_ok hw).1
  | @opened Γ n d w c label _ hw ih =>
    intro Δ ε ℓ L h
    refine h.opened hΘ fun h₀ => ?_
    have hΓ := h₀.typed hΘ
    exact (((ih h₀).enter hΓ.models.sound hΓ.models.describes hΓ.scope n).of_ok hw).1
  | outer label type value _ ih => exact fun h => h.outer hΘ ih

/-- **A context that was built can be read.** -/
theorem Built.reads (hΘ : Θ.Models S) (h : Built S Γ) : ∃ Δ ε ℓ L, Reads Θ S Γ Δ ε ℓ L := by
  induction h with
  | empty => exact ⟨_, _, _, _, .empty⟩
  | bind label _ hd ih =>
    obtain ⟨Δ, ε, ℓ, L, h⟩ := ih
    exact ⟨_, _, _, _, h.bind label (hd.isType hΘ h)⟩
  | @define Γ n m a d v label _ hd ha hv ih =>
    obtain ⟨Δ, ε, ℓ, L, h⟩ := ih
    have hdt := hd.isType hΘ h
    obtain ⟨haa, hat⟩ := (check_post (h.typed hΘ) n a hdt).of_ok ha
    obtain ⟨hva, hr⟩ := ((h.typed hΘ).eval_post haa hat m).of_ok hv
    exact ⟨_, _, _, _, h.define label hdt hva hat hr⟩

/-! ### Agreement -/

/-- A procedure comes to an end: with a result, or with an error of its own. -/
def Returns {α : Type} (r : Check α) : Prop := ∀ e, r ≠ .error (.halt e)

/-- A procedure that returns and has no reason to refuse has a result. -/
theorem Returns.exists_ok {α : Type} {P : α → Prop} {J : Prop} {r : Check α} (h : Returns r)
    (hr : Post r P (Refuses J)) (hJ : J) : ∃ a, r = .ok a ∧ P a := by
  cases r with
  | ok a => exact ⟨a, rfl, hr⟩
  | error s =>
    cases s with
    | halt e => exact (h e rfl).elim
    | error e => exact (hr hJ).elim

/-- A number `n`, and `m` for its successor. -/
def successor : Context :=
  ((Context.empty naturals).bind (some "n") (.former ⟨0⟩ [])).define (some "m") (.former ⟨0⟩ [])
    (.con ⟨1⟩ [.var (some "n") 0])

/-- The function that always returns the successor of `m`, through a local definition. -/
def constantly : Term :=
  .lam none (.former ⟨0⟩ []) (.letIn none (.former ⟨0⟩ []) (.var none 1)
    (.con ⟨1⟩ [.var none 0]))

/-- The type of functions on the natural numbers. -/
def endomap : Value := .pi (.former ⟨0⟩ []) (.mk successor.env none (.former ⟨0⟩ []))

theorem built_successor : Built naturals successor := by
  have hNat (Γ : Context) (hΓ : Γ.signature = naturals) : Γ.TypeValue (.former ⟨0⟩ []) := by
    obtain ⟨S, bs⟩ := Γ
    cases hΓ
    exact .computed (n := 5) (m := 5) (A := .former ⟨0⟩ []) rfl rfl
  refine .define (n := 9) (m := 9) (a := .con ⟨1⟩ [.var none 0]) _ (.bind _ .empty (hNat _ rfl))
    (hNat _ rfl) rfl rfl

/-- **Checking agrees with inference.**  In a context that was built over a reachable signature, a
term is accepted at a type in scope exactly if its inferred type is convertible with it, as soon
as the procedures return. -/
theorem Built.check_iff (hS : S.Reachable) (h : Built S Γ) {type : Value} (hty : Γ.TypeValue type)
    (t : Term) {n m k : Nat} (hc : Returns (check n Γ t type)) (hi : Returns (infer m Γ t))
    (hk : ∀ v, infer m Γ t = .ok v → ∃ b, Γ.convert k v type = .ok b) :
    check n Γ t type = .ok () ↔ ∃ v, infer m Γ t = .ok v ∧ Γ.convert k v type = .ok true := by
  obtain ⟨Θ, hΘ⟩ := hS.coherent
  obtain ⟨Δ, ε, ℓ, L, hr⟩ := h.reads hΘ.models
  have hΓ := hr.typed hΘ.models
  have htype := hty.isType hΘ.models hr
  have hdecides {v : Value} (hv : Γ.Infers Θ Δ ε ℓ L t v) {b : Bool}
      (hb : Γ.convert k v type = .ok b) : b = true ↔ Θ.Equal (v.plain ℓ) (type.plain ℓ) := by
    have hd := hΓ.convert_decides hv.type htype k
    rw [Decides, hb] at hd
    exact hd
  constructor
  · intro ht
    obtain ⟨hall, htt⟩ := (check_post hΓ n t htype).of_ok ht
    obtain ⟨v, hv, hinf⟩ := hi.exists_ok (infer_post hΓ m t) ⟨hall.bounded, _, htt⟩
    obtain ⟨b, hb⟩ := hk v hv
    obtain rfl := (hdecides hinf hb).2 (hinf.typed.unique htt)
    exact ⟨v, hv, hb⟩
  · rintro ⟨v, hv, hb⟩
    have hinf := (infer_post hΓ m t).of_ok hv
    have e := (hdecides hinf hb).1 rfl
    obtain ⟨_, ht, _⟩ := hc.exists_ok (check_post hΓ n t htype)
      ⟨hinf.all.bounded, .conv hinf.typed e⟩
    exact ht

theorem constantly_check_iff : naturals.Reachable ∧ Built naturals successor ∧
    successor.TypeValue endomap ∧ check 20 successor constantly endomap = .ok () ∧
    ∃ v, infer 20 successor constantly = .ok v ∧ successor.convert 20 v endomap = .ok true := by
  have hty : successor.TypeValue endomap :=
    .computed (n := 9) (m := 9) (A := .pi none (.former ⟨0⟩ []) (.former ⟨0⟩ [])) rfl rfl
  have hcheck : check 20 successor constantly endomap = .ok () := rfl
  refine ⟨reachable_naturals, built_successor, hty, hcheck, ?_⟩
  refine (built_successor.check_iff reachable_naturals hty constantly (n := 20) ?_ ?_ ?_).1 hcheck
  · exact fun e he => nomatch hcheck.symm.trans he
  · exact fun e he => nomatch he
  · rintro v hv
    cases hv
    exact ⟨true, rfl⟩

end Context

end Constructions
