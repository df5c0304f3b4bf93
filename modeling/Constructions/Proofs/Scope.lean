/-
# Computing stays in scope

A value is in the scope of some levels if it has no variables at other levels, also in the
environments of its closures, and if the body of a closure uses its environment and one
variable more (`Value.WellScoped`).  Computing, reading back, comparing and opening such values
gives values and terms of the scope again, and never looks up anything that is not there: a
computation may run out of fuel or meet a value of the wrong shape, but it does not end with
`dangling` or with an escaped variable (`Halt.InScope`).  Nothing has to be typed for that.

The levels of a scope need not be all below a number: a local definition takes up a level, but
no value that is computed has a variable there.

| procedure | result |
| --- | --- |
| `Term.eval`, `Value.apply`, `Value.eliminate` | a value of the scope |
| `Value.readBack` | a term with variables of the scope |
| `Value.telescope` | domains that see the variables before them |
| `methodType` | a value of the scope |

The last line needs more than scope, since a recursive field of a constructor is looked up by
its position: the fields are opened again for each elimination, and there are as many of them
as when the constructor was declared (`Constructor.Shaped`).
-/

import Constructions.Proofs.Parametricity.Substitution
import Constructions.Typing.Motive

namespace Constructions

/-! ### Scoped terms -/

namespace Term

mutual

/-- All variables are below `n`. -/
def Scoped : Nat → Term → Prop
  | n, .var _ i => i < n
  | _, .const _ => True
  | n, .letIn _ A a b => A.Scoped n ∧ a.Scoped n ∧ b.Scoped (n + 1)
  | _, .type _ => True
  | n, .pi _ A B => A.Scoped n ∧ B.Scoped (n + 1)
  | n, .lam _ A b => A.Scoped n ∧ b.Scoped (n + 1)
  | n, .app f a => f.Scoped n ∧ a.Scoped n
  | n, .former _ as => Scopeds n as
  | n, .con _ as => Scopeds n as
  | n, .elim t M ms => t.Scoped n ∧ M.Scoped n ∧ Scopeds n ms

/-- All variables of terms are below `n`. -/
def Scopeds : Nat → List Term → Prop
  | _, [] => True
  | n, t :: ts => t.Scoped n ∧ Scopeds n ts

end

end Term

/-! ### Levels -/

/-- The levels at which variables may stand. -/
abbrev Levels := Nat → Prop

namespace Levels

/-- No level. -/
def none : Levels := fun _ => False

/-- The first levels. -/
def below (n : Nat) : Levels := fun l => l < n

/-- Also the levels of `k` binders that are entered from `level` on. -/
def extend (L : Levels) (level k : Nat) : Levels := fun l => L l ∨ level ≤ l ∧ l < level + k

variable {L : Levels} {level i j l : Nat}

theorem le_extend (level k : Nat) (h : L l) : L.extend level k l := .inl h

theorem extend_le (hij : i ≤ j) : L.extend level i l → L.extend level j l
  | .inl h => .inl h
  | .inr h => .inr ⟨h.1, by omega⟩

theorem extend_succ : (L.extend level 1).extend (level + 1) j l → L.extend level (j + 1) l
  | .inl (.inl h) => .inl h
  | .inl (.inr h) => .inr ⟨h.1, by omega⟩
  | .inr h => .inr ⟨by omega, by omega⟩

theorem of_extend_zero : L.extend level 0 l → L l
  | .inl h => h
  | .inr h => absurd h.2 (Nat.not_lt.2 h.1)

theorem of_extend_succ : L.extend level (j + 1) l → (L.extend level 1).extend (level + 1) j l
  | .inl h => .inl (.inl h)
  | .inr h => by
    obtain rfl | hlt := Nat.eq_or_lt_of_le h.1
    · exact .inl (.inr ⟨Nat.le_refl _, Nat.lt_succ_self _⟩)
    · exact .inr ⟨hlt, by omega⟩

theorem extend_self (L : Levels) (level : Nat) : L.extend level 1 level :=
  .inr ⟨Nat.le_refl level, Nat.lt_succ_self level⟩

theorem extend_below (hL : ∀ l, L l → l < level) (h : L.extend level j l) : l < level + j := by
  obtain h | h := h
  · exact Nat.lt_add_right j (hL l h)
  · exact h.2

end Levels

/-! ### Values of a scope -/

mutual

/-- The variables of a value have levels of the given kind, its families and constructors are
declared, and the bodies of its closures use no more variables than their environments have, and
one. -/
def Value.WellScoped (S : Signature) (L : Levels) : Value → Prop
  | .neutral m => m.WellScoped S L
  | .type _ => True
  | .pi d c => d.WellScoped S L ∧ c.WellScoped S L
  | .lam d c => d.WellScoped S L ∧ c.WellScoped S L
  | .former F as => (∃ D, S.family? F = some D) ∧ Value.AllWellScoped S L as
  | .con c as => (∃ K, S.constructor? c = some K) ∧ Value.AllWellScoped S L as

/-- The same for a neutral value. -/
def Neutral.WellScoped (S : Signature) (L : Levels) : Neutral → Prop
  | .var _ l => L l
  | .const _ => True
  | .app f a => f.WellScoped S L ∧ a.WellScoped S L
  | .elim t M ms => t.WellScoped S L ∧ M.WellScoped S L ∧ Value.AllWellScoped S L ms

/-- The same for a closure. -/
def Closure.WellScoped (S : Signature) (L : Levels) : Closure → Prop
  | .mk env _ body =>
    Value.AllWellScoped S L env ∧ body.Declared S ∧ body.Scoped (env.length + 1)

/-- The same for a list of values. -/
def Value.AllWellScoped (S : Signature) (L : Levels) : List Value → Prop
  | [] => True
  | v :: vs => v.WellScoped S L ∧ Value.AllWellScoped S L vs

end

variable {S S' : Signature} {L L' : Levels} {level : Nat}

theorem Value.allWellScoped_iff {vs : List Value} :
    Value.AllWellScoped S L vs ↔ ∀ v ∈ vs, v.WellScoped S L := by
  induction vs with
  | nil => simp [Value.AllWellScoped]
  | cons v vs ih => rw [Value.AllWellScoped, ih, List.forall_mem_cons]

theorem Value.allWellScoped_append {vs ws : List Value} :
    Value.AllWellScoped S L (vs ++ ws) ↔
      Value.AllWellScoped S L vs ∧ Value.AllWellScoped S L ws := by
  simp only [Value.allWellScoped_iff, List.forall_mem_append]

mutual

/-- **A value of a scope stays one** in a larger scope, and when more is declared. -/
theorem Value.WellScoped.mono (h : S.Le S') (hL : ∀ l, L l → L' l) :
    ∀ {v : Value}, v.WellScoped S L → v.WellScoped S' L'
  | .neutral _, hm => Neutral.WellScoped.mono h hL hm
  | .type _, _ => trivial
  | .pi _ _, ⟨hd, hc⟩ => ⟨hd.mono h hL, Closure.WellScoped.mono h hL hc⟩
  | .lam _ _, ⟨hd, hc⟩ => ⟨hd.mono h hL, Closure.WellScoped.mono h hL hc⟩
  | .former _ _, ⟨hF, has⟩ => ⟨h.exists_family hF, Value.AllWellScoped.mono h hL has⟩
  | .con _ _, ⟨⟨K, hK⟩, has⟩ => ⟨⟨K, h.constructor hK⟩, Value.AllWellScoped.mono h hL has⟩

theorem Neutral.WellScoped.mono (h : S.Le S') (hL : ∀ l, L l → L' l) :
    ∀ {t : Neutral}, t.WellScoped S L → t.WellScoped S' L'
  | .var _ l, hl => hL l hl
  | .const _, _ => trivial
  | .app _ _, ⟨hf, ha⟩ => ⟨Neutral.WellScoped.mono h hL hf, ha.mono h hL⟩
  | .elim _ _ _, ⟨ht, hM, hms⟩ =>
    ⟨Neutral.WellScoped.mono h hL ht, hM.mono h hL, Value.AllWellScoped.mono h hL hms⟩

theorem Closure.WellScoped.mono (h : S.Le S') (hL : ∀ l, L l → L' l) :
    ∀ {c : Closure}, c.WellScoped S L → c.WellScoped S' L'
  | .mk _ _ _, ⟨henv, hbody, hscoped⟩ =>
    ⟨Value.AllWellScoped.mono h hL henv, hbody.mono h, hscoped⟩

theorem Value.AllWellScoped.mono (h : S.Le S') (hL : ∀ l, L l → L' l) :
    ∀ {vs : List Value}, Value.AllWellScoped S L vs → Value.AllWellScoped S' L' vs
  | [], _ => trivial
  | _ :: _, ⟨hv, hvs⟩ => ⟨hv.mono h hL, Value.AllWellScoped.mono h hL hvs⟩

end

theorem Value.WellScoped.le {v : Value} (h : v.WellScoped S L) (hL : ∀ l, L l → L' l) :
    v.WellScoped S L' := h.mono (.refl S) hL

theorem Value.AllWellScoped.le {vs : List Value} (h : Value.AllWellScoped S L vs)
    (hL : ∀ l, L l → L' l) : Value.AllWellScoped S L' vs := h.mono (.refl S) hL

theorem Term.scopeds_iff {n : Nat} {ts : List Term} : Term.Scopeds n ts ↔ ∀ t ∈ ts, t.Scoped n := by
  induction ts with
  | nil => simp [Term.Scopeds]
  | cons t ts ih => rw [Term.Scopeds, ih, List.forall_mem_cons]

/-! ### Signatures -/

/-- A computation ends for another reason than a variable, family, constructor or field that does
not exist. -/
def Halt.InScope (e : Halt) : Prop := e ≠ .dangling ∧ e ≠ .violation .escapedVariable

theorem Halt.InScope.exhausted : Halt.exhausted.InScope := ⟨by rintro ⟨⟩, by rintro ⟨⟩⟩

theorem Halt.InScope.overflow : Halt.overflow.InScope := ⟨by rintro ⟨⟩, by rintro ⟨⟩⟩

theorem Halt.InScope.violation {v : Violation} (h : v ≠ .escapedVariable) :
    (Halt.violation v).InScope := ⟨by rintro ⟨⟩, fun e => h (Halt.violation.inj e)⟩

/-- A value is the family `F` with at least `p` arguments. -/
def Value.Covers (F : FamilyId) (p : Nat) (v : Value) : Prop :=
  ∃ as, v = .former F as ∧ p ≤ as.length

/-- The type of a constructor opens to its parameters and fields; its target, and the domains of
its recursive fields, are its family with the parameters among the arguments. -/
def Constructor.Shaped (S : Signature) (K : Constructor) : Prop :=
  ∃ P T, K.type.Opens S 0 P ∧ P.body.Opens S K.parameterCount T ∧
    P.length = K.parameterCount ∧ T.length = K.fieldCount ∧
    T.body.Covers K.family K.parameterCount ∧
    ∀ q ∈ K.recursiveFields, ∃ d, T.domains[q - K.parameterCount]? = some d ∧
      d.Covers K.family K.parameterCount

/-- What a signature stores has no variables, and its tables fit together. -/
structure Signature.WellScoped (S : Signature) : Prop where
  registered : S.Registered
  waiting : S.waiting.Closed S
  type : ∀ {c g}, S.global? c = some g → g.type.WellScoped S .none
  definition : ∀ {c v}, S.definition? c = some v → v.WellScoped S .none
  family : ∀ {id F}, S.family? id = some F → F.type.WellScoped S .none
  constructor : ∀ {id K}, S.constructor? id = some K → K.type.WellScoped S .none
  closed : ∀ {id K}, S.constructor? id = some K → K.type.All S.waiting
  shaped : ∀ {id K}, S.constructor? id = some K → K.Shaped S

theorem Signature.WellScoped.unfold (hS : S.WellScoped) (c : Name) :
    (S.unfold c).WellScoped S L := by
  rw [Signature.unfold, ← Signature.definition?]
  cases hc : S.definition? c with
  | none => trivial
  | some v => exact (hS.definition hc).le fun _ hl => hl.elim

/-! ### Computing -/

theorem Post.foldlM {ε α β : Type} {f : β → α → Except ε β} {as : List α} {b : β} {P : β → Prop}
    {Q : ε → Prop} (hb : P b) (h : ∀ b, P b → ∀ a ∈ as, Post (f b a) P Q) :
    Post (as.foldlM f b) P Q := by
  induction as generalizing b with
  | nil => exact hb
  | cons a as ih =>
    rw [List.foldlM_cons]
    refine .bind (h b hb a List.mem_cons_self) fun b' _ hb' => ih hb' fun c hc x hx => ?_
    exact h c hc x (List.mem_cons_of_mem a hx)

theorem Post.all_mapM {α : Type} {ε : Type} {f : α → Except ε Value} {as : List α} {Q : ε → Prop}
    (h : ∀ a ∈ as, Post (f a) (Value.WellScoped S L) Q) :
    Post (as.mapM f) (Value.AllWellScoped S L) Q :=
  (Post.mapM h).mono (fun _ hvs => Value.allWellScoped_iff.2 (forall_mem_of_forall₂ hvs))
    fun _ h => h

/-- **Computing stays in scope.** -/
theorem eval_wellScoped (hS : S.WellScoped) (n : Nat) :
    (∀ {env : Env} {t : Term}, Value.AllWellScoped S L env → t.Declared S →
      t.Scoped env.length → Post (t.eval S n env) (Value.WellScoped S L) Halt.InScope) ∧
    (∀ {f a : Value}, f.WellScoped S L → a.WellScoped S L →
      Post (f.apply S n a) (Value.WellScoped S L) Halt.InScope) ∧
    (∀ {M t : Value} {ms : List Value}, M.WellScoped S L → Value.AllWellScoped S L ms →
      t.WellScoped S L →
      Post (Value.eliminate S n M ms t) (Value.WellScoped S L) fun s => s.toHalt.InScope) := by
  induction n with
  | zero =>
    exact ⟨fun _ _ _ => .exhausted, fun _ _ => .exhausted, fun _ _ _ => Halt.InScope.exhausted⟩
  | succ n ih =>
    obtain ⟨ihe, iha, ihm⟩ := ih
    have ihes {env : Env} {ts : List Term} (henv : Value.AllWellScoped S L env)
        (hts : Term.Declareds S ts) (hscoped : Term.Scopeds env.length ts) :
        Post (ts.mapM fun t => t.eval S n env) (Value.AllWellScoped S L) Halt.InScope :=
      .all_mapM fun t ht =>
        ihe henv (Term.declareds_iff.1 hts t ht) (Term.scopeds_iff.1 hscoped t ht)
    refine ⟨?_, ?_, ?_⟩
    · intro env t henv ht hs
      cases t with
      | var label i =>
        have hi := List.getElem?_eq_getElem hs
        exact .orDangling hi (Value.allWellScoped_iff.1 henv _ (List.mem_of_getElem? hi))
      | const c => exact hS.unfold c
      | letIn label A a b =>
        exact Post.bind (ihe henv ht.2.1 hs.2.1) fun v _ hv => ihe ⟨hv, henv⟩ ht.2.2 hs.2.2
      | type l => exact trivial
      | pi label A B =>
        exact Post.bind (ihe henv ht.1 hs.1) fun d _ hd => ⟨hd, henv, ht.2, hs.2⟩
      | lam label A b =>
        exact Post.bind (ihe henv ht.1 hs.1) fun d _ hd => ⟨hd, henv, ht.2, hs.2⟩
      | app f a =>
        exact Post.bind (ihe henv ht.1 hs.1) fun g _ hg =>
          Post.bind (ihe henv ht.2 hs.2) fun v _ hv => iha hg hv
      | former F as => exact Post.bind (ihes henv ht.2 hs) fun vs _ hvs => ⟨ht.1, hvs⟩
      | con c as => exact Post.bind (ihes henv ht.2 hs) fun vs _ hvs => ⟨ht.1, hvs⟩
      | elim t M ms =>
        refine Post.bind (ihe henv ht.1 hs.1) fun v _ hv => Post.bind (ihe henv ht.2.1 hs.2.1)
          fun N _ hN => Post.bind (ihes henv ht.2.2 hs.2.2) fun ns _ hns => .mapError ?_
        exact ihm hN hns hv
    · intro f a hf ha
      have happend {as : List Value} (has : Value.AllWellScoped S L as) :
          Value.AllWellScoped S L (as ++ [a]) :=
        Value.allWellScoped_append.2 ⟨has, ha, trivial⟩
      cases f with
      | lam d c =>
        obtain ⟨env, label, body⟩ := c
        exact ihe ⟨ha, hf.2.1⟩ hf.2.2.1 hf.2.2.2
      | neutral g => exact ⟨hf, ha⟩
      | former F as => exact ⟨hf.1, happend hf.2⟩
      | con c as => exact ⟨hf.1, happend hf.2⟩
      | type l => exact Halt.InScope.violation (by rintro ⟨⟩)
      | pi d c => exact Halt.InScope.violation (by rintro ⟨⟩)
    · intro M t ms hM hms ht
      cases t with
      | neutral g => exact ⟨ht, hM, hms⟩
      | con c as =>
        obtain ⟨⟨K, hK⟩, has⟩ := ht
        obtain ⟨F, hF, _⟩ := hS.registered.parameters hK
        rw [Value.eliminate]
        refine Post.bind (P := (K = ·)) (.liftM (.orDangling hK rfl)) fun _ _ h => ?_
        cases h
        split
        · exact Halt.InScope.violation (by rintro ⟨⟩)
        next hlength =>
        refine Post.bind (P := (F = ·)) (.liftM (.orDangling hF rfl)) fun _ _ h => ?_
        cases h
        cases F.dispatch? with
        | none => exact Halt.InScope.violation (by rintro ⟨⟩)
        | some table =>
          dsimp only
          cases hmethod : table.select? c ms with
          | none => exact Halt.InScope.violation (by rintro ⟨⟩)
          | some method =>
            obtain ⟨i, _, hi⟩ := Dispatch.select?_eq_some hmethod
            have hall := Value.allWellScoped_iff.1 has
            refine Post.bind (P := Value.AllWellScoped S L) (.all_mapM fun q hq => ?_)
              fun rs _ hrs => ?_
            · -- A construction with all its arguments has one at each recursive position.
              have hlt := ((hS.registered.recursive hK).2 q hq).2
              rw [← not_not.1 hlength] at hlt
              have ha := List.getElem?_eq_getElem hlt
              refine Post.bind (P := (as[q] = ·)) (.liftM (.orDangling ha rfl)) fun _ _ h => ?_
              cases h
              exact ihm hM hms (hall _ (List.getElem_mem hlt))
            · refine .foldlM (Value.allWellScoped_iff.1 hms _ (List.mem_of_getElem? hi))
                fun f hf a ha => .liftM (iha hf ?_)
              refine Value.allWellScoped_iff.1 (Value.allWellScoped_append.2 ⟨?_, hrs⟩) a ha
              exact Value.allWellScoped_iff.2 fun a ha => hall a (List.mem_of_mem_drop ha)
      | type | pi | lam | former => exact Halt.InScope.violation (by rintro ⟨⟩)

section

variable (hS : S.WellScoped)

include hS

theorem Term.eval_post {env : Env} {t : Term} (henv : Value.AllWellScoped S L env)
    (ht : t.Declared S) (hs : t.Scoped env.length) (n : Nat) :
    Post (t.eval S n env) (Value.WellScoped S L) Halt.InScope := (eval_wellScoped hS n).1 henv ht hs

theorem Value.apply_post {f a : Value} (hf : f.WellScoped S L) (ha : a.WellScoped S L) (n : Nat) :
    Post (f.apply S n a) (Value.WellScoped S L) Halt.InScope := (eval_wellScoped hS n).2.1 hf ha

theorem Value.applyAll_post {f : Value} {as : List Value} (hf : f.WellScoped S L)
    (has : Value.AllWellScoped S L as) (n : Nat) :
    Post (f.applyAll S n as) (Value.WellScoped S L) Halt.InScope :=
  .foldlM hf fun _ hg a ha => Value.apply_post hS hg (Value.allWellScoped_iff.1 has a ha) n

theorem Closure.instantiate_post {c : Closure} {a : Value} (hc : c.WellScoped S L)
    (ha : a.WellScoped S L) (n : Nat) :
    Post (c.instantiate S n a) (Value.WellScoped S L) Halt.InScope := by
  obtain ⟨env, label, body⟩ := c
  have henv : Value.AllWellScoped S L (a :: env) := ⟨ha, hc.1⟩
  exact Term.eval_post hS henv hc.2.1 hc.2.2 n

/-- **A closure is entered one level deeper.** -/
theorem Closure.enter_post {c : Closure} (hc : c.WellScoped S L) (n level : Nat) :
    Post (c.enter S n level) (Value.WellScoped S (L.extend level 1)) Halt.InScope := by
  have hvar : (c.parameter level).WellScoped S (L.extend level 1) := L.extend_self level
  exact Closure.instantiate_post hS (hc.mono (.refl S) fun _ => Levels.le_extend level 1) hvar n

omit hS in
theorem nextNumber_post (n : Nat) : Post (nextNumber n) (fun m => m = n + 1) Halt.InScope :=
  .intro (fun _ h => eq_of_nextNumber h) fun e h => by
    unfold nextNumber at h
    split at h
    · cases h
    · cases h
      exact .overflow

/-! ### Reading back -/

/-- **Reading back stays in scope.** -/
theorem readBack_wellScoped (n : Nat) :
    (∀ {L : Levels} {level : Nat} {v : Value}, (∀ l, L l → l < level) → v.WellScoped S L →
      Post (v.readBack S n level) (fun t => t.Declared S ∧ t.Scoped level) Halt.InScope) ∧
    (∀ {L : Levels} {level : Nat} {m : Neutral}, (∀ l, L l → l < level) → m.WellScoped S L →
      Post (m.readBack S n level) (fun t => t.Declared S ∧ t.Scoped level) Halt.InScope) := by
  induction n with
  | zero => exact ⟨fun _ _ => .exhausted, fun _ _ => .exhausted⟩
  | succ n ih =>
    obtain ⟨ihv, ihm⟩ := ih
    have ihvs {L : Levels} {level : Nat} {vs : List Value} (hL : ∀ l, L l → l < level)
        (hvs : Value.AllWellScoped S L vs) :
        Post (vs.mapM fun v => v.readBack S n level)
          (fun ts => Term.Declareds S ts ∧ Term.Scopeds level ts) Halt.InScope := by
      refine (Post.mapM fun v hv => ihv hL (Value.allWellScoped_iff.1 hvs v hv)).mono
        (fun ts hts => ?_) fun _ h => h
      have hts := forall_mem_of_forall₂ hts
      exact ⟨Term.declareds_iff.2 fun t ht => (hts t ht).1,
        Term.scopeds_iff.2 fun t ht => (hts t ht).2⟩
    have ihb {L : Levels} {level : Nat} {d : Value} {c : Closure} {g : Term → Term → Term}
        {P : Term → Prop} (hL : ∀ l, L l → l < level) (hd : d.WellScoped S L)
        (hc : c.WellScoped S L)
        (hg : ∀ {D B}, D.Declared S ∧ D.Scoped level → B.Declared S ∧ B.Scoped (level + 1) →
          P (g D B)) :
        Post (do
          let d ← d.readBack S n level
          let v ← c.enter S n level
          let inner ← nextNumber level
          let b ← v.readBack S n inner
          .ok (g d b)) P Halt.InScope := by
      refine Post.bind (ihv hL hd) fun D _ hD => Post.bind (Closure.enter_post hS hc n level)
        fun v _ hv => Post.bind (nextNumber_post level) fun inner _ hinner => ?_
      subst hinner
      exact Post.bind (ihv (fun _ => Levels.extend_below hL) hv) fun B _ hB => hg hD hB
    refine ⟨?_, ?_⟩
    · intro L level v hL hv
      cases v with
      | neutral m => exact ihm hL hv
      | type l => exact ⟨trivial, trivial⟩
      | pi d c => exact ihb hL hv.1 hv.2 fun hD hB => ⟨⟨hD.1, hB.1⟩, hD.2, hB.2⟩
      | lam d c => exact ihb hL hv.1 hv.2 fun hD hB => ⟨⟨hD.1, hB.1⟩, hD.2, hB.2⟩
      | former F as => exact Post.bind (ihvs hL hv.2) fun ts _ hts => ⟨⟨hv.1, hts.1⟩, hts.2⟩
      | con c as => exact Post.bind (ihvs hL hv.2) fun ts _ hts => ⟨⟨hv.1, hts.1⟩, hts.2⟩
    · intro L level m hL hm
      cases m with
      | var label l =>
        have hl : l < level := hL l hm
        rw [Neutral.readBack, if_pos hl]
        exact ⟨trivial, show level - (l + 1) < level by omega⟩
      | const c => exact ⟨trivial, trivial⟩
      | app f a =>
        exact Post.bind (ihm hL hm.1) fun F _ hF => Post.bind (ihv hL hm.2) fun A _ hA =>
          ⟨⟨hF.1, hA.1⟩, hF.2, hA.2⟩
      | elim t M ms =>
        exact Post.bind (ihm hL hm.1) fun T _ hT => Post.bind (ihv hL hm.2.1) fun N _ hN =>
          Post.bind (ihvs hL hm.2.2) fun ns _ hns => ⟨⟨hT.1, hN.1, hns.1⟩, hT.2, hN.2, hns.2⟩

theorem Value.readBack_scoped (hL : ∀ l, L l → l < level) {v : Value} (hv : v.WellScoped S L)
    (n : Nat) :
    Post (v.readBack S n level) (fun t => t.Declared S ∧ t.Scoped level) Halt.InScope :=
  (readBack_wellScoped hS n).1 hL hv

/-! ### Comparing -/

omit hS in
/-- Two comparisons, the second one only if the first succeeds. -/
theorem Post.and {x y : Except Halt Bool} (hx : Post x (fun _ => True) Halt.InScope)
    (hy : Post y (fun _ => True) Halt.InScope) :
    Post (do if ← x then y else .ok false) (fun _ => True) Halt.InScope := by
  refine Post.bind hx fun b _ _ => ?_
  cases b with
  | true => exact hy
  | false => exact trivial

omit hS in
theorem convertList_wellScoped {compare : Value → Value → Except Halt Bool} {vs ws : List Value}
    (h : ∀ {v w : Value}, v.WellScoped S L → w.WellScoped S L →
      Post (compare v w) (fun _ => True) Halt.InScope)
    (hvs : Value.AllWellScoped S L vs) (hws : Value.AllWellScoped S L ws) :
    Post (convertList compare vs ws) (fun _ => True) Halt.InScope := by
  unfold convertList
  split
  · next hl =>
    clear hl
    induction vs generalizing ws with
    | nil => exact trivial
    | cons v vs ih =>
      cases ws with
      | nil => exact trivial
      | cons w ws => exact .and (h hvs.1 hws.1) (ih hvs.2 hws.2)
  · exact trivial

omit hS in
theorem Value.applicable_post {v : Value} (hv : v.WellScoped S L) :
    Post (v.applicable S) (fun _ => True) Halt.InScope := by
  cases v with
  | former F as =>
    obtain ⟨D, hD⟩ := hv.1
    exact Post.bind (P := fun _ => True) (.orDangling hD trivial) fun _ _ _ => trivial
  | con c as =>
    obtain ⟨K, hK⟩ := hv.1
    exact Post.bind (P := fun _ => True) (.orDangling hK trivial) fun _ _ _ => trivial
  | neutral | type | pi | lam => exact trivial

/-- **Comparing stays in scope.** -/
theorem convert_wellScoped (n : Nat) :
    (∀ {L : Levels} {level : Nat} {v w : Value}, v.WellScoped S L → w.WellScoped S L →
      Post (v.convert S n level w) (fun _ => True) Halt.InScope) ∧
    (∀ {L : Levels} {level : Nat} {l r : Neutral}, l.WellScoped S L → r.WellScoped S L →
      Post (l.convert S n level r) (fun _ => True) Halt.InScope) := by
  induction n with
  | zero => exact ⟨fun _ _ => .exhausted, fun _ _ => .exhausted⟩
  | succ n ih =>
    obtain ⟨ihv, ihm⟩ := ih
    have hbinder {L : Levels} {level : Nat} {d d' : Value} {c c' : Closure} (hd : d.WellScoped S L)
        (hd' : d'.WellScoped S L) (hc : c.WellScoped S L) (hc' : c'.WellScoped S L) :
        Post (do
          if ← d.convert S n level d' then
            let v ← c.enter S n level
            let v' ← c'.enter S n level
            v.convert S n (level + 1) v'
          else .ok false) (fun _ => True) Halt.InScope :=
      .and (ihv hd hd') (Post.bind (Closure.enter_post hS hc n level) fun v _ hv =>
        Post.bind (Closure.enter_post hS hc' n level) fun v' _ hv' => ihv hv hv')
    have heta {L : Levels} {level : Nat} {r : Value} {c : Closure} (hr : r.WellScoped S L)
        (hc : c.WellScoped S L) :
        Post (do
          if ← r.applicable S then
            let v ← c.enter S n level
            let v' ← r.apply S n (c.parameter level)
            v.convert S n (level + 1) v'
          else .ok false) (fun _ => True) Halt.InScope := by
      have hvar : (c.parameter level).WellScoped S (L.extend level 1) := L.extend_self level
      have hr' : r.WellScoped S (L.extend level 1) := hr.le fun _ => Levels.le_extend level 1
      exact .and (Value.applicable_post hr) (Post.bind (Closure.enter_post hS hc n level)
        fun v _ hv => Post.bind (Value.apply_post hS hr' hvar n) fun v' _ hv' => ihv hv hv')
    have hlist {L : Levels} {level : Nat} {vs ws : List Value} (hvs : Value.AllWellScoped S L vs)
        (hws : Value.AllWellScoped S L ws) :
        Post (convertList (fun v w => v.convert S n level w) vs ws) (fun _ => True)
          Halt.InScope := convertList_wellScoped ihv hvs hws
    refine ⟨?_, ?_⟩
    · intro L level v w hv hw
      cases v with
      | neutral l =>
        cases w with
        | neutral r => exact ihm hv hw
        | lam d c => exact heta hv hw.2
        | type | pi | former | con => exact trivial
      | type l =>
        cases w with
        | lam d c => exact heta hv hw.2
        | neutral | type | pi | former | con => exact trivial
      | pi d c =>
        cases w with
        | pi d' c' => exact hbinder hv.1 hw.1 hv.2 hw.2
        | lam d' c' => exact heta hv hw.2
        | neutral | type | former | con => exact trivial
      | lam d c =>
        cases w with
        | lam d' c' => exact hbinder hv.1 hw.1 hv.2 hw.2
        | neutral | type | pi | former | con => exact heta hw hv.2
      | former F as =>
        cases w with
        | former F' as' =>
          rw [Value.convert]
          split
          · exact hlist hv.2 hw.2
          · exact trivial
        | lam d c => exact heta hv hw.2
        | neutral | type | pi | con => exact trivial
      | con K as =>
        cases w with
        | con K' as' =>
          rw [Value.convert]
          split
          · exact hlist hv.2 hw.2
          · exact trivial
        | lam d c => exact heta hv hw.2
        | neutral | type | pi | former => exact trivial
    · intro L level l r hl hr
      cases l with
      | app f a =>
        cases r with
        | app f' a' => exact .and (ihm hl.1 hr.1) (ihv hl.2 hr.2)
        | var | const | elim => exact trivial
      | elim t M ms =>
        cases r with
        | elim t' M' ms' =>
          exact .and (ihm hl.1 hr.1) (.and (ihv hl.2.1 hr.2.1) (hlist hl.2.2 hr.2.2))
        | var | const | app => exact trivial
      | var => cases r <;> exact trivial
      | const => cases r <;> exact trivial

theorem Value.convert_post {v w : Value} (hv : v.WellScoped S L) (hw : w.WellScoped S L)
    (n : Nat) : Post (v.convert S n level w) (fun _ => True) Halt.InScope :=
  (convert_wellScoped hS n).1 hv hw

end

end Constructions
