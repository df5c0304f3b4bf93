/-
# Opening telescopes of types

A type opened at a level reduces to function types over the domains that were opened, each
read in the scope of those before it (`Value.IsType.telescope`).  If the type is equal to
function types over a known telescope, the opened domains are equal to it, one by one
(`Opened.domains_equal`); the number of opened domains is then the expected one, because a
value that is a type and equal to a function type is a function type
(`Value.IsType.eq_pi`).
-/

import Constructions.Proofs.Conversion
import Constructions.Telescope

namespace Constructions

open Plain

variable {Θ : Theory} {S : Signature} {L : Leaves} {ℓ : Nat → Plain} {level : Nat}
  {Γ : List Plain}

/-! ### Below several binders -/

/-- A level map below `k` binders that are entered from level `n` on. -/
def extendBy (ℓ : Nat → Plain) (n : Nat) : Nat → Nat → Plain
  | 0 => ℓ
  | k + 1 => extendBy (extend ℓ n) (n + 1) k

/-- Leaves below `k` binders that are entered from level `n` on. -/
def Leaves.binds (L : Leaves) (n : Nat) : Nat → Leaves
  | 0 => L
  | k + 1 => (L.bind n).binds (n + 1) k

theorem Leaves.le_binds (L : Leaves) (n k : Nat) : L.Le (L.binds n k) := by
  induction k generalizing L n with
  | zero => exact ⟨fun h => h, fun h => h, fun h => h, fun h => h⟩
  | succ k ih =>
    have h := L.le_bind n
    have h' := ih (L.bind n) (n + 1)
    exact ⟨fun hl => h'.level (h.level hl), fun hl => h'.stuck (h.stuck hl),
      fun hl => h'.name (h.name hl), fun hl => h'.univ (h.univ hl)⟩

theorem Leaves.level_binds (L : Leaves) {n k i : Nat} (hi : i < k) :
    (L.binds n k).level (n + i) := by
  induction k generalizing L n i with
  | zero => omega
  | succ k ih =>
    cases i with
    | zero => exact (Leaves.le_binds (L.bind n) (n + 1) k).level (.inr rfl)
    | succ i =>
      have := ih (L := L.bind n) (n := n + 1) (i := i) (by omega)
      rwa [Nat.add_right_comm] at this

theorem Scope.binds (h : Scope Θ S L level ℓ) (k : Nat) :
    Scope Θ S (L.binds level k) (level + k) (extendBy ℓ level k) := by
  induction k generalizing L level ℓ with
  | zero => exact h
  | succ k ih =>
    have := ih h.bind
    rwa [Nat.add_right_comm] at this

theorem extendBy_of_lt (ℓ : Nat → Plain) {n k l : Nat} (h : l < n) :
    extendBy ℓ n k l = (ℓ l).rename (· + k) := by
  induction k generalizing ℓ n with
  | zero => exact ((rename_eq_subst _ _).trans (subst_var _)).symm
  | succ k ih =>
    rw [extendBy, ih _ (Nat.lt_succ_of_lt h), extend_of_ne ℓ (Nat.ne_of_lt h), shift, rename_rename]
    exact congrArg (fun ρ => (ℓ l).rename ρ) (funext fun i => by omega)

theorem extendBy_add (ℓ : Nat → Plain) {n k i : Nat} (h : i < k) :
    extendBy ℓ n k (n + i) = .var (k - 1 - i) := by
  induction k generalizing ℓ n i with
  | zero => omega
  | succ k ih =>
    cases i with
    | zero =>
      have := extendBy_of_lt (extend ℓ n) (k := k) (Nat.lt_succ_self n)
      rw [extend_self, rename, Nat.zero_add] at this
      exact this
    | succ i =>
      have := ih (extend ℓ n) (n := n + 1) (i := i) (by omega)
      rw [extendBy, show n + (i + 1) = n + 1 + i by omega, this]
      congr 1
      omega

theorem extendBy_append (ℓ : Nat → Plain) (n i j : Nat) :
    extendBy ℓ n (i + j) = extendBy (extendBy ℓ n i) (n + i) j := by
  induction i generalizing ℓ n with
  | zero => rw [Nat.zero_add]; rfl
  | succ i ih =>
    rw [Nat.add_right_comm, extendBy, ih, extendBy, show n + (i + 1) = n + 1 + i by omega]

theorem Leaves.binds_append (L : Leaves) (n i j : Nat) :
    L.binds n (i + j) = (L.binds n i).binds (n + i) j := by
  induction i generalizing L n with
  | zero => rw [Nat.zero_add]; rfl
  | succ i ih =>
    rw [Nat.add_right_comm, binds, ih, binds, show n + (i + 1) = n + 1 + i by omega]

/-- **A value from outside of binders is moved below them.** -/
theorem Value.plain_extendBy (hn : L.Below level) {v : Value} (hv : v.All L) (k : Nat) :
    v.plain (extendBy ℓ level k) = (v.plain ℓ).rename (· + k) := by
  rw [rename_eq_subst, v.plain_subst]
  refine v.plain_congr (fun l hl => ?_) hv
  rw [extendBy_of_lt ℓ (hn l hl), rename_eq_subst]

theorem Value.plains_extendBy (hn : L.Below level) {vs : List Value} (hvs : Value.Alls L vs)
    (k : Nat) :
    Value.plains (extendBy ℓ level k) vs = (Value.plains ℓ vs).map (rename (· + k)) := by
  rw [Value.plains_eq_map, Value.plains_eq_map, List.map_map]
  exact List.map_congr_left fun v hv => Value.plain_extendBy hn (Value.alls_iff.1 hvs v hv) k

/-- The telescope that values stand for, each in the scope of those before it. -/
def telePlain (ℓ : Nat → Plain) (level : Nat) : List Value → List Plain
  | [] => []
  | d :: ds => d.plain ℓ :: telePlain (extend ℓ level) (level + 1) ds

/-- All leaves of a telescope of values are of the given kind or variables of the telescope. -/
def TeleAll (L : Leaves) (level : Nat) : List Value → Prop
  | [] => True
  | d :: ds => d.All L ∧ TeleAll (L.bind level) (level + 1) ds

@[simp] theorem length_telePlain (ℓ : Nat → Plain) (level : Nat) (ds : List Value) :
    (telePlain ℓ level ds).length = ds.length := by
  induction ds generalizing ℓ level with
  | nil => rfl
  | cons d ds ih => rw [telePlain, List.length_cons, ih, List.length_cons]

theorem telePlain_append (ℓ : Nat → Plain) (level : Nat) (ds es : List Value) :
    telePlain ℓ level (ds ++ es) =
      telePlain ℓ level ds ++ telePlain (extendBy ℓ level ds.length) (level + ds.length) es := by
  induction ds generalizing ℓ level with
  | nil => rfl
  | cons d ds ih =>
    rw [List.cons_append, telePlain, telePlain, ih, List.length_cons, extendBy,
      show level + (ds.length + 1) = level + 1 + ds.length by omega]
    rfl

theorem teleAll_append {L : Leaves} {level : Nat} {ds es : List Value} (hds : TeleAll L level ds)
    (hes : TeleAll (L.binds level ds.length) (level + ds.length) es) :
    TeleAll L level (ds ++ es) := by
  induction ds generalizing L level with
  | nil => exact hes
  | cons d ds ih =>
    rw [List.length_cons, show level + (ds.length + 1) = level + 1 + ds.length by omega] at hes
    exact ⟨hds.1, ih hds.2 hes⟩

theorem getElem?_telePlain (ℓ : Nat → Plain) (level : Nat) (ds : List Value) (i : Nat) :
    (telePlain ℓ level ds)[i]? = ds[i]?.map (Value.plain (extendBy ℓ level i)) := by
  induction ds generalizing ℓ level i with
  | nil => rfl
  | cons d ds ih =>
    cases i with
    | zero => rfl
    | succ i => exact ih _ _ i

theorem TeleAll.getElem? {ds : List Value} (h : TeleAll L level ds) {i : Nat} {d : Value}
    (hd : ds[i]? = some d) : d.All (L.binds level i) := by
  induction ds generalizing L level i with
  | nil => cases hd
  | cons e ds ih =>
    cases i with
    | zero =>
      cases hd
      exact h.1
    | succ i => exact ih h.2 hd

/-! ### Canonical types -/

/-- A value is a type in the scope of `Γ`, with leaves of the given kind. -/
structure Value.IsType (Θ : Theory) (Γ : List Plain) (L : Leaves) (ℓ : Nat → Plain) (v : Value) :
    Prop where
  all : v.All L
  typed : ∃ n, HasType Θ Γ (v.plain ℓ) (.atom (.type n))

namespace Value.IsType

/-- **A type that is equal to a function type is one.** -/
theorem eq_pi {v : Value} (h : v.IsType Θ Γ L ℓ) (hs : Scope Θ S L level ℓ) {A B : Plain}
    (e : Θ.Equal (v.plain ℓ) (.pi A B)) : ∃ d c, v = .pi d c := by
  obtain ⟨hv, n, h⟩ := h
  cases v with
  | neutral m =>
    rw [Theory.Equal, Theory.Equal.bare_pi] at e
    exact ((Neutral.stuck hs hv).not_conv_spine (a := .pi) trivial e).elim
  | type l => exact e.type_ne_pi.elim
  | pi d c => exact ⟨d, c, rfl⟩
  | lam d c =>
    obtain ⟨_, _, _, _, e'⟩ := h.lam_inv
    exact e'.symm.type_ne_pi.elim
  | former F as => exact (e.symm.pi_ne_former).elim
  | con c as => exact (Theory.Equal.pi_ne_spine (a := .con c) trivial (by simp) e.symm).elim

/-- **A type that is equal to a family at arguments is that family.** -/
theorem eq_former {v : Value} (h : v.IsType Θ Γ L ℓ) (hs : Scope Θ S L level ℓ) {F : FamilyId}
    {as : List Plain} (e : Θ.Equal (v.plain ℓ) (spine (.atom (.former F)) as)) :
    ∃ bs, v = .former F bs ∧ List.Forall₂ Θ.Equal (Value.plains ℓ bs) as := by
  obtain ⟨hv, n, h⟩ := h
  cases v with
  | neutral m =>
    rw [Theory.Equal, bare_spine] at e
    exact ((Neutral.stuck hs hv).not_conv_spine (a := .former F) trivial e).elim
  | type l => exact e.type_ne_former.elim
  | pi d c => exact e.pi_ne_former.elim
  | lam d c =>
    obtain ⟨_, _, _, _, e'⟩ := h.lam_inv
    exact e'.symm.type_ne_pi.elim
  | former F' bs =>
    obtain ⟨rfl, hbs⟩ := e.former_inj
    exact ⟨bs, rfl, hbs⟩
  | con c bs =>
    obtain ⟨e, _⟩ := Theory.Equal.spine_inj (a := .con c) (b := .former F) trivial trivial e
    cases e

/-- **A type that is equal to a universe is that universe.** -/
theorem eq_type {v : Value} (h : v.IsType Θ Γ L ℓ) (hs : Scope Θ S L level ℓ) {m : Nat}
    (e : Θ.Equal (v.plain ℓ) (.atom (.type m))) : ∃ l, v = .type l ∧ l.toNat = m := by
  obtain ⟨hv, n, h⟩ := h
  cases v with
  | neutral k =>
    have ha : (Atom.type m).inert ([] : List Bare).length := trivial
    exact ((Neutral.stuck hs hv).not_conv_spine ha e).elim
  | type l => exact ⟨l, rfl, e.type_inj⟩
  | pi d c => exact e.symm.type_ne_pi.elim
  | lam d c =>
    obtain ⟨_, _, _, _, e'⟩ := h.lam_inv
    exact e'.symm.type_ne_pi.elim
  | former F bs => exact e.symm.type_ne_former.elim
  | con c bs =>
    rw [← spine_nil (.atom (.type m))] at e
    obtain ⟨e, _⟩ := Theory.Equal.spine_inj (a := .con c) (b := .type m) trivial trivial e
    cases e

/-- A type from outside of a binder is a type below it. -/
theorem bind {v : Value} (h : v.IsType Θ Γ L ℓ) (hL : L.Below level) (A : Plain) :
    v.IsType Θ (A :: Γ) (L.bind level) (extend ℓ level) := by
  obtain ⟨n, hn⟩ := h.typed
  refine ⟨h.all.mono (L.le_bind level), n, ?_⟩
  rw [Value.plain_extend hL h.all]
  exact hn.shift A

/-- **The domain of a function type is a type.** -/
theorem domain {d : Value} {c : Closure} (h : (Value.pi d c).IsType Θ Γ L ℓ) :
    d.IsType Θ Γ L ℓ := by
  obtain ⟨hv, n, h⟩ := h
  obtain ⟨m, _, hd, _, _⟩ := h.pi_inv
  exact ⟨hv.1, m, hd⟩

variable (hΘ : Θ.Sound) (hS : Θ.Describes S) (hs : Scope Θ S L level ℓ)

include hΘ hS hs

/-- **Instantiating the codomain of a function type gives a type.** -/
theorem instantiate {d a : Value} {c : Closure} (h : (Value.pi d c).IsType Θ Γ L ℓ)
    (ha : a.All L) (hat : HasType Θ Γ (a.plain ℓ) (d.plain ℓ)) (n : Nat) :
    Post (c.instantiate S n a) (fun v => v.IsType Θ Γ L ℓ ∧
      Reds Θ ((c.plain ℓ).inst (a.plain ℓ)) (v.plain ℓ)) Halt.Resource := by
  obtain ⟨hv, n, h⟩ := h
  obtain ⟨_, m, _, hc, _⟩ := h.pi_inv
  have hca := hc.inst hat
  refine .intro (fun v e => ?_) fun e he => Post.of_error
    (Closure.instantiate_safe hΘ hS hs.levelMap hca) he
  have hr := Closure.instantiate_reds hS e ℓ
  exact ⟨⟨Closure.instantiate_all hs.closed hv.2 ha e, m, hca.reds hΘ hr⟩, hr⟩

/-- **Entering the codomain of a function type gives a type.** -/
theorem enter {d : Value} {c : Closure} (h : (Value.pi d c).IsType Θ Γ L ℓ) (n : Nat) :
    Post (c.enter S n level) (fun v =>
      v.IsType Θ (d.plain ℓ :: Γ) (L.bind level) (extend ℓ level) ∧
      Reds Θ (c.plain ℓ) (v.plain (extend ℓ level))) Halt.Resource := by
  obtain ⟨hv, n, h⟩ := h
  obtain ⟨_, m, _, hc, _⟩ := h.pi_inv
  refine .intro (fun v e => ?_) fun e he => Post.of_error
    (Closure.enter_safe hS hΘ hs.levelMap hs.below hv.2 hc) he
  have hr := Closure.enter_reds hS hs.below hv.2 e ℓ
  exact ⟨⟨Closure.enter_all_bind hs.closed hv.2 e, m, hc.reds hΘ hr⟩, hr⟩

/-- **The leading binders of a type can be instantiated with an instance of them.** -/
theorem instantiates {args : List Value} {ty : Value} {e Φ : List Plain} {B : Plain}
    (h : ty.IsType Θ Γ L ℓ) (hargs : Value.Alls L args)
    (he : Θ.Equal (ty.plain ℓ) ((pis Φ B).subst (ofList e)))
    (hi : Instance Θ Γ e Φ (Value.plains ℓ args)) (n : Nat) :
    Post (ty.instantiate S n args) (fun v => v.IsType Θ Γ L ℓ ∧
      Θ.Equal (v.plain ℓ) (B.subst (ofList ((Value.plains ℓ args).reverse ++ e))))
      Halt.Resource := by
  induction args generalizing ty e Φ with
  | nil =>
    cases hi
    exact ⟨h, he⟩
  | cons a args ih =>
    cases hi with
    | @cons _ Φ _ _ A ha hi =>
      obtain ⟨d, c, rfl⟩ := h.eq_pi hs he
      obtain ⟨hd, hc⟩ := Theory.Equal.pi_inj he
      refine Post.bind (h.instantiate hΘ hS hs hargs.1 (.conv ha hd.symm) n)
        fun v _ ⟨hv, hr⟩ => ?_
      have hv' := hr.equal.symm.trans (hc.inst (.refl (a.plain ℓ)))
      rw [inst_ofList] at hv'
      refine (ih hv hargs.2 hv' hi).mono (fun w hw => ?_) fun _ h => h
      rwa [Value.plains, List.reverse_cons, List.append_assoc]

end Value.IsType

/-! ### Opened telescopes -/

/-- What opening the leading binders of a type has found. -/
structure Opened (Θ : Theory) (L : Leaves) (ℓ : Nat → Plain) (level : Nat) (limit : Option Nat)
    (ty : Value) (T : Telescope) : Prop where
  reds : Reds Θ (ty.plain ℓ)
    (pis (telePlain ℓ level T.domains) (T.body.plain (extendBy ℓ level T.length)))
  domains : TeleAll L level T.domains
  body : T.body.All (L.binds level T.length)
  parameter : ∀ {i : Nat} {b}, T.binders[i]? = some b →
    ∃ label, b.parameter = .neutral (.var label (level + i))
  le : ∀ {k}, limit = some k → T.length ≤ k
  stop : limit ≠ some T.length → ∀ d c, T.body ≠ .pi d c

theorem Value.telescope_pi (S : Signature) (n level : Nat) {limit : Option Nat}
    (hl : limit ≠ some 0) (d : Value) (c : Closure) :
    (Value.pi d c).telescope S (n + 1) level limit = (do
      let body ← c.enter S n level
      let rest ← Value.telescope S n (level + 1) (limit.map (· - 1)) body
      .ok ⟨⟨c.label, d, c.parameter level⟩ :: rest.binders, rest.body⟩) := by
  obtain _ | _ | k := limit
  · rfl
  · exact (hl rfl).elim
  · rfl

theorem Value.telescope_stop (S : Signature) (n level : Nat) {limit : Option Nat} {ty : Value}
    (h : limit ≠ some 0 → ∀ d c, ty ≠ .pi d c) :
    ty.telescope S (n + 1) level limit = .ok ⟨[], ty⟩ := by
  unfold Value.telescope
  split
  · rfl
  · next hl => exact (h hl _ _ rfl).elim
  · rfl

/-- **Opening the leading binders of a type reduces it to function types.** -/
theorem Value.IsType.telescope (hΘ : Θ.Sound) (hS : Θ.Describes S) (n : Nat) :
    ∀ {L : Leaves} {ℓ : Nat → Plain} {level : Nat} {Γ : List Plain} {limit : Option Nat}
      {ty : Value}, Scope Θ S L level ℓ → ty.IsType Θ Γ L ℓ →
      Post (ty.telescope S n level limit) (Opened Θ L ℓ level limit ty) Halt.Resource := by
  induction n with
  | zero => exact fun _ _ => .inl rfl
  | succ n ih =>
    intro L ℓ level Γ limit ty hs h
    by_cases hstop : limit ≠ some 0 → ∀ d c, ty ≠ .pi d c
    · rw [Value.telescope_stop S n level hstop]
      exact ⟨.refl, trivial, h.all, fun h => (nomatch h), fun _ => Nat.zero_le _, hstop⟩
    simp only [not_forall, not_not] at hstop
    obtain ⟨hl, d, c, rfl⟩ := hstop
    rw [Value.telescope_pi S n level hl]
    refine Post.bind (h.enter hΘ hS hs n) fun body _ ⟨hb, hr⟩ => ?_
    refine Post.bind (ih hs.bind hb) fun rest _ hrest => ?_
    refine ⟨.pi .refl (hr.trans hrest.reds), ⟨h.all.1, hrest.domains⟩, hrest.body, ?_, ?_, ?_⟩
    · intro i b hi
      cases i with
      | zero =>
        cases hi
        exact ⟨_, rfl⟩
      | succ i =>
        obtain ⟨label, hp⟩ := hrest.parameter hi
        exact ⟨label, by rw [hp, Nat.add_right_comm, Nat.add_assoc]⟩
    · rintro k rfl
      have hk : k ≠ 0 := fun h => hl (congrArg some h)
      have hle : rest.length ≤ k - 1 := hrest.le rfl
      exact show rest.length + 1 ≤ k by omega
    · intro hne
      refine hrest.stop fun e => hne ?_
      obtain ⟨k, rfl, hk⟩ := Option.map_eq_some_iff.1 e
      have hk0 : k ≠ 0 := fun h => hl (congrArg some h)
      exact congrArg some (show k = rest.length + 1 by omega)

namespace Opened

variable {limit : Option Nat} {ty : Value} {T : Telescope}

@[simp] theorem length_domains (T : Telescope) : T.domains.length = T.length := List.length_map _

@[simp] theorem length_parameters (T : Telescope) : T.parameters.length = T.length :=
  List.length_map _

/-- The variables of the binders stand for the innermost variables. -/
theorem plains_parameters (h : Opened Θ L ℓ level limit ty T) :
    Value.plains (extendBy ℓ level T.length) T.parameters = vars T.length := by
  rw [Value.plains_eq_map]
  refine List.ext_getElem? fun i => ?_
  by_cases hi : i < T.length
  · obtain ⟨label, hp⟩ := h.parameter (List.getElem?_eq_getElem hi)
    rw [getElem?_vars hi, Telescope.parameters, List.map_map, List.getElem?_map,
      List.getElem?_eq_getElem hi, Option.map_some, Function.comp_apply, hp]
    exact congrArg some (extendBy_add ℓ hi)
  · rw [List.getElem?_eq_none (by simp; omega), List.getElem?_eq_none (by simp; omega)]

theorem alls_parameters (h : Opened Θ L ℓ level limit ty T) :
    Value.Alls (L.binds level T.length) T.parameters := by
  rw [Value.alls_iff]
  intro v hv
  obtain ⟨b, hb, rfl⟩ := List.mem_map.1 hv
  obtain ⟨i, hi, rfl⟩ := List.getElem_of_mem hb
  obtain ⟨label, hp⟩ := h.parameter (List.getElem?_eq_getElem hi)
  rw [hp]
  exact L.level_binds hi

section

variable (h : Opened Θ L ℓ level limit ty T)

include h

/-- **No more binders are opened than there are.** -/
theorem length_le {Φ : List Plain} {B : Plain} (e : Θ.Equal (ty.plain ℓ) (pis Φ B))
    (hB : ∀ A C, ¬ Θ.Equal B (.pi A C)) : T.length ≤ Φ.length := by
  refine Nat.not_lt.1 fun hlt => ?_
  have e' := h.reds.equal.symm.trans e
  have hl : Φ.length < (telePlain ℓ level T.domains).length := by simpa using hlt
  rw [← List.take_append_drop Φ.length (telePlain ℓ level T.domains), pis_append,
    List.drop_eq_getElem_cons hl, pis_cons] at e'
  exact hB _ _ (Theory.Equal.pis_inj (by simp; omega) e').2.symm

/-- **The opened domains are the expected ones.** -/
theorem domains_equal {Φ : List Plain} {B : Plain} (e : Θ.Equal (ty.plain ℓ) (pis Φ B))
    (hl : T.length = Φ.length) :
    List.Forall₂ Θ.Equal (telePlain ℓ level T.domains) Φ ∧
      Θ.Equal (T.body.plain (extendBy ℓ level T.length)) B :=
  Theory.Equal.pis_inj (by simpa using hl) (h.reds.equal.symm.trans e)

variable (hty : ty.IsType Θ Γ L ℓ) (hΘ : Θ.Sound)

include hty hΘ

theorem typed : ∃ n, HasType Θ Γ
    (pis (telePlain ℓ level T.domains) (T.body.plain (extendBy ℓ level T.length)))
    (.atom (.type n)) := by
  obtain ⟨n, hn⟩ := hty.typed
  exact ⟨n, hn.reds hΘ h.reds⟩

/-- **What stands behind the opened binders is a type.** -/
theorem isType_body : T.body.IsType Θ ((telePlain ℓ level T.domains).reverse ++ Γ)
    (L.binds level T.length) (extendBy ℓ level T.length) := by
  obtain ⟨n, hn⟩ := h.typed hty hΘ
  exact ⟨h.body, hn.pis_inv⟩

/-- **All binders are opened unless there is a limit.** -/
theorem le_length (hs : Scope Θ S L level ℓ) {Φ : List Plain} {B : Plain}
    (e : Θ.Equal (ty.plain ℓ) (pis Φ B)) (hl : limit = none ∨ limit = some Φ.length) :
    Φ.length ≤ T.length := by
  refine Nat.not_lt.1 fun hlt => ?_
  have e' := h.reds.equal.symm.trans e
  rw [← List.take_append_drop T.length Φ, pis_append, List.drop_eq_getElem_cons hlt,
    pis_cons] at e'
  have hb := (Theory.Equal.pis_inj (by simp; omega) e').2
  obtain ⟨d, c, hpi⟩ := (h.isType_body hty hΘ).eq_pi (hs.binds T.length) hb
  refine h.stop ?_ d c hpi
  rintro rfl
  obtain e | e := hl
  · cases e
  · exact Nat.ne_of_lt hlt (Option.some.inj e)

end

end Opened

/-! ### Comparing telescopes -/

/-- **Telescopes of types are compared domain by domain.** -/
theorem convertDomains_decides (hΘ : Θ.Sound) (hS : Θ.Describes S) {n : Nat} {ds es : List Value}
    {B C : Plain} {u v : Nat} (hs : Scope Θ S L level ℓ) (hl : ds.length = es.length)
    (hds : TeleAll L level ds) (hes : TeleAll L level es)
    (h : HasType Θ Γ (pis (telePlain ℓ level ds) B) (.atom (.type u)))
    (h' : HasType Θ Γ (pis (telePlain ℓ level es) C) (.atom (.type v))) :
    Decides (convertDomains S n level ds es)
      (List.Forall₂ Θ.Equal (telePlain ℓ level ds) (telePlain ℓ level es)) := by
  induction ds generalizing es L ℓ level Γ u v with
  | nil =>
    obtain rfl := List.length_eq_zero_iff.1 hl.symm
    exact .yes .nil
  | cons d ds ih =>
    cases es with
    | nil => cases hl
    | cons e es =>
      obtain ⟨_, _, hd, hds', _⟩ := h.pi_inv
      obtain ⟨_, _, he, hes', _⟩ := h'.pi_inv
      have hde := Value.convert_decides hΘ hS hs (n := n) hds.1 hes.1 hd he (.type _ _)
      refine (hde.and fun e => ?_).iff List.forall₂_cons.symm
      exact ih hs.bind (Nat.succ.inj hl) hds.2 hes.2 hds' (hes'.change e.symm)

end Constructions
