/-
# Arities do not depend on the arguments

The arity of a family or constructor is the number of binders of its type, counted once, when it is
declared: the binders are opened with variables.  Later the type is instantiated with any values,
and its binders may have to be computed by unfolding, application and elimination.

Replacing variables by values changes no binder into anything else, and adds none, as long as the
type ends in a universe or a former: these stay what they are (`Value.Opens.reopened_all`).

| procedure | what has the declared length |
| --- | --- |
| `Value.instantiate` | the binders that are left after some arguments |
| `Context.inferSpine` | the arguments that find a function type |
| `Context.splitTarget` | the parameters and the indices of a target |
| `motiveDomains` | the indices, and the arguments of the family at them |
| `methodType` | the fields, and the indices of the result and of each recursive field |
-/

import Constructions.Proofs.Scope.Runs

namespace Constructions

variable {S : Signature}

/-! ### Computing never runs out of binders -/

/-- **Computing does not instantiate types,** so it does not find one too short. -/
theorem eval_long (S : Signature) (n : Nat) :
    (∀ env t, Post (Term.eval S n env t) (fun _ => True) (· ≠ .violation .shortTelescope)) ∧
    (∀ f a, Post (Value.apply S n f a) (fun _ => True) (· ≠ .violation .shortTelescope)) ∧
    ∀ M ms t, Post (Value.eliminate S n M ms t) (fun _ => True)
      fun s => s.toHalt ≠ .violation .shortTelescope := by
  have hdangling {α : Type} (o : Option α) :
      Post (orDangling o) (fun _ => True) (· ≠ .violation .shortTelescope) := by
    cases o with
    | none => exact by rintro ⟨⟩
    | some a => exact trivial
  induction n with
  | zero => exact ⟨fun _ _ => by rintro ⟨⟩, fun _ _ => by rintro ⟨⟩, fun _ _ _ => by rintro ⟨⟩⟩
  | succ n ih =>
    obtain ⟨ihe, iha, ihm⟩ := ih
    have ihes (env : Env) (ts : List Term) : Post (ts.mapM fun t => t.eval S n env)
        (fun _ => True) (· ≠ .violation .shortTelescope) :=
      (Post.mapM (R := fun _ _ => True) fun t _ => ihe env t).mono (fun _ _ => trivial) fun _ h => h
    refine ⟨fun env t => ?_, fun f a => ?_, fun M ms t => ?_⟩
    · cases t with
      | var label i => exact hdangling _
      | const c => exact trivial
      | letIn label A a b => exact Post.bind (ihe env a) fun v _ _ => ihe (v :: env) b
      | type l => exact trivial
      | pi label A B => exact Post.bind (ihe env A) fun _ _ _ => trivial
      | lam label A b => exact Post.bind (ihe env A) fun _ _ _ => trivial
      | app f a =>
        exact Post.bind (ihe env f) fun g _ _ => Post.bind (ihe env a) fun v _ _ => iha g v
      | former F as => exact Post.bind (ihes env as) fun _ _ _ => trivial
      | con c as => exact Post.bind (ihes env as) fun _ _ _ => trivial
      | elim t M ms =>
        exact Post.bind (ihe env t) fun v _ _ => Post.bind (ihe env M) fun N _ _ =>
          Post.bind (ihes env ms) fun ns _ _ => .mapError (ihm N ns v)
    · cases f with
      | lam d c => exact ihe _ _
      | neutral | former | con => exact trivial
      | type | pi => exact by rintro ⟨⟩
    · cases t with
      | neutral g => exact trivial
      | con c as =>
        rw [Value.eliminate]
        refine Post.bind (.liftM (hdangling _)) fun K _ _ => ?_
        split
        · exact by rintro ⟨⟩
        refine Post.bind (.liftM (hdangling _)) fun F _ _ => ?_
        split
        · exact by rintro ⟨⟩
        split
        · exact by rintro ⟨⟩
        refine Post.bind (Post.mapM (R := fun _ _ => True) fun q _ => ?_) fun rs _ _ => ?_
        · exact Post.bind (.liftM (hdangling _)) fun a _ _ => ihm M ms a
        · exact Post.foldlM trivial fun f _ a _ => .liftM (iha f a)
      | type | pi | lam | former => exact by rintro ⟨⟩

/-- Opening the binders of a type does not find it too short: there is no number to reach. -/
theorem Value.telescope_long (S : Signature) (n level : Nat) (limit : Option Nat) (ty : Value) :
    Post (ty.telescope S n level limit) (fun _ => True) (· ≠ .violation .shortTelescope) := by
  induction n generalizing level limit ty with
  | zero => exact by rintro ⟨⟩
  | succ n ih =>
    by_cases hstop : limit ≠ some 0 → ∀ d c, ty ≠ .pi d c
    · rw [telescope_stop S n level hstop]
      exact trivial
    simp only [not_forall, not_not] at hstop
    obtain ⟨hlimit, d, c, rfl⟩ := hstop
    rw [telescope_pi S n level hlimit]
    exact Post.bind ((eval_long S n).1 _ _) fun body _ _ =>
      Post.bind (ih _ _ body) fun _ _ _ => trivial

/-! ### Opened types and arguments -/

/-- Each variable may be replaced by any value, and need not always be replaced by the same. -/
def anything : Nat → Value → Prop := fun _ _ => True

/-- A value is no function type, whatever replaces its variables. -/
def Value.Rigid (S : Signature) (v : Value) : Prop :=
  ∀ w, v.Becomes S anything w → ∀ d c, w ≠ .pi d c

theorem Value.rigid_type (S : Signature) (l : UInt64) : (Value.type l).Rigid S := by
  rintro w ⟨⟩ d c ⟨⟩

theorem Telescope.length_domains (T : Telescope) : T.domains.length = T.length := List.length_map _

/-- The binders of a telescope behind the first `k`. -/
def Telescope.drop (T : Telescope) (k : Nat) : Telescope := ⟨T.binders.drop k, T.body⟩

theorem Telescope.length_drop (T : Telescope) (k : Nat) : (T.drop k).length = T.length - k :=
  List.length_drop

theorem Telescope.domains_drop (T : Telescope) (k : Nat) :
    (T.drop k).domains = T.domains.drop k := List.map_drop

namespace Value.Opens

variable {level : Nat} {ty ty' : Value} {T T' : Telescope}

/-- Binders that are opened one after the other. -/
theorem append (h : ty.Opens S level T) (h' : T.body.Opens S (level + T.length) T') :
    ty.Opens S level ⟨T.binders ++ T'.binders, T'.body⟩ := by
  induction h with
  | stop level ty => exact h'
  | @pi level d body c T hb hT ih =>
    refine .pi hb (ih ?_)
    rw [Nat.add_right_comm, Nat.add_assoc]
    exact h'

section

variable (hS : S.waiting.Closed S)

include hS

/-- **Arguments take the places of binders.**  A type that was opened with variables takes any
arguments, up to the number of its binders, and what it leaves has the binders that are left. -/
theorem instantiate_post (h : ty.Opens S level T) (hty : ty.Becomes S anything ty')
    {args : List Value} (hl : args.length ≤ T.length) (n : Nat) :
    Post (ty'.instantiate S n args)
      (fun w => ∃ v : Value, v.Becomes S anything w ∧
        v.Opens S (level + args.length) (T.drop args.length))
      (· ≠ .violation .shortTelescope) := by
  induction h generalizing ty' args with
  | stop level ty =>
    obtain rfl := List.length_eq_zero_iff.1 (Nat.le_zero.1 hl)
    exact ⟨ty, hty, .stop level ty⟩
  | @pi level d body c T hb hT ih =>
    cases args with
    | nil => exact ⟨_, hty, .pi hb hT⟩
    | cons a args =>
      cases hty with
      | @pi _ _ _ c' _ hc =>
        refine Post.bind ((eval_long S n).1 (a :: c'.env) c'.body) fun w hw _ => ?_
        have hbody := hc.instantiate hS trivial hb hw
        have hrest := ih hbody (Nat.le_of_succ_le_succ hl)
        rw [Nat.add_right_comm, Nat.add_assoc] at hrest
        exact hrest

/-- **A type that is opened again has the same binders**, whatever replaces its variables, if it
ends in what is rigid. -/
theorem opened_alike (h : ty.Opens S level T) (hty : ty.Becomes S anything ty')
    (hrigid : T.body.Rigid S) {level' : Nat} (h' : ty'.Opens S level' T')
    (hstop : ∀ d c, T'.body ≠ .pi d c) :
    List.Forall₂ (Value.Becomes S anything) T.domains T'.domains ∧
      T.body.Becomes S anything T'.body := by
  induction h generalizing ty' level' T' with
  | stop level ty =>
    cases h' with
    | stop => exact ⟨.nil, hty⟩
    | pi => exact absurd rfl (hrigid _ hty _ _)
  | pi hb _ ih =>
    cases hty with
    | pi hd hc =>
      cases h' with
      | stop => exact absurd rfl (hstop _ _)
      | pi hb' h' =>
        obtain ⟨N, hN⟩ := hb'
        have hbody := hc.instantiate hS trivial hb (hN N (Nat.le_refl N))
        obtain ⟨hdomains, hend⟩ := ih hbody hrigid h' hstop
        exact ⟨.cons hd hdomains, hend⟩

/-- Opening without a limit. -/
theorem reopened_all (h : ty.Opens S level T) (hty : ty.Becomes S anything ty')
    (hrigid : T.body.Rigid S) {n level' : Nat} (hT' : ty'.telescope S n level' none = .ok T') :
    T'.length = T.length ∧ T.body.Becomes S anything T'.body := by
  obtain ⟨hopens, _, hall⟩ := Value.telescope_opens hT'
  obtain ⟨hdomains, hend⟩ := h.opened_alike hS hty hrigid hopens (hall (by rintro ⟨⟩))
  have hlength := hdomains.length_eq
  rw [T.length_domains, T'.length_domains] at hlength
  exact ⟨hlength.symm, hend⟩

end

end Value.Opens

/-- A type has an arity: it takes any values for its first binders, up to the arity, and what it
leaves has the binders that are left, at any level, before an end of a kind. -/
structure Value.Takes (S : Signature) (ty : Value) (arity : Nat) (End : Value → Prop) : Prop where
  enough : ∀ n vs, vs.length ≤ arity → ty.instantiate S n vs ≠ .error (.violation .shortTelescope)
  binders : ∀ {n vs w}, vs.length ≤ arity → ty.instantiate S n vs = .ok w →
    ∀ {m level T}, w.telescope S m level none = .ok T →
      T.length = arity - vs.length ∧ End T.body

/-- **A type that was opened with variables has an arity.** -/
theorem Value.Opens.takes (hS : S.waiting.Closed S) {ty : Value} {T : Telescope}
    (h : ty.Opens S 0 T) (hty : ty.All S.waiting) {End : Value → Prop} (hrigid : T.body.Rigid S)
    (hend : ∀ w, T.body.Becomes S anything w → End w) : ty.Takes S T.length End where
  enough n vs hl he := (h.instantiate_post hS hty.becomes_closed hl n).of_error he rfl
  binders {n vs w} hl hw {m level T'} hT' := by
    obtain ⟨v, hvw, hv⟩ := (h.instantiate_post hS hty.becomes_closed hl n).of_ok hw
    obtain ⟨hlength, hbody⟩ := hv.reopened_all hS hvw hrigid hT'
    exact ⟨hlength.trans (T.length_drop vs.length), hend _ hbody⟩

/-! ### Declared arities -/

/-- The family with all its arguments. -/
def Value.Fills (F : Family) (v : Value) : Prop :=
  ∃ as, v = .former F.id as ∧ as.length = F.arity

namespace Value.Fills

variable {F : Family} {v w : Value}

theorem becomes {σ : Nat → Value → Prop} (h : v.Fills F) (hvw : v.Becomes S σ w) : w.Fills F := by
  obtain ⟨as, rfl, hl⟩ := h
  cases hvw with
  | former _ has => exact ⟨_, rfl, has.length_eq ▸ hl⟩

theorem rigid (h : v.Fills F) : v.Rigid S := by
  intro w hw d c e
  obtain ⟨as, rfl, _⟩ := h.becomes hw
  cases e

/-- There is an argument for each index. -/
theorem indices (h : v.Fills F) :
    ∃ is, v.indices F.parameterCount = .ok is ∧ is.length = F.indexCount := by
  obtain ⟨as, rfl, hl⟩ := h
  have hle : F.parameterCount ≤ as.length := hl ▸ Nat.le_add_right _ _
  refine ⟨as.drop F.parameterCount, if_pos hle, ?_⟩
  rw [List.length_drop, hl, Family.arity, Nat.add_sub_cancel_left]

end Value.Fills

/-- The type of a family opens to as many binders as its arity says, and ends in a universe. -/
def Family.Measured (S : Signature) (F : Family) : Prop :=
  ∃ T u, F.type.Opens S 0 T ∧ T.length = F.arity ∧ T.body = .type u

/-- The type of a constructor of `F` opens to as many binders as its arity says, and ends in the
family, as its recursive fields do. -/
def Constructor.Measured (S : Signature) (F : Family) (K : Constructor) : Prop :=
  ∃ T, K.type.Opens S 0 T ∧ T.length = K.arity ∧ T.body.Fills F ∧
    ∀ q ∈ K.recursiveFields, ∃ d, T.domains[q]? = some d ∧ d.Fills F

namespace Signature

/-- The arities of all families and constructors are the numbers of their binders. -/
structure Measured (S : Signature) : Prop where
  family : ∀ {id F}, S.family? id = some F → F.Measured S
  constructor : ∀ {id K}, S.constructor? id = some K →
    ∃ F, S.family? K.family = some F ∧ K.Measured S F

variable {Θ : Theory} {S' : Signature} {n : Nat}

/-- **The checks of a constructor count its binders.** -/
theorem ConstructorChecks.measured {F : Family} {name : Name} {type : Term} {A : Value}
    {P E T : Telescope} {r : List Nat} (hc : S.ConstructorChecks n F name type A P E T r)
    (id : ConstructorId) :
    Constructor.Measured S F ⟨id, name, F.id, F.parameterCount, T.length, r, A⟩ := by
  have hfills {level : Nat} {v : Value}
      (hu : S.isUniform n F P.parameters level v = .ok true) : v.Fills F := by
    obtain ⟨as, rfl, hlength, _⟩ := isUniform_eq_true hu
    exact ⟨as, rfl, hlength⟩
  have hP := (Value.telescope_opens hc.parameters).1
  have hT := (Value.telescope_opens hc.fields).1
  have hlength : P.domains.length = F.parameterCount := P.length_domains.trans hc.length
  refine ⟨⟨P.binders ++ T.binders, T.body⟩, hP.append ?_, ?_, hfills hc.target, fun q hq => ?_⟩
  · rwa [Nat.zero_add, hc.length]
  · exact List.length_append.trans (congrArg (· + T.length) hc.length)
  · obtain ⟨hle, d, hd, hu⟩ := hc.recursive_domain hq
    refine ⟨d, ?_, hfills hu⟩
    have hdomains : Telescope.domains ⟨P.binders ++ T.binders, T.body⟩ = P.domains ++ T.domains :=
      List.map_append
    rw [hdomains, List.getElem?_append_right (hlength ▸ hle), hlength]
    exact hd

namespace Measured

/-- **More may be declared** if what is new is measured. -/
theorem grow (h : S.Measured) (hM : Θ.Models S) (hle : S.Le S')
    (hfamily : ∀ {id F'}, S'.family? id = some F' → (∃ F, S.family? id = some F) ∨
      F'.Measured S ∧ F'.type.All S.declared)
    (hconstructor : ∀ {id K}, S'.constructor? id = some K → S.constructor? id = some K ∨
      (∃ F, S.family? K.family = some F ∧ K.Measured S F) ∧ K.type.All S.declared) :
    S'.Measured where
  family {id F'} hF' := by
    obtain ⟨F, hF⟩ | ⟨⟨T, u, hT, hrest⟩, hall⟩ := hfamily hF'
    · obtain ⟨T, u, hT, hrest⟩ := h.family hF
      obtain ⟨state, hkept, _⟩ := hle.family hF
      cases hF'.symm.trans hkept
      exact ⟨T, u, (hT.mono hM hle ((hM.grounded.family hF).mono S.leaves_le_declared)).1, hrest⟩
    · exact ⟨T, u, (hT.mono hM hle hall).1, hrest⟩
  constructor {id K} hK := by
    have hkept : (∃ F, S.family? K.family = some F ∧ K.Measured S F) ∧ K.type.All S.declared := by
      obtain hK | hK := hconstructor hK
      · exact ⟨h.constructor hK, (hM.grounded.constructor hK).mono S.leaves_le_declared⟩
      · exact hK
    obtain ⟨⟨F, hF, T, hT, hrest⟩, hall⟩ := hkept
    obtain ⟨state, hF', _⟩ := hle.family hF
    exact ⟨_, hF', T, (hT.mono hM hle hall).1, hrest⟩

/-- **A declaration measures what it declares.** -/
theorem step (h : S.Measured) (hreg : S.Registered) (hΘ : S.Coherent Θ) (e : Step S S') :
    S'.Measured := by
  have hM := hΘ.models
  refine h.grow hM (e.le hΘ) (fun hF' => ?_) fun {id K} hK => ?_
  · obtain ⟨F, hF, _⟩ | ⟨n, type, T, l, hA, hT, hlength, hl⟩ := e.family_cases hreg hF'
    · exact .inl ⟨F, hF⟩
    · exact .inr ⟨⟨T, l, (Value.telescope_opens hT).1, hlength, hl⟩,
        (admitType_eq_ok hM hA).1.mono S.leaves_le_declared⟩
  · refine (e.constructor_cases hreg hK).imp_right ?_
    rintro ⟨n, F, name, type, A, P, E, T, r, hF, hc, rfl⟩
    exact ⟨⟨F, hF, hc.measured id⟩, (admitType_eq_ok hM hc.type).1.mono S.leaves_le_declared⟩

end Measured

/-- **Arities are numbers of binders**, after any declarations. -/
theorem Reachable.measured (h : S.Reachable) : S.Measured := by
  induction h with
  | refl => exact ⟨by rintro id F ⟨⟩, by rintro id K ⟨⟩⟩
  | tail hS e ih =>
    obtain ⟨Θ, hΘ⟩ := Reachable.coherent hS
    exact ih.step (Reachable.registered hS) hΘ e

/-- What a family or constructor stores has no variables. -/
theorem Reachable.waiting_family (h : S.Reachable) {id : FamilyId} {F : Family}
    (hF : S.family? id = some F) : F.type.All S.waiting := by
  obtain ⟨Θ, hΘ⟩ := h.coherent
  exact (hΘ.models.grounded.family hF).mono S.leaves_le_waiting

end Signature

/-! ### Spines -/

namespace Context

variable {Γ : Context}

/-- If an error is about something that is not a function, then it was met while one of the
arguments was checked. -/
def Blames (Γ : Context) (as : List Term) (s : Stop KernelError) : Prop :=
  ∀ t, s = .error (.type (.expectedFunction t)) →
    ∃ a ∈ as, ∃ m d, Context.check m Γ a d = .error s

theorem Blames.halt {as : List Term} (h : Halt) : Γ.Blames as (.halt h) := by
  rintro t ⟨⟩

/-- What has no result but for a halt is not about a function. -/
theorem Blames.liftM {α : Type} {as : List Term} (x : Except Halt α) :
    Post (liftM x : Check α) (fun _ => True) (Γ.Blames as) := by
  cases x with
  | ok a => exact trivial
  | error h => exact Blames.halt h

variable (hS : Γ.signature.waiting.Closed Γ.signature)

include hS

/-- **An argument for a binder.**  The type is a function type, so only the argument is at fault. -/
theorem inferArgument_post {level : Nat} {d body w : Value} {c : Closure}
    (hb : Settles (fun m => c.enter Γ.signature m level) body)
    (hw : (Value.pi d c).Becomes Γ.signature anything w) (a : Term) (n : Nat) :
    Post (Context.inferArgument n Γ w a) (fun w' => body.Becomes Γ.signature anything w')
      (Γ.Blames [a]) := by
  cases n with
  | zero => exact Blames.halt _
  | succ n =>
    cases hw with
    | @pi _ d' _ c' _ hc =>
      refine Post.bind (P := fun _ => True) ?_ fun _ _ _ => ?_
      · cases hcheck : Context.check n Γ a d' with
        | ok u => exact trivial
        | error s => exact fun t _ => ⟨a, List.mem_singleton_self a, n, d', hcheck⟩
      · refine Post.bind (Blames.liftM _) fun v _ _ => ?_
        refine .intro (fun w' hw' => ?_) fun s hs => (Blames.liftM _).of_error hs
        exact hc.instantiate hS trivial hb (liftM_eq_ok.1 hw')

/-- **Arguments for the binders of a type**, one after the other. -/
theorem spine_post {level : Nat} {v w : Value} {T : Telescope} (h : v.Opens Γ.signature level T)
    (hvw : v.Becomes Γ.signature anything w) {as : List Term} (hl : as.length ≤ T.length)
    (n : Nat) :
    Post (as.foldlM (fun type a => Context.inferArgument n Γ type a) w) (fun _ => True)
      (Γ.Blames as) := by
  induction h generalizing w as with
  | stop level ty =>
    obtain rfl := List.length_eq_zero_iff.1 (Nat.le_zero.1 hl)
    exact trivial
  | @pi level d body c T hb _ ih =>
    cases as with
    | nil => exact trivial
    | cons a as =>
      rw [List.foldlM_cons]
      refine Post.bind ((inferArgument_post hS hb hvw a n).mono (fun _ h => h) fun s hs t ht => ?_)
        fun w' _ hw' => (ih hw' (Nat.le_of_succ_le_succ hl)).mono (fun _ h => h) fun s hs t ht => ?_
      · obtain ⟨b, hb, hchecked⟩ := hs t ht
        exact ⟨b, List.mem_cons.2 (.inl (List.mem_singleton.1 hb)), hchecked⟩
      · obtain ⟨b, hb, hchecked⟩ := hs t ht
        exact ⟨b, List.mem_cons_of_mem a hb, hchecked⟩

/-- **Within the arity, no function type is missing.** -/
theorem inferSpine_post {ty : Value} {T : Telescope} (h : ty.Opens Γ.signature 0 T)
    (hty : ty.All Γ.signature.waiting) (as : List Term) (n : Nat) :
    Post (Context.inferSpine n Γ T.length ty as) (fun _ => True) (Γ.Blames as) := by
  cases n with
  | zero => exact Blames.halt _
  | succ n =>
    rw [Context.inferSpine]
    split
    · rintro t ⟨⟩
    · next hl => exact spine_post hS h hty.becomes_closed (Nat.not_lt.1 hl) n

omit hS in
theorem length_of_splitTarget {n : Nat} {type : Value} {F : Family} {ps is : List Value}
    (h : Γ.splitTarget n type = .ok (F, ps, is)) :
    ps.length = F.parameterCount ∧ is.length = F.indexCount := by
  unfold splitTarget at h
  split at h
  · next id as =>
    obtain ⟨G, _, h⟩ := bind_eq_ok.1 h
    split at h
    · next hl =>
      cases h
      rw [List.length_take, List.length_drop, hl, Family.arity]
      omega
    · obtain ⟨_, _, h⟩ := bind_eq_ok.1 h
      cases h
  · obtain ⟨_, _, h⟩ := bind_eq_ok.1 h
    cases h

end Context

/-! ### Motives and methods -/

/-- The domains of a motive are one for each index, and the family with all its arguments. -/
def MotiveShape (F : Family) (ds : List Value) : Prop :=
  ∃ is, ∃ v : Value, ds = is ++ [v] ∧ is.length = F.indexCount ∧ v.Fills F

theorem motiveDomains_shape {F : Family} {u : UInt64}
    (h : F.type.Takes S F.arity (· = .type u)) {ps : List Value}
    (hps : ps.length = F.parameterCount) (n level : Nat) :
    Post (motiveDomains S n level F ps) (MotiveShape F) (· ≠ .violation .shortTelescope) := by
  have hle : ps.length ≤ F.arity := hps ▸ Nat.le_add_right _ _
  refine Post.bind (P := fun _ => True) (.intro (fun _ _ => trivial) fun e he hshort => ?_)
    fun w hw _ => ?_
  · exact h.enough n ps hle (hshort ▸ he)
  refine Post.bind (Value.telescope_long S n level none w) fun T hT _ => ?_
  obtain ⟨hlength, _⟩ := h.binders hle hw hT
  rw [hps, Family.arity, Nat.add_sub_cancel_left] at hlength
  refine ⟨T.domains, _, rfl, T.length_domains.trans hlength, ps ++ T.parameters, rfl, ?_⟩
  rw [List.length_append, hps, Telescope.parameters, List.length_map]
  exact congrArg (F.parameterCount + ·) hlength

/-- The opened fields of a constructor of `F` are as many as it has, and its result and its
recursive fields have the indices of the family. -/
structure FieldsShape (F : Family) (K : Constructor) (T : Telescope) : Prop where
  length : T.length = K.fieldCount
  result : ∃ is, T.body.indices K.parameterCount = .ok is ∧ is.length = F.indexCount
  recursive : ∀ q ∈ K.recursiveFields, ∃ b is, T.binders[q - K.parameterCount]? = some b ∧
    b.domain.indices K.parameterCount = .ok is ∧ is.length = F.indexCount

theorem fieldsShape_of_measured (hS : S.waiting.Closed S) {F : Family} {K : Constructor}
    (hK : K.Measured S F) (htype : K.type.All S.waiting)
    (hcount : K.parameterCount = F.parameterCount)
    (hge : ∀ q ∈ K.recursiveFields, K.parameterCount ≤ q) {ps : List Value}
    (hps : ps.length = K.parameterCount) {n m level : Nat} {w : Value}
    (hw : K.type.instantiate S n ps = .ok w) {T : Telescope}
    (hT : w.telescope S m level (some K.fieldCount) = .ok T) : FieldsShape F K T := by
  obtain ⟨T₀, hT₀, hlength, hend, hrecursive⟩ := hK
  have hle : ps.length ≤ T₀.length := by
    rw [hlength, hps]
    exact Nat.le_add_right _ _
  obtain ⟨v, hvw, hv⟩ := (hT₀.instantiate_post hS htype.becomes_closed hle n).of_ok hw
  have hfields : (T₀.drop ps.length).length = K.fieldCount := by
    rw [T₀.length_drop, hlength, hps, Constructor.arity, Nat.add_sub_cancel_left]
  rw [← hfields] at hT
  obtain ⟨hdomains, hbody⟩ := hv.reopened hS hvw (fun _ _ _ => trivial) hT
  refine ⟨?_, ?_, fun q hq => ?_⟩
  · have hlengths := hdomains.length_eq
    rw [Telescope.length_domains, Telescope.length_domains] at hlengths
    exact hlengths.symm.trans hfields
  · rw [hcount]
    exact (hend.becomes hbody).indices
  · obtain ⟨d, hd, hfills⟩ := hrecursive q hq
    have hd' : (T₀.drop ps.length).domains[q - K.parameterCount]? = some d := by
      rw [T₀.domains_drop, List.getElem?_drop, hps, Nat.add_sub_cancel' (hge q hq), hd]
    obtain ⟨e, he, hde⟩ := forall₂_getElem? hdomains hd'
    obtain ⟨b, hb, rfl⟩ := Option.map_eq_some_iff.1 (List.getElem?_map ▸ he)
    obtain ⟨is, his⟩ := (hfills.becomes hde).indices
    exact ⟨b, is, hb, hcount ▸ his⟩

/-! ### Main result -/

namespace Signature

/-- The arities of families and constructors hold for any arguments, and the procedures that rely on
them find what they expect. -/
structure StableArities (S : Signature) : Prop where
  family : ∀ {id F}, S.family? id = some F → ∃ u, F.type.Takes S F.arity (· = .type u)
  constructor : ∀ {id K}, S.constructor? id = some K →
    ∃ F, S.family? K.family = some F ∧ K.type.Takes S K.arity (·.Fills F)
  formerSpine : ∀ {Γ : Context}, Γ.signature = S → ∀ {id F}, S.family? id = some F → ∀ n as,
    Post (Context.inferSpine n Γ F.arity F.type as) (fun _ => True) (Γ.Blames as)
  conSpine : ∀ {Γ : Context}, Γ.signature = S → ∀ {id K}, S.constructor? id = some K → ∀ n as,
    Post (Context.inferSpine n Γ K.arity K.type as) (fun _ => True) (Γ.Blames as)
  target : ∀ {Γ : Context} {n type F ps is}, Γ.splitTarget n type = .ok (F, ps, is) →
    ps.length = F.parameterCount ∧ is.length = F.indexCount
  motive : ∀ {id F}, S.family? id = some F → ∀ {ps}, ps.length = F.parameterCount → ∀ n level,
    Post (motiveDomains S n level F ps) (MotiveShape F) (· ≠ .violation .shortTelescope)
  method : ∀ {id K}, S.constructor? id = some K → ∃ F, S.family? K.family = some F ∧
    ∀ {ps}, ps.length = K.parameterCount → ∀ {n w}, K.type.instantiate S n ps = .ok w →
      ∀ {m level T}, w.telescope S m level (some K.fieldCount) = .ok T → FieldsShape F K T

/-- **Arities are stable under instantiation.**  In a reachable signature, the type of a family or
constructor takes any values for its binders, up to the arity, and is never found too short.
Opening what it leaves finds exactly the binders that are left, and then the universe of the family,
or the family of the constructor with all its arguments.  So no function type is missing in a spine,
and targets, motives and methods have the parameters, indices and fields that were declared. -/
theorem Reachable.stableArities (h : S.Reachable) : S.StableArities := by
  have hS := h.wellScoped.waiting
  have hmeasured := h.measured
  have hfamily {id : FamilyId} {F : Family} (hF : S.family? id = some F) :
      ∃ u, F.type.Takes S F.arity (· = .type u) := by
    obtain ⟨T, u, hT, hlength, hend⟩ := hmeasured.family hF
    refine ⟨u, hlength ▸ hT.takes hS (h.waiting_family hF) (hend ▸ Value.rigid_type S u) ?_⟩
    rw [hend]
    rintro w ⟨⟩
    rfl
  exact
    { family := hfamily
      constructor := fun {id K} hK => by
        obtain ⟨F, hF, T, hT, hlength, hend, _⟩ := hmeasured.constructor hK
        exact ⟨F, hF, hlength ▸ hT.takes hS (h.wellScoped.closed hK) hend.rigid
          fun _ => hend.becomes⟩
      formerSpine := fun {Γ} hΓ {id F} hF n as => by
        subst hΓ
        obtain ⟨T, u, hT, hlength, _⟩ := hmeasured.family hF
        exact hlength ▸ Context.inferSpine_post hS hT (h.waiting_family hF) as n
      conSpine := fun {Γ} hΓ {id K} hK n as => by
        subst hΓ
        obtain ⟨F, _, T, hT, hlength, _⟩ := hmeasured.constructor hK
        exact hlength ▸ Context.inferSpine_post hS hT (h.wellScoped.closed hK) as n
      target := Context.length_of_splitTarget
      motive := fun {id F} hF {ps} hps n level => by
        obtain ⟨u, htakes⟩ := hfamily hF
        exact motiveDomains_shape htakes hps n level
      method := fun {id K} hK => by
        obtain ⟨F, hF, hKF⟩ := hmeasured.constructor hK
        obtain ⟨G, hG, hcount⟩ := h.registered.parameters hK
        cases hF.symm.trans hG
        refine ⟨F, hF, fun {ps} hps {n w} hw {m level T} hT => ?_⟩
        exact fieldsShape_of_measured hS hKF (h.wellScoped.closed hK) hcount
          (fun q hq => ((h.registered.recursive hK).2 q hq).1) hps hw hT }

/-- Vectors with one entry: `single : |A : Type| -> (|B : Type| B -> Vec B (succ zero)) A`, whose
second binder has to be computed. -/
def singletons : Signature :=
  vectors.run [(30, .declareConstructor "Vec" "single" (.pi (some "A") (.type 0)
    (.app (.lam (some "B") (.type 0) (.pi none (.var (some "B") 0)
      (.former ⟨1⟩ [.var (some "B") 1, .con ⟨1⟩ [.con ⟨0⟩ []]]))) (.var (some "A") 0))))]

/-- A number in the place of a type still leaves one binder, and then the family. -/
theorem singletons_stableArities : singletons.Reachable ∧ singletons.StableArities ∧
    ∃ K F w T, singletons.constructor? ⟨2⟩ = some K ∧ singletons.family? K.family = some F ∧
      K.type.instantiate singletons 30 [.con ⟨0⟩ []] = .ok w ∧
      w.telescope singletons 30 4 none = .ok T ∧ T.length = 1 ∧ T.body.Fills F := by
  have hS : singletons.Reachable := reachable_vectors.trans (steps_run vectors _)
  have hstable := hS.stableArities
  obtain ⟨K, w, T, hK, harity, hw, hT⟩ : ∃ K w T, singletons.constructor? ⟨2⟩ = some K ∧
      K.arity = 2 ∧ K.type.instantiate singletons 30 [.con ⟨0⟩ []] = .ok w ∧
      w.telescope singletons 30 4 none = .ok T := ⟨_, _, _, rfl, rfl, rfl, rfl⟩
  obtain ⟨F, hF, htakes⟩ := hstable.constructor hK
  rw [harity] at htakes
  exact ⟨hS, hstable, K, F, w, T, hK, hF, hw, hT, htakes.binders (by decide) hw hT⟩

end Signature

end Constructions
