/-
# Methods are used at the types they are checked against

The type of a method is built once, with variables for the fields of the constructor: the
domains of the fields, the motive at each recursive field and the motive at the construction are
read back as one function type, which is computed in the context (`methodType`).  An elimination
applies the method to the fields of a construction and to the results for its recursive fields.
Then the binders of the type are instantiated with these arguments, and what is found behind them
is read back like the type that the argument has (`MethodFits`).

Both sides come from one value with variables for the fields.  On one side it is read back and
computed again with the arguments in the environment; on the other side its variables are replaced
by the arguments (`Value.Becomes.readsAlike`).

Reading back and computing again replaces the variable of a local definition by what it stands
for.  So the parameters and the motive may only have variables that stand for themselves
(`Context.Holds`), as all values have that are computed in the context
(`Context.Assembled.eval_holds`).
-/

import Constructions.Proofs.Parametricity.Reading
import Constructions.Proofs.Scope.Runs

namespace Constructions

variable {Θ : Theory} {S : Signature} {env : Env} {level : Nat}

theorem Value.Alls.of_subset {L : Leaves} {vs ws : List Value} (h : Value.Alls L ws)
    (hsub : vs ⊆ ws) : Value.Alls L vs :=
  Value.alls_iff.2 fun v hv => Value.alls_iff.1 h v (hsub hv)

/-! ### Instantiating -/

theorem Value.instantiate_append (S : Signature) (n : Nat) (ty : Value) (as bs : List Value) :
    ty.instantiate S n (as ++ bs) = ty.instantiate S n as >>= fun v => v.instantiate S n bs :=
  List.foldlM_append

theorem Value.instantiate_cons_eq_ok {n : Nat} {ty v a : Value} {as : List Value}
    (h : ty.instantiate S n (a :: as) = .ok v) :
    ∃ d c w, ty = .pi d c ∧ c.instantiate S n a = .ok w ∧ w.instantiate S n as = .ok v := by
  cases ty with
  | pi d c =>
    obtain ⟨w, hw, h⟩ := bind_eq_ok.1 h
    exact ⟨d, c, w, rfl, hw, h⟩
  | neutral | type | lam | former | con => cases h

theorem Value.instantiate_unique {n m : Nat} {ty v w : Value} {as : List Value}
    (hv : ty.instantiate S n as = .ok v) (hw : ty.instantiate S m as = .ok w) : v = w := by
  induction as generalizing ty with
  | nil => exact Except.ok.inj (hv.symm.trans hw)
  | cons a as ih =>
    obtain ⟨d, c, b, rfl, hb, hv⟩ := Value.instantiate_cons_eq_ok hv
    obtain ⟨_, _, b', ⟨⟩, hb', hw⟩ := Value.instantiate_cons_eq_ok hw
    obtain rfl : b = b' := Term.eval_unique hb hb'
    exact ih hv hw

theorem Value.instantiate_all {L : Leaves} (hL : L.Closed S) {n : Nat} {ty v : Value}
    {as : List Value} (hty : ty.All L) (has : Value.Alls L as)
    (h : ty.instantiate S n as = .ok v) : v.All L := by
  induction as generalizing ty with
  | nil => exact Except.ok.inj h ▸ hty
  | cons a as ih =>
    obtain ⟨d, c, w, rfl, hw, h⟩ := Value.instantiate_cons_eq_ok h
    exact ih (Closure.instantiate_all hL hty.2 has.1 hw) has.2 h

/-- **Binders that were read back are instantiated.**  Each argument goes to the environment, and
the binders behind the arguments are left. -/
theorem readBackPis_instantiate {n e m : Nat} {binders : List (Label × Value)}
    {body : Except Halt Term} {t : Term} {v X : Value} {args : List Value}
    (ht : readBackPis S n level binders body = .ok t) (hv : t.eval S e env = .ok v)
    (hle : args.length ≤ binders.length) (hX : v.instantiate S m args = .ok X) :
    ∃ t' k, readBackPis S n (level + args.length) (binders.drop args.length) body = .ok t' ∧
      t'.eval S k (args.reverse ++ env) = .ok X := by
  induction args generalizing level env binders t v e with
  | nil =>
    cases hX
    exact ⟨t, e, ht, hv⟩
  | cons a args ih =>
    cases binders with
    | nil => cases hle
    | cons b binders =>
      obtain ⟨label, domain⟩ := b
      obtain ⟨b, hb, ht⟩ := bind_eq_ok.1 ht
      obtain ⟨d, _, ht⟩ := bind_eq_ok.1 ht
      cases ht
      cases e with
      | zero => cases hv
      | succ e =>
        obtain ⟨D, _, hv⟩ := bind_eq_ok.1 hv
        cases hv
        obtain ⟨_, _, w, ⟨⟩, hw, hX⟩ := Value.instantiate_cons_eq_ok hX
        obtain ⟨t', k, ht', hk⟩ := ih hb hw (Nat.le_of_succ_le_succ hle) hX
        refine ⟨t', k, ?_, ?_⟩
        · rwa [Nat.add_right_comm] at ht'
        · rwa [List.reverse_cons, List.append_assoc]

/-- The domain of a binder that was read back, for arguments in place of the binders before. -/
theorem readBackPis_domain {n e m : Nat} {binders : List (Label × Value)}
    {body : Except Halt Term} {t : Term} {v X d : Value} {label : Label} {args : List Value}
    (ht : readBackPis S n level binders body = .ok t) (hv : t.eval S e env = .ok v)
    (hd : binders[args.length]? = some (label, d)) (hX : v.instantiate S m args = .ok X) :
    ∃ D w c k, d.readBack S n (level + args.length) = .ok D ∧ X = .pi w c ∧
      D.eval S k (args.reverse ++ env) = .ok w := by
  have hlt := (List.getElem?_eq_some_iff.1 hd).1
  obtain ⟨t', k, ht', hk⟩ := readBackPis_instantiate ht hv (Nat.le_of_lt hlt) hX
  rw [List.drop_eq_getElem?_toList_append, hd] at ht'
  obtain ⟨b, hb, ht'⟩ := bind_eq_ok.1 ht'
  obtain ⟨D, hD, ht'⟩ := bind_eq_ok.1 ht'
  cases ht'
  cases k with
  | zero => cases hk
  | succ k =>
    obtain ⟨w, hw, hk⟩ := bind_eq_ok.1 hk
    cases hk
    exact ⟨D, w, _, k, hD, rfl, hw⟩

/-! ### Opening -/

/-- **What is opened at a level** has variables below it, and those of the binders before. -/
theorem Value.Opens.all (hS : S.waiting.Closed S) {ty : Value} {T : Telescope}
    (h : ty.Opens S level T) (hty : ty.All (S.waitingAt (.below level))) :
    (∀ (i : Nat) (d : Value), T.domains[i]? = some d →
      d.All (S.waitingAt (.below (level + i)))) ∧
    Value.Alls (S.waitingAt (.below (level + T.length))) T.parameters ∧
    T.body.All (S.waitingAt (.below (level + T.length))) := by
  induction h with
  | stop level ty => exact ⟨fun i d hd => (nomatch hd), trivial, hty⟩
  | @pi level d body c T hb _ ih =>
    obtain ⟨N, hN⟩ := hb
    have hbody : body.All (S.waitingAt (.below (level + 1))) :=
      (Closure.enter_all_bind (Signature.waitingAt_closed hS _) hty.2
        (hN N (Nat.le_refl N))).mono (S.waitingAt_bind level)
    obtain ⟨hdomains, hparameters, hrest⟩ := ih hbody
    have hlength : level + 1 + T.length = level + (T.length + 1) := by omega
    rw [hlength] at hparameters hrest
    refine ⟨fun i e he => ?_, ⟨?_, hparameters⟩, hrest⟩
    · cases i with
      | zero =>
        cases he
        exact hty.1
      | succ i =>
        have := hdomains i e he
        rwa [show level + 1 + i = level + (i + 1) by omega] at this
    · exact show level < level + (T.length + 1) by omega

/-! ### The type of a method -/

theorem methodType_eq_ok {n : Nat} {K : Constructor} {ps : List Value} {M T : Value}
    (h : methodType S n level env K ps M = .ok T) :
    ∃ ty fields hyps R t, K.type.instantiate S n ps = .ok ty ∧
      ty.telescope S n level (some K.fieldCount) = .ok fields ∧
      List.Forall₂ (fun q h => hypothesis S n K.parameterCount fields M q = .ok h)
        K.recursiveFields hyps ∧
      motiveAt S n K.parameterCount M fields.body (.con K.id (ps ++ fields.parameters)) = .ok R ∧
      readBackPis S n level (fields.binders.map (fun b => (b.label, b.domain)) ++
        hyps.map (none, ·)) (R.readBack S n (level + (fields.length + hyps.length))) = .ok t ∧
      t.eval S n env = .ok T := by
  obtain ⟨ty, hty, h⟩ := bind_eq_ok.1 h
  obtain ⟨fields, hfields, h⟩ := bind_eq_ok.1 h
  obtain ⟨hyps, hhyps, h⟩ := bind_eq_ok.1 h
  obtain ⟨R, hR, h⟩ := bind_eq_ok.1 h
  obtain ⟨t, ht, h⟩ := bind_eq_ok.1 h
  refine ⟨ty, fields, hyps, R, t, hty, hfields, mapM_eq_ok.1 hhyps, hR, ?_, h⟩
  rwa [List.length_append, List.length_map, List.length_map] at ht

/-- A motive at indices and at an element has no other variables. -/
theorem Value.applyAll_drop_all (hS : S.waiting.Closed S) {L : Levels} {n p : Nat} {f a v : Value}
    {as : List Value} (hf : f.All (S.waitingAt L)) (has : Value.Alls (S.waitingAt L) as)
    (ha : a.All (S.waitingAt L)) (hv : f.applyAll S n (as.drop p ++ [a]) = .ok v) :
    v.All (S.waitingAt L) := by
  have hlast : Value.Alls (S.waitingAt L) [a] := ⟨ha, trivial⟩
  exact Value.applyAll_all (Value.apply_all (Signature.waitingAt_closed hS L)) hf
    (Value.alls_append.2 ⟨has.of_subset (List.drop_subset p as), hlast⟩) hv

/-! ### Opened fields -/

/-- The fields of a constructor, opened in an environment for parameters of its scope. -/
structure Constructor.Opened (S : Signature) (env : Env) (K : Constructor) (ps : List Value)
    (ty : Value) (T : Telescope) : Prop where
  instantiated : ∃ n, K.type.instantiate S n ps = .ok ty
  all : ty.All (S.waitingAt (Env.fixed env))
  opens : ty.Opens S env.length T
  length : T.length = K.fieldCount
  body : T.body.Covers K.family K.parameterCount
  recursive : ∀ q ∈ K.recursiveFields, ∃ b, T.binders[q - K.parameterCount]? = some b ∧
    b.domain.Covers K.family K.parameterCount

namespace Constructor.Opened

variable {K : Constructor} {ps args as : List Value} {ty : Value} {T : Telescope}

theorem of_telescope (hS : S.WellScoped) {id : ConstructorId} (hK : S.constructor? id = some K)
    (hps : Value.Alls (S.waitingAt (Env.fixed env)) ps) (hlength : ps.length = K.parameterCount)
    {n : Nat} (hty : K.type.instantiate S n ps = .ok ty)
    (hT : ty.telescope S n env.length (some K.fieldCount) = .ok T) : K.Opened S env ps ty T := by
  obtain ⟨hcount, hbody, hrecursive⟩ :=
    (hS.shaped hK).reopened hS.waiting (hS.closed hK) hlength hty hT
  refine ⟨⟨n, hty⟩, ?_, (Value.telescope_opens hT).1, hcount, hbody, hrecursive⟩
  exact Value.instantiate_all (Signature.waitingAt_closed hS.waiting _)
    ((hS.closed hK).mono (S.waiting_le _)) hps hty

variable (h : K.Opened S env ps ty T)

include h

/-- The parameters stay as they are when arguments are put behind the environment. -/
theorem self (args : List Value) : ty.Becomes S (Env.Gives (args.reverse ++ env)) ty :=
  h.all.becomes fun label _ hl => Env.gives_fixed label hl

theorem below : ty.All (S.waitingAt (.below env.length)) :=
  h.all.mono (Signature.waitingAt_le fun _ => Env.fixed_below)

/-- What is opened has variables of the environment and of arguments in place of the fields. -/
theorem all_below (hS : S.waiting.Closed S) (args : List Value)
    (hle : K.fieldCount ≤ args.length) :
    (∀ (i : Nat) (d : Value), T.domains[i]? = some d →
      d.All (S.waitingAt (.below (args.reverse ++ env).length))) ∧
    Value.Alls (S.waitingAt (.below (args.reverse ++ env).length)) T.parameters ∧
    T.body.All (S.waitingAt (.below (args.reverse ++ env).length)) := by
  obtain ⟨hdomains, hparameters, hbody⟩ := h.opens.all hS h.below
  have hcount := h.length
  have hmono {k : Nat} (hk : k ≤ T.length) : (S.waitingAt (.below (env.length + k))).Le
      (S.waitingAt (.below (args.reverse ++ env).length)) := by
    refine Signature.waitingAt_le fun l hl => Nat.lt_of_lt_of_le hl ?_
    rw [Env.length_arguments]
    omega
  refine ⟨fun i d hd => ?_, hparameters.mono (hmono (Nat.le_refl _)),
    hbody.mono (hmono (Nat.le_refl _))⟩
  have hlt : i < T.domains.length := (List.getElem?_eq_some_iff.1 hd).1
  rw [Telescope.domains, List.length_map] at hlt
  exact (hdomains i d hd).mono (hmono (Nat.le_of_lt hlt))

theorem instantiate_eq_ok {m : Nat} {Y : Value}
    (hY : K.type.instantiate S m (ps ++ as) = .ok Y) : ty.instantiate S m as = .ok Y := by
  rw [Value.instantiate_append] at hY
  obtain ⟨ty', hty', hY⟩ := bind_eq_ok.1 hY
  obtain ⟨n, hty⟩ := h.instantiated
  obtain rfl := Value.instantiate_unique hty hty'
  exact hY

/-- **The domain of a field,** for arguments in place of the fields before it. -/
theorem domain_becomes (hS : S.waiting.Closed S) {d : Value}
    (hd : T.domains[as.length]? = some d) (hargs : as <+: args) {m : Nat} {Y : Value}
    (hY : K.type.instantiate S m (ps ++ as) = .ok Y) :
    ∃ d' c, Y = .pi d' c ∧ d.Becomes S (Env.Gives (args.reverse ++ env)) d' :=
  h.opens.instantiated_domain hS (h.self args) hd
    (fun _ _ ha => Env.gives_argument hargs ha) (h.instantiate_eq_ok hY)

/-- **The target of the constructor,** for arguments in place of all fields. -/
theorem body_becomes (hS : S.waiting.Closed S) (hl : as.length = K.fieldCount)
    (hargs : as <+: args) {m : Nat} {Y : Value}
    (hY : K.type.instantiate S m (ps ++ as) = .ok Y) :
    T.body.Becomes S (Env.Gives (args.reverse ++ env)) Y :=
  h.opens.instantiated hS (h.self args) (hl.trans h.length.symm)
    (fun _ _ ha => Env.gives_argument hargs ha) (h.instantiate_eq_ok hY)

theorem parameters_become (hl : as.length = K.fieldCount) (hargs : as <+: args) :
    List.Forall₂ (Value.Becomes S (Env.Gives (args.reverse ++ env))) T.parameters as :=
  h.opens.parameters_become (hl.trans h.length.symm) fun _ _ ha =>
    Env.gives_argument hargs ha

end Constructor.Opened

/-! ### Arguments of a method -/

/-- The arguments `as` and `hs` fit the type `T` of the method for `K`, binder by binder: first
the fields, then the motive at each recursive field, and behind them the motive at the
construction. -/
structure MethodFits (S : Signature) (level : Nat) (K : Constructor) (ps : List Value)
    (M T : Value) (as hs : List Value) : Prop where
  field : ∀ i < as.length, ∀ n m X Y, T.instantiate S n (as.take i) = .ok X →
    K.type.instantiate S m (ps ++ as.take i) = .ok Y →
    ∃ d c d' c', X = .pi d c ∧ Y = .pi d' c' ∧ d.ReadsAlike S level d'
  hypothesis : ∀ j q, K.recursiveFields[j]? = some q → ∃ a, (ps ++ as)[q]? = some a ∧
    ∀ n m X Y, T.instantiate S n (as ++ hs.take j) = .ok X →
      K.type.instantiate S m ((ps ++ as).take q) = .ok Y →
      ∃ d c us c', X = .pi d c ∧ Y = .pi (.former K.family us) c' ∧
        K.parameterCount ≤ us.length ∧
        ∀ k R, M.applyAll S k (us.drop K.parameterCount ++ [a]) = .ok R → d.ReadsAlike S level R
  result : ∀ n m X Y, T.instantiate S n (as ++ hs) = .ok X →
    K.type.instantiate S m (ps ++ as) = .ok Y →
    ∃ us, Y = .former K.family us ∧ K.parameterCount ≤ us.length ∧
      ∀ k R, M.applyAll S k (us.drop K.parameterCount ++ [.con K.id (ps ++ as)]) = .ok R →
        X.ReadsAlike S level R

/-- A constructor with parameters and a motive in the scope of an environment. -/
structure MethodScope (S : Signature) (env : Env) (K : Constructor) (ps : List Value) (M : Value) :
    Prop where
  values : Value.Alls (S.waitingAt (Env.fixed env)) env
  type : K.type.All S.waiting
  parameters : Value.Alls (S.waitingAt (Env.fixed env)) ps
  length : ps.length = K.parameterCount
  motive : M.All (S.waitingAt (Env.fixed env))
  recursive : ∀ q ∈ K.recursiveFields, K.parameterCount ≤ q

namespace MethodScope

variable {K : Constructor} {ps as hs args hyps : List Value} {M T ty R : Value} {t : Term}
  {fields : Telescope} {n : Nat} {body : Except Halt Term} (hM : Θ.Models S)
  (h : MethodScope S env K ps M) (ho : K.Opened S env ps ty fields)
  (hhyps : List.Forall₂ (fun q h => hypothesis S n K.parameterCount fields M q = .ok h)
    K.recursiveFields hyps)
  (ht : readBackPis S n env.length (fields.binders.map (fun b => (b.label, b.domain)) ++
    hyps.map (none, ·)) body = .ok t) (hT : t.eval S n env = .ok T)

include h

theorem arguments (hargs : Value.Alls (S.waitingAt (.below env.length)) args) :
    Value.Alls (S.waitingAt (.below env.length)) (args.reverse ++ env) :=
  Value.alls_append.2 ⟨hargs.of_subset fun _ => List.mem_reverse.1,
    h.values.mono (Signature.waitingAt_le fun _ => Env.fixed_below)⟩

theorem construction (has : Value.Alls (S.waitingAt (.below env.length)) as) :
    Value.Alls (S.waitingAt (.below env.length)) (ps ++ as) :=
  Value.alls_append.2
    ⟨h.parameters.mono (Signature.waitingAt_le fun _ => Env.fixed_below), has⟩

include hM

theorem instantiated (has : Value.Alls (S.waitingAt (.below env.length)) as) {m : Nat} {Y : Value}
    (hY : K.type.instantiate S m (ps ++ as) = .ok Y) : Y.All (S.waitingAt (.below env.length)) :=
  Value.instantiate_all (Signature.waitingAt_closed (Signature.waiting_closed hM) _)
    (h.type.mono (S.waiting_le _)) (h.construction has) hY

/-- **The motive at a value of the family.**  It is built for variables, read back and computed
again with arguments in place of the variables, and then it is read back like the motive at what
the value becomes. -/
theorem motive_alike (hargs : Value.Alls (S.waitingAt (.below env.length)) args)
    {d e d' e' X : Value} {k : Nat} (hcovers : d.Covers K.family K.parameterCount)
    (hd : d.All (S.waitingAt (.below (args.reverse ++ env).length)))
    (hd' : d'.All (S.waitingAt (.below env.length)))
    (hdd' : d.Becomes S (Env.Gives (args.reverse ++ env)) d')
    (he : e.All (S.waitingAt (.below (args.reverse ++ env).length)))
    (he' : e'.All (S.waitingAt (.below env.length)))
    (hee' : e.Becomes S (Env.Gives (args.reverse ++ env)) e')
    (hR : motiveAt S n K.parameterCount M d e = .ok R)
    (ht : R.readBack S n (env.length + args.length) = .ok t)
    (hX : t.eval S k (args.reverse ++ env) = .ok X) :
    ∃ us, d' = .former K.family us ∧ K.parameterCount ≤ us.length ∧
      ∀ m R', M.applyAll S m (us.drop K.parameterCount ++ [e']) = .ok R' →
        X.ReadsAlike S env.length R' := by
  have hclosed := Signature.waiting_closed hM
  obtain ⟨vs, rfl, hvs⟩ := hcovers
  cases hdd' with
  | @former _ us _ hvu =>
    refine ⟨us, rfl, hvu.length_eq ▸ hvs, fun m R' hR' => ?_⟩
    rw [motiveAt_former S n M e K.family hvs] at hR
    rw [← Env.length_arguments] at ht
    have hself : M.Becomes S (Env.Gives (args.reverse ++ env)) M :=
      h.motive.becomes fun label _ hl => Env.gives_fixed label hl
    have hbecomes : R.Becomes S (Env.Gives (args.reverse ++ env)) R' :=
      applyAll_becomes (fun hf ha => (eval_becomes hclosed n).2.1 hf ha) hself
        (List.rel_append (List.forall₂_drop _ hvu) (.cons hee' .nil)) hR hR'
    have hM₁ : M.All (S.waitingAt (.below env.length)) :=
      h.motive.mono (Signature.waitingAt_le fun _ => Env.fixed_below)
    have hM₂ : M.All (S.waitingAt (.below (args.reverse ++ env).length)) := by
      refine hM₁.mono (Signature.waitingAt_le fun l hl => Nat.lt_of_lt_of_le hl ?_)
      rw [Env.length_arguments]
      exact Nat.le_add_right _ _
    exact hbecomes.readsAlike hM (h.arguments hargs)
      (Value.applyAll_drop_all hclosed hM₂ hd he hR)
      (Value.applyAll_drop_all hclosed hM₁ hd' he' hR') ht hX

include ho

include ht hT

/-- **The binder of a field** has the type of the field. -/
theorem field_alike (hargs : Value.Alls (S.waitingAt (.below env.length)) args)
    (hlt : args.length < K.fieldCount) {k m : Nat} {X Y : Value}
    (hX : T.instantiate S k args = .ok X) (hY : K.type.instantiate S m (ps ++ args) = .ok Y) :
    ∃ d c d' c', X = .pi d c ∧ Y = .pi d' c' ∧ d.ReadsAlike S env.length d' := by
  have hclosed := Signature.waiting_closed hM
  have hbound : args.length < fields.length := by rwa [ho.length]
  obtain ⟨b, hb⟩ : ∃ b, fields.binders[args.length]? = some b :=
    ⟨_, List.getElem?_eq_getElem hbound⟩
  have hd := Telescope.getElem?_domains hb
  have hbinder : (fields.binders.map (fun b => (b.label, b.domain)) ++
      hyps.map (none, ·))[args.length]? = some (b.label, b.domain) := by
    rw [List.getElem?_append_left (by rwa [List.length_map]), List.getElem?_map, hb]
    rfl
  obtain ⟨D, w, c, e, hD, rfl, hw⟩ := readBackPis_domain ht hT hbinder hX
  obtain ⟨d', c', rfl, hdd'⟩ := ho.domain_becomes hclosed hd (List.prefix_refl args) hY
  have hdomain := (ho.opens.all hclosed ho.below).1 _ _ hd
  rw [← Env.length_arguments] at hD hdomain
  exact ⟨w, c, d', c', rfl, rfl,
    hdd'.readsAlike hM (h.arguments hargs) hdomain (h.instantiated hM hargs hY).1 hD hw⟩

variable (has : Value.Alls (S.waitingAt (.below env.length)) as)
  (hhs : Value.Alls (S.waitingAt (.below env.length)) hs) (hfields : as.length = K.fieldCount)
  (hresults : hs.length = K.recursiveFields.length)

include has hhs hfields hresults

include hhyps in
/-- **The binder of a hypothesis** has the motive at the recursive field as its type. -/
theorem hypothesis_alike {j q : Nat} (hq : K.recursiveFields[j]? = some q) :
    ∃ a, (ps ++ as)[q]? = some a ∧
      ∀ k m X Y, T.instantiate S k (as ++ hs.take j) = .ok X →
        K.type.instantiate S m ((ps ++ as).take q) = .ok Y →
        ∃ d c us c', X = .pi d c ∧ Y = .pi (.former K.family us) c' ∧
          K.parameterCount ≤ us.length ∧
          ∀ e R, M.applyAll S e (us.drop K.parameterCount ++ [a]) = .ok R →
            d.ReadsAlike S env.length R := by
  have hclosed := Signature.waiting_closed hM
  have hmem := List.mem_of_getElem? hq
  have hle : ps.length ≤ q := h.length ▸ h.recursive q hmem
  obtain ⟨b, hb, hcovers⟩ := ho.recursive q hmem
  have hd := Telescope.getElem?_domains hb
  have hp : fields.parameters[q - K.parameterCount]? = some b.parameter := by
    rw [Telescope.parameters, List.getElem?_map, hb]
    rfl
  have hargs : as <+: as ++ hs.take j := List.prefix_append _ _
  obtain ⟨a, ha, hba⟩ := forall₂_getElem? (ho.parameters_become hfields hargs) hp
  refine ⟨a, by rw [List.getElem?_append_right hle, h.length, ha], fun k m X Y hX hY => ?_⟩
  -- The hypothesis stands behind all fields and the hypotheses before it.
  obtain ⟨R, hR, hmotive⟩ := forall₂_getElem? hhyps hq
  obtain ⟨b', hb', hmotive⟩ := bind_eq_ok.1 hmotive
  cases hb.symm.trans (orDangling_eq_ok.1 hb')
  have hcount : (as ++ hs.take j).length = fields.length + j := by
    have hj := (List.getElem?_eq_some_iff.1 hq).1
    rw [List.length_append, List.length_take, hfields, ho.length, Nat.min_eq_left (by omega)]
  have hbinder : (fields.binders.map (fun b => (b.label, b.domain)) ++
      hyps.map (none, ·))[(as ++ hs.take j).length]? = some (none, R) := by
    rw [hcount, List.getElem?_append_right (by rw [List.length_map]; exact Nat.le_add_right _ _),
      List.length_map, Telescope.length, Nat.add_sub_cancel_left, List.getElem?_map, hR]
    rfl
  obtain ⟨D, w, c, e, hD, rfl, hw⟩ := readBackPis_domain ht hT hbinder hX
  -- The recursive field is reached with the fields before it.
  rw [List.take_append, List.take_of_length_le hle, h.length] at hY
  have hlt := (List.getElem?_eq_some_iff.1 ha).1
  have htake : fields.domains[(as.take (q - K.parameterCount)).length]? = some b.domain := by
    rwa [List.length_take_of_le (Nat.le_of_lt hlt)]
  obtain ⟨d', c', rfl, hdd'⟩ :=
    ho.domain_becomes hclosed htake ((List.take_prefix _ as).trans hargs) hY
  have hprefix := has.of_subset (List.take_subset (q - K.parameterCount) as)
  have hbefore := hhs.of_subset (List.take_subset j hs)
  obtain ⟨hdomains, hparameters, _⟩ :=
    ho.all_below hclosed (as ++ hs.take j) (by rw [hcount, ho.length]; omega)
  obtain ⟨us, rfl, hus, halike⟩ := h.motive_alike hM (Value.alls_append.2 ⟨has, hbefore⟩) hcovers
    (hdomains _ _ hd) (h.instantiated hM hprefix hY).1 hdd'
    (Value.alls_iff.1 hparameters _ (List.mem_of_getElem? hp))
    (Value.alls_iff.1 has a (List.mem_of_getElem? ha)) hba hmotive hD hw
  exact ⟨w, c, us, c', rfl, rfl, hus, halike⟩

omit ht in
include hhyps in
/-- **Behind all binders** stands the motive at the construction. -/
theorem result_alike
    (hR : motiveAt S n K.parameterCount M fields.body (.con K.id (ps ++ fields.parameters)) = .ok R)
    (ht : readBackPis S n env.length (fields.binders.map (fun b => (b.label, b.domain)) ++
      hyps.map (none, ·)) (R.readBack S n (env.length + (fields.length + hyps.length))) = .ok t)
    {k m : Nat} {X Y : Value} (hX : T.instantiate S k (as ++ hs) = .ok X)
    (hY : K.type.instantiate S m (ps ++ as) = .ok Y) :
    ∃ us, Y = .former K.family us ∧ K.parameterCount ≤ us.length ∧
      ∀ e R, M.applyAll S e (us.drop K.parameterCount ++ [.con K.id (ps ++ as)]) = .ok R →
        X.ReadsAlike S env.length R := by
  have hclosed := Signature.waiting_closed hM
  have hcount : (as ++ hs).length = fields.length + hyps.length := by
    rw [List.length_append, hfields, hresults, ho.length, hhyps.length_eq]
  have hall : (fields.binders.map (fun b => (b.label, b.domain)) ++
      hyps.map ((none : Label), ·)).length = (as ++ hs).length := by
    rw [hcount, List.length_append, List.length_map, List.length_map, Telescope.length]
  obtain ⟨t', e, ht', he⟩ := readBackPis_instantiate ht hT (Nat.le_of_eq hall.symm) hX
  rw [← hall, List.drop_length, hall, ← hcount] at ht'
  have hargs : as <+: as ++ hs := List.prefix_append _ _
  obtain ⟨_, hparameters, hbody⟩ :=
    ho.all_below hclosed (as ++ hs) (by rw [hcount, ho.length]; omega)
  have hps : List.Forall₂ (Value.Becomes S (Env.Gives ((as ++ hs).reverse ++ env))) ps ps :=
    h.parameters.becomes fun label _ hl => Env.gives_fixed label hl
  have hpsall : Value.Alls (S.waitingAt (.below ((as ++ hs).reverse ++ env).length)) ps := by
    refine h.parameters.mono (Signature.waitingAt_le fun l hl => ?_)
    rw [Env.length_arguments]
    exact Nat.lt_add_right _ (Env.fixed_below hl)
  have hopened : (Value.con K.id (ps ++ fields.parameters)).All
      (S.waitingAt (.below ((as ++ hs).reverse ++ env).length)) :=
    Value.alls_append.2 ⟨hpsall, hparameters⟩
  have hbuilt : (Value.con K.id (ps ++ as)).All (S.waitingAt (.below env.length)) :=
    h.construction has
  exact h.motive_alike hM (Value.alls_append.2 ⟨has, hhs⟩) ho.body hbody
    (h.instantiated hM has hY) (ho.body_becomes hclosed hfields hargs hY) hopened hbuilt
    (.con K.id (List.rel_append hps (ho.parameters_become hfields hargs))) hR ht' he

end MethodScope

/-! ### Contexts -/

namespace Context

variable {Γ : Context}

/-- A value of a context: its variables stand for themselves. -/
def Holds (Γ : Context) (v : Value) : Prop := v.All (Γ.signature.waitingAt (Env.fixed Γ.env))

/-- A value with variables in scope. -/
def Sees (Γ : Context) (v : Value) : Prop := v.All (Γ.signature.waitingAt (.below Γ.level))

/-- A context that is put together from variables and local definitions, of any types. -/
inductive Assembled : Context → Prop where
  | empty (S : Signature) : Assembled (empty S)
  | bind {Γ : Context} (label : Label) (type : Value) : Assembled Γ → Assembled (Γ.bind label type)
  | define {Γ : Context} {v : Value} (label : Label) (type : Value) :
      Assembled Γ → Γ.Holds v → Assembled (Γ.define label type v)

theorem length_env (Γ : Context) : Γ.env.length = Γ.level := List.length_map _

/-- **The values of a context are values of it.** -/
theorem Assembled.values (h : Γ.Assembled) :
    Value.Alls (Γ.signature.waitingAt (Env.fixed Γ.env)) Γ.env := by
  have hcons (Γ : Context) (v : Value) : (Γ.signature.waitingAt (Env.fixed Γ.env)).Le
      (Γ.signature.waitingAt (Env.fixed (v :: Γ.env))) :=
    Signature.waitingAt_le fun _ => Env.fixed_cons v
  induction h with
  | empty S => trivial
  | @bind Γ label type _ ih =>
    refine ⟨?_, ih.mono (hcons Γ _)⟩
    have hvar := Env.fixed_var label Γ.env
    rw [length_env] at hvar
    exact hvar
  | @define Γ v label type _ hv ih => exact ⟨hv.mono (hcons Γ v), ih.mono (hcons Γ v)⟩

/-- **What is computed in a context is a value of it,** whether the term is typed or not. -/
theorem Assembled.eval_holds (hS : Γ.signature.Reachable) (h : Γ.Assembled) {n : Nat} {t : Term}
    {v : Value} (hv : Γ.eval n t = .ok v) : Γ.Holds v :=
  Term.eval_all (Signature.waitingAt_closed hS.wellScoped.waiting _) h.values
    (Γ.signature.all_waitingAt _ t) hv

theorem Holds.sees {v : Value} (h : Γ.Holds v) : Γ.Sees v := by
  refine Value.All.mono (Signature.waitingAt_le fun l hl => ?_) h
  rw [← length_env]
  exact Env.fixed_below hl

end Context

namespace Signature

/-- The type of the vector without entries. -/
def nilType : Term := .pi (some "A") (.type 0) (.former ⟨1⟩ [.var (some "A") 0, .con ⟨0⟩ []])

/-- The constructor that puts an entry in front of a vector. -/
def consConstructor : Constructor :=
  ⟨⟨3⟩, "cons", ⟨1⟩, 1, 3, [3], .pi (.type 0) ⟨[], some "A", .pi (some "n") (.former ⟨0⟩ [])
    (.pi none (.var (some "A") 1) (.pi none (.former ⟨1⟩ [.var (some "A") 2, .var (some "n") 1])
      (.former ⟨1⟩ [.var (some "A") 3, .con ⟨1⟩ [.var (some "n") 2]])))⟩⟩

/-- The natural numbers, and vectors with both constructors. -/
def closedVectors : Signature :=
  vectors.run [(20, .declareConstructor "Vec" "nil" nilType),
    (20, .declareConstructor "Vec" "cons" consType), (0, .closeFamily "Vec")]

/-- A type, a definition that stands for it, and a vector with one entry more. -/
def vectorScope : Context :=
  let A : Value := .var (some "A") 0
  (((((Context.empty closedVectors).bind (some "A") (.type 0)).define (some "B") (.type 0) A).bind
    (some "n") (.former ⟨0⟩ [])).bind (some "x") A).bind (some "v")
      (.former ⟨1⟩ [A, .var (some "n") 2])

/-- Vectors that are longer by one, over the type that the definition stands for. -/
def longerMotive : Term :=
  .lam (some "m") (.former ⟨0⟩ []) (.lam none (.former ⟨1⟩ [.var (some "B") 4, .var (some "m") 0])
    (.former ⟨1⟩ [.var (some "B") 5, .con ⟨1⟩ [.var (some "m") 1]]))

/-- Puts an entry in front of the vector that a shorter one is taken to. -/
def longerMethod : Term :=
  .lam (some "m") (.former ⟨0⟩ []) (.lam none (.var (some "B") 4)
    (.lam none (.former ⟨1⟩ [.var (some "B") 5, .var (some "m") 1])
      (.lam (some "r") (.former ⟨1⟩ [.var (some "B") 6, .con ⟨1⟩ [.var (some "m") 2]])
        (.con ⟨3⟩ [.var (some "B") 7, .con ⟨1⟩ [.var (some "m") 3], .var none 2,
          .var (some "r") 0]))))

end Signature

end Constructions
