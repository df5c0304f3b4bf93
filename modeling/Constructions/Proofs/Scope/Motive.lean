/-
# Motives and methods stay in scope

Opening the binders of a type, comparing a motive with what it should be, and building the type
of a method all stay in scope, whatever the parameters and the motive are.

The type of a method is found by opening the fields of a constructor for the parameters at
hand and looking up its recursive fields by position.  Parameters of wrong types do not harm:
the fields are those that were opened when the constructor was declared, with the parameters
in place of variables (`Constructor.Shaped.reopened`).
-/

import Constructions.Proofs.Scope

namespace Constructions

variable {S : Signature} {L : Levels} {level : Nat}

/-! ### Telescopes -/

/-- Each value sees the variables of the scope and one for each value before it. -/
def TeleWellScoped (S : Signature) (L : Levels) (level : Nat) (ds : List Value) : Prop :=
  ∀ (i : Nat) (d : Value), ds[i]? = some d → d.WellScoped S (L.extend level i)

theorem TeleWellScoped.head {d : Value} {ds : List Value}
    (h : TeleWellScoped S L level (d :: ds)) : d.WellScoped S L :=
  (h 0 d rfl).le fun _ => Levels.of_extend_zero

theorem TeleWellScoped.cons {d : Value} {ds : List Value} (hd : d.WellScoped S L)
    (hds : TeleWellScoped S (L.extend level 1) (level + 1) ds) :
    TeleWellScoped S L level (d :: ds) := by
  intro i e he
  cases i with
  | zero =>
    cases he
    exact hd.le fun _ => Levels.le_extend level 0
  | succ i => exact (hds i e he).le fun _ => Levels.extend_succ

theorem TeleWellScoped.tail {d : Value} {ds : List Value}
    (h : TeleWellScoped S L level (d :: ds)) :
    TeleWellScoped S (L.extend level 1) (level + 1) ds := fun i e he =>
  (h (i + 1) e he).le fun _ => Levels.of_extend_succ

theorem TeleWellScoped.append {ds es : List Value} (hds : TeleWellScoped S L level ds)
    (hes : Value.AllWellScoped S (L.extend level ds.length) es) :
    TeleWellScoped S L level (ds ++ es) := by
  intro i e he
  obtain hi | hi := Nat.lt_or_ge i ds.length
  · rw [List.getElem?_append_left hi] at he
    exact hds i e he
  · rw [List.getElem?_append_right hi] at he
    exact (Value.allWellScoped_iff.1 hes e (List.mem_of_getElem? he)).le fun _ =>
      Levels.extend_le hi

/-- The domains and variables of opened binders, and what stands behind them. -/
structure Telescope.WellScoped (S : Signature) (L : Levels) (level : Nat) (T : Telescope) :
    Prop where
  domains : TeleWellScoped S L level T.domains
  parameters : Value.AllWellScoped S (L.extend level T.length) T.parameters
  body : T.body.WellScoped S (L.extend level T.length)

theorem Telescope.getElem?_domains {T : Telescope} {i : Nat} {b : OpenedBinder}
    (hb : T.binders[i]? = some b) : T.domains[i]? = some b.domain := by
  rw [Telescope.domains, List.getElem?_map, hb]
  rfl

section

variable (hS : S.WellScoped)

include hS

/-- **Opening stays in scope.** -/
theorem Value.telescope_wellScoped {ty : Value} (hty : ty.WellScoped S L) (n level : Nat)
    (limit : Option Nat) :
    Post (ty.telescope S n level limit) (Telescope.WellScoped S L level) Halt.InScope := by
  induction n generalizing L level limit ty with
  | zero => exact .exhausted
  | succ n ih =>
    by_cases hstop : limit ≠ some 0 → ∀ d c, ty ≠ .pi d c
    · rw [telescope_stop S n level hstop]
      exact ⟨fun i d hd => (nomatch hd), trivial, hty.le fun _ => Levels.le_extend level 0⟩
    simp only [not_forall, not_not] at hstop
    obtain ⟨hlimit, d, c, rfl⟩ := hstop
    rw [telescope_pi S n level hlimit]
    refine Post.bind (Closure.enter_post hS hty.2 n level) fun body _ hb => ?_
    refine Post.bind (ih hb (level + 1) _) fun rest _ hrest => ?_
    have hvar : (c.parameter level).WellScoped S (L.extend level (rest.length + 1)) :=
      Levels.extend_le (Nat.le_add_left 1 rest.length) (L.extend_self level)
    exact ⟨.cons hty.1 hrest.domains, ⟨hvar, hrest.parameters.le fun _ => Levels.extend_succ⟩,
      hrest.body.le fun _ => Levels.extend_succ⟩

/-- **Instantiating stays in scope.** -/
theorem Value.instantiate_wellScoped {ty : Value} {as : List Value} (hty : ty.WellScoped S L)
    (has : Value.AllWellScoped S L as) (n : Nat) :
    Post (ty.instantiate S n as) (Value.WellScoped S L) Halt.InScope := by
  refine .foldlM hty fun ty hty a ha => ?_
  cases ty with
  | pi d c => exact Closure.instantiate_post hS hty.2 (Value.allWellScoped_iff.1 has a ha) n
  | neutral | type | lam | former | con => exact Halt.InScope.violation (by rintro ⟨⟩)

theorem convertDomains_wellScoped {ds es : List Value} (hds : TeleWellScoped S L level ds)
    (hes : TeleWellScoped S L level es) (n : Nat) :
    Post (convertDomains S n level ds es) (fun _ => True) Halt.InScope := by
  induction ds generalizing L level es with
  | nil => exact trivial
  | cons d ds ih =>
    cases es with
    | nil => exact trivial
    | cons e es =>
      exact .and (Value.convert_post hS hds.head hes.head n) (ih hds.tail hes.tail)

/-! ### Motives -/

/-- **The domains of a motive are in scope.** -/
theorem motiveDomains_wellScoped {id : FamilyId} {F : Family} (hF : S.family? id = some F)
    {ps : List Value} (hps : Value.AllWellScoped S L ps) (n level : Nat) :
    Post (motiveDomains S n level F ps) (TeleWellScoped S L level) Halt.InScope := by
  refine Post.bind (Value.instantiate_wellScoped hS ((hS.family hF).le fun _ hl => hl.elim) hps n)
    fun ty _ hty => ?_
  refine Post.bind (Value.telescope_wellScoped hS hty n level none) fun T _ hT => ?_
  have hlength : T.domains.length = T.length := List.length_map _
  have hfamily : ∃ D, S.family? F.id = some D := ⟨F, hS.registered.family_id hF ▸ hF⟩
  refine hT.domains.append ⟨⟨hfamily, ?_⟩, trivial⟩
  rw [hlength]
  exact Value.allWellScoped_append.2
    ⟨hps.le fun _ => Levels.le_extend level T.length, hT.parameters⟩

theorem motiveLevel?_wellScoped {ds : List Value} (hds : TeleWellScoped S L level ds) {ty : Value}
    (hty : ty.WellScoped S L) (n : Nat) :
    Post (motiveLevel? S n level ds ty) (fun _ => True) Halt.InScope := by
  refine Post.bind (Value.telescope_wellScoped hS hty n level _) fun T _ hT => ?_
  split
  · refine Post.bind (convertDomains_wellScoped hS hT.domains hds n) fun b _ _ => ?_
    cases b with
    | true => cases T.body <;> exact trivial
    | false => exact trivial
  · exact trivial

omit hS in
theorem motiveAt_former (S : Signature) (n : Nat) {p : Nat} (M element : Value) (F : FamilyId)
    {us : List Value} (h : p ≤ us.length) :
    motiveAt S n p M (.former F us) element = M.applyAll S n (us.drop p ++ [element]) := by
  rw [motiveAt, Value.indices, if_pos h]
  rfl

/-- The motive at the indices of a type, if that is a family with enough arguments. -/
theorem motiveAt_wellScoped {motive ty element : Value} {F : FamilyId} {p : Nat}
    (hm : motive.WellScoped S L) (hty : ty.WellScoped S L) (hp : ty.Covers F p)
    (he : element.WellScoped S L) (n : Nat) :
    Post (motiveAt S n p motive ty element) (Value.WellScoped S L) Halt.InScope := by
  obtain ⟨as, rfl, hle⟩ := hp
  rw [motiveAt_former S n motive element F hle]
  have hindices : Value.AllWellScoped S L (as.drop p) := Value.allWellScoped_iff.2 fun a ha =>
    Value.allWellScoped_iff.1 hty.2 a (List.mem_of_mem_drop ha)
  have helement : Value.AllWellScoped S L [element] := ⟨he, trivial⟩
  exact Value.applyAll_post hS hm (Value.allWellScoped_append.2 ⟨hindices, helement⟩) n

/-! ### Methods -/

/-- **Binders are read back around a body.** -/
theorem readBackPis_wellScoped (hL : ∀ l, L l → l < level) {binders : List (Label × Value)}
    {body : Except Halt Term} (hb : TeleWellScoped S L level (binders.map (·.2)))
    (hbody : Post body (fun t => t.Declared S ∧ t.Scoped (level + binders.length)) Halt.InScope)
    (n : Nat) :
    Post (readBackPis S n level binders body) (fun t => t.Declared S ∧ t.Scoped level)
      Halt.InScope := by
  induction binders generalizing L level with
  | nil => exact hbody
  | cons b binders ih =>
    obtain ⟨label, d⟩ := b
    rw [List.length_cons, ← Nat.add_assoc, Nat.add_right_comm] at hbody
    refine Post.bind (ih (fun _ => Levels.extend_below hL) hb.tail hbody) fun B _ hB => ?_
    exact Post.bind (Value.readBack_scoped hS hL hb.head n) fun D _ hD =>
      ⟨⟨hD.1, hB.1⟩, hD.2, hB.2⟩

omit hS in
theorem Value.Covers.becomes {σ : Nat → Value → Prop} {F : FamilyId} {p : Nat} {v w : Value}
    (h : v.Covers F p) (hvw : v.Becomes S σ w) : w.Covers F p := by
  obtain ⟨as, rfl, hle⟩ := h
  cases hvw with
  | former _ has => exact ⟨_, rfl, has.length_eq ▸ hle⟩

omit hS in
/-- The parameters of a constructor are replaced by arguments, and its fields by variables from
`level` on. -/
def atParameters (ps : List Value) (level l : Nat) (w : Value) : Prop :=
  ps[l]? = some w ∨ ∃ label i, l = ps.length + i ∧ w = .var label (level + i)

omit hS in
/-- **The fields of a constructor are opened for any parameters as when it was declared.** -/
theorem Constructor.Shaped.reopened {K : Constructor} (hK : K.Shaped S)
    (hclosed : S.waiting.Closed S) (htype : K.type.All S.waiting) {ps : List Value}
    (hps : ps.length = K.parameterCount) {n : Nat} {ty : Value}
    (hty : K.type.instantiate S n ps = .ok ty) {T : Telescope}
    (hfields : ty.telescope S n level (some K.fieldCount) = .ok T) :
    T.length = K.fieldCount ∧ T.body.Covers K.family K.parameterCount ∧
      ∀ q ∈ K.recursiveFields, ∃ b, T.binders[q - K.parameterCount]? = some b ∧
        b.domain.Covers K.family K.parameterCount := by
  obtain ⟨P₀, T₀, hP₀, hT₀, hPlength, hTlength, hbody, hrecursive⟩ := hK
  have hself : K.type.Becomes S (atParameters ps level) K.type := htype.becomes_closed
  have hP := hP₀.instantiated hclosed hself (hps.trans hPlength.symm)
    (fun i a ha => .inl (by rwa [Nat.zero_add])) hty
  rw [← hTlength] at hfields
  obtain ⟨hdomains, hT⟩ := hT₀.reopened hclosed hP
    (fun label i _ => .inr ⟨label, i, by rw [hps], rfl⟩) hfields
  refine ⟨?_, hbody.becomes hT, fun q hq => ?_⟩
  · have hlength := hdomains.length_eq
    rw [Telescope.domains, Telescope.domains, List.length_map, List.length_map] at hlength
    exact hlength.symm.trans hTlength
  · obtain ⟨d, hd, hcovers⟩ := hrecursive q hq
    obtain ⟨d', hd', hdd'⟩ := forall₂_getElem? hdomains hd
    obtain ⟨b, hb, rfl⟩ := Option.map_eq_some_iff.1 (List.getElem?_map ▸ hd')
    exact ⟨b, hb, hcovers.becomes hdd'⟩

/-- **The type of a method is in scope.** -/
theorem methodType_wellScoped (hL : ∀ l, L l → l < level) {id : ConstructorId}
    {K : Constructor} (hK : S.constructor? id = some K) {env : Env}
    (henv : Value.AllWellScoped S L env) (hlevel : env.length = level) {ps : List Value}
    (hps : Value.AllWellScoped S L ps) (hlength : ps.length = K.parameterCount)
    {motive : Value} (hm : motive.WellScoped S L) (n : Nat) :
    Post (methodType S n level env K ps motive) (Value.WellScoped S L) Halt.InScope := by
  have hKtype := hS.constructor hK
  refine Post.bind (Value.instantiate_wellScoped hS (hKtype.le fun _ hl => hl.elim) hps n)
    fun ty hty htyw => ?_
  refine Post.bind (Value.telescope_wellScoped hS htyw n level _) fun T hT hTw => ?_
  obtain ⟨_, hbody, hrecursive⟩ := (hS.shaped hK).reopened hS.waiting (hS.closed hK) hlength hty hT
  have hinner : ∀ l, L l → L.extend level T.length l := fun _ => Levels.le_extend level T.length
  have hmotive := hm.le hinner
  refine Post.bind (P := Value.AllWellScoped S (L.extend level T.length))
    (.all_mapM fun q hq => ?_) fun hyps _ hhyps => ?_
  · obtain ⟨b, hb, hcovers⟩ := hrecursive q hq
    refine Post.bind (P := (b = ·)) (.orDangling hb rfl) fun _ _ h => ?_
    cases h
    have hd := Telescope.getElem?_domains hb
    have hlt : q - K.parameterCount < T.length := (List.getElem?_eq_some_iff.1 hb).1
    refine motiveAt_wellScoped hS hmotive
      ((hTw.domains _ _ hd).le fun _ => Levels.extend_le (Nat.le_of_lt hlt)) hcovers ?_ n
    exact Value.allWellScoped_iff.1 hTw.parameters _
      (List.mem_map.2 ⟨b, List.mem_of_getElem? hb, rfl⟩)
  · have hcon : (Value.con K.id (ps ++ T.parameters)).WellScoped S (L.extend level T.length) :=
      ⟨⟨K, hS.registered.constructor_id hK ▸ hK⟩,
        Value.allWellScoped_append.2 ⟨hps.le hinner, hTw.parameters⟩⟩
    refine Post.bind (motiveAt_wellScoped hS hmotive hTw.body hbody hcon n) fun R _ hR => ?_
    dsimp only
    have hbinders : (T.binders.map (fun b => (b.label, b.domain)) ++
        hyps.map ((none : Label), ·)).map (·.2) = T.domains ++ hyps := by
      rw [List.map_append, List.map_map, List.map_map]
      exact congrArg _ (List.map_id hyps)
    have hscope : TeleWellScoped S L level (T.domains ++ hyps) := by
      refine hTw.domains.append ?_
      rwa [Telescope.domains, List.length_map]
    -- The result of the method does not see the hypotheses, but it stands behind them.
    have hbelow : ∀ l, L.extend level T.length l →
        l < level + (T.binders.map (fun b => (b.label, b.domain)) ++
          hyps.map ((none : Label), ·)).length := by
      intro l hl
      have hlt := Levels.extend_below hL hl
      rw [List.length_append, List.length_map, ← Nat.add_assoc]
      exact Nat.lt_add_right _ hlt
    refine Post.bind (readBackPis_wellScoped hS hL (hbinders ▸ hscope)
      (Value.readBack_scoped hS hbelow hR n) n) fun t _ ht => ?_
    exact Term.eval_post hS henv ht.1 (hlevel ▸ ht.2) n

end

end Constructions
