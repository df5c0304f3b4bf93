/-
# Names that come from a source

A source is cut into tokens, and its names are the tokens that are neither keywords nor numbers
nor symbols.  Whatever a session holds after a program from a source ran, its names are such
names (`Session.run_names`):

| name of | because |
| --- | --- |
| a binder or variable | dropping all other labels changes nothing in the run |
| a constant, family or constructor | each declaration declares the names in its command |

So a term in an outcome of the session can be spelled (`Term.spelled`), if each of its variables
has a name at all.
-/

import Constructions.Proofs.Elaboration.Settled
import Constructions.Proofs.Session.Append

namespace Constructions

/-! ### Labels of a kind -/

open Classical in
/-- A label that is dropped unless its name is of a kind. -/
noncomputable def Label.only (q : Name → Prop) (l : Label) : Label := l.filter fun x => decide (q x)

theorem Label.only_eq_self {q : Name → Prop} {l : Label} : l.only q = l ↔ ∀ x ∈ l, q x := by
  cases l with
  | none => simp [Label.only]
  | some x => simp [Label.only, Option.filter_eq_some_iff]

theorem Label.thins_only (q : Name → Prop) : Thins (Label.only q) := by
  intro l
  cases l with
  | none => exact .inl rfl
  | some x =>
    by_cases hx : q x
    · exact .inl (Label.only_eq_self.2 fun y hy => Option.mem_some.1 hy ▸ hx)
    · exact .inr (by simp [Label.only, Option.filter, hx])

/-! ### Names in derivations -/

namespace Grammar

/-- All names among tokens are of a kind. -/
def NamesIn (q : Name → Prop) (ts : List Token) : Prop := ∀ x, Token.name x ∈ ts → q x

variable {q : Name → Prop}

theorem NamesIn.of_subset {ts us : List Token} (h : NamesIn q us) (hsub : ts ⊆ us) :
    NamesIn q ts := fun x hx => h x (hsub hx)

theorem NamesIn.label {l : Label} (h : NamesIn q (labelYield l)) : l.only q = l := by
  refine Label.only_eq_self.2 fun x hx => ?_
  obtain rfl := Option.mem_def.1 hx
  exact h x List.mem_cons_self

theorem NamesIn.name {x : Name} {ts : List Token} (h : NamesIn q (.name x :: ts)) :
    Label.only q (some x) = some x :=
  Label.only_eq_self.2 fun _ hy => Option.mem_some.1 hy ▸ h x List.mem_cons_self

theorem subset_separated {tss : List (List Token)} {ts : List Token} (h : ts ∈ tss) :
    ts ⊆ separated tss := by
  cases tss with
  | nil => cases h
  | cons us uss =>
    intro t ht
    obtain rfl | h := List.mem_cons.1 h
    · exact List.mem_append_left _ ht
    · exact List.mem_append_right _ (List.mem_flatMap.2 ⟨ts, h, List.mem_cons_of_mem _ ht⟩)

theorem NamesIn.braced {items : List (List Token)} {trailing : Bool}
    (h : NamesIn q (bracedYield items trailing)) : ∀ ts ∈ items, NamesIn q ts := by
  intro ts hts
  refine h.of_subset fun t ht => ?_
  simp [bracedYield, subset_separated hts ht]

theorem kept_calls {f : Label → Label} {e : Expression} {es : List Expression} (he : e.Kept f)
    (hes : Expression.AllKept f es) : (es.foldl (.call default) e).Kept f := by
  induction es generalizing e with
  | nil => exact he
  | cons e' es ih => exact ih ⟨he, hes.1⟩ hes.2

theorem kept_lams {f : Label → Label} {ls : List Label} {e : Expression} (he : e.Kept f)
    (hls : ∀ l ∈ ls, f l = l) :
    (ls.foldr (fun l b => Expression.lam default ⟨l, 0⟩ b) e).Kept f := by
  induction ls with
  | nil => exact he
  | cons l ls ih =>
    obtain ⟨hl, hls⟩ := List.forall_mem_cons.1 hls
    exact ⟨hl, ih hls⟩

mutual

/-- **A derivation over names of a kind stands for an expression over such names.** -/
theorem Atom.kept : ∀ a : Atom, NamesIn q a.yield → a.tree.Kept (Label.only q)
  | .ascription e t, h =>
    ⟨e.kept (h.of_subset fun x hx => by simp [Atom.yield, hx]),
      t.kept (h.of_subset fun x hx => by simp [Atom.yield, hx])⟩
  | .parenthesized e, h => e.kept (h.of_subset fun x hx => by simp [Atom.yield, hx])
  | .type none, _ => trivial
  | .type (some _), _ => trivial
  | .name _, h => h.name

theorem Atom.allKept : ∀ as : List Atom, NamesIn q (Atom.yields as).flatten →
    Expression.AllKept (Label.only q) (Atom.trees as)
  | [], _ => trivial
  | a :: as, h =>
    ⟨a.kept (h.of_subset fun x hx => by simp [Atom.yields, hx]),
      Atom.allKept as (h.of_subset fun _ hx => List.mem_append_right _ hx)⟩

theorem Spine.kept : ∀ s : Spine, NamesIn q s.yield → s.tree.Kept (Label.only q)
  | .mk a as, h =>
    kept_calls (a.kept (h.of_subset fun _ hx => List.mem_append_left _ hx))
      (Atom.allKept as (h.of_subset fun _ hx => List.mem_append_right _ hx))

theorem Headed.kept : ∀ e : Headed, NamesIn q e.yield → e.tree.Kept (Label.only q)
  | .pi l a b, h =>
    ⟨(h.of_subset fun x hx => by simp [Headed.yield, hx] : NamesIn q (labelYield l)).label,
      a.kept (h.of_subset fun x hx => by simp [Headed.yield, hx]),
      b.kept (h.of_subset fun x hx => by simp [Headed.yield, hx])⟩
  | .typedLam l a b, h =>
    ⟨(h.of_subset fun x hx => by simp [Headed.yield, hx] : NamesIn q (labelYield l)).label,
      a.kept (h.of_subset fun x hx => by simp [Headed.yield, hx]),
      b.kept (h.of_subset fun x hx => by simp [Headed.yield, hx])⟩
  | .arrow a b, h =>
    ⟨rfl, a.kept (h.of_subset fun x hx => by simp [Headed.yield, hx]),
      b.kept (h.of_subset fun x hx => by simp [Headed.yield, hx])⟩
  | .elim t m ms trailing, h =>
    ⟨t.kept (h.of_subset fun x hx => by simp [Headed.yield, hx]),
      m.kept (h.of_subset fun x hx => by simp [Headed.yield, hx]),
      Full.allKept ms (h.of_subset fun x hx => by
        rw [Headed.yield]
        exact List.mem_append_right _ hx : NamesIn q (bracedYield _ trailing)).braced⟩
  | .lam l ls b, h =>
    kept_lams (b.kept (h.of_subset fun x hx => by simp [Headed.yield, hx])) fun l' hl' =>
      (h.of_subset fun x hx => by
        rw [Headed.yield]
        refine List.mem_append_left _ (List.mem_cons_of_mem _ ?_)
        exact List.mem_flatMap.2 ⟨l', hl', hx⟩ : NamesIn q (labelYield l')).label
  | .spine s, h => s.kept h

theorem Full.kept : ∀ e : Full, NamesIn q e.yield → e.tree.Kept (Label.only q)
  | .letIn l a b, h =>
    ⟨(h.of_subset fun x hx => by simp [Full.yield, hx] : NamesIn q (labelYield l)).label,
      a.kept (h.of_subset fun x hx => by simp [Full.yield, hx]),
      b.kept (h.of_subset fun x hx => by simp [Full.yield, hx])⟩
  | .typedLet l t a b, h =>
    ⟨(h.of_subset fun x hx => by simp [Full.yield, hx] : NamesIn q (labelYield l)).label,
      t.kept (h.of_subset fun x hx => by simp [Full.yield, hx]),
      a.kept (h.of_subset fun x hx => by simp [Full.yield, hx]),
      b.kept (h.of_subset fun x hx => by simp [Full.yield, hx])⟩
  | .headed e, h => e.kept h

theorem Full.allKept : ∀ es : List Full, (∀ ts ∈ Full.yields es, NamesIn q ts) →
    Expression.AllKept (Label.only q) (Full.trees es)
  | [], _ => trivial
  | e :: es, h =>
    ⟨e.kept (h _ List.mem_cons_self),
      Full.allKept es fun _ hts => h _ (List.mem_cons_of_mem _ hts)⟩

end

theorem Sentence.kept (d : Sentence) (h : NamesIn q d.yield) :
    d.command.Kept (Label.only q) ∧ d.command.Declares q := by
  cases d with
  | data n gs a cs trailing =>
    have hcs : ∀ c ∈ cs, NamesIn q c.yield := fun c hc =>
      (h.of_subset (List.subset_append_right ..) : NamesIn q (bracedYield _ trailing)).braced _
        (List.mem_map_of_mem hc)
    refine ⟨⟨?_, ?_, ?_⟩, h n (by simp [Sentence.yield]), ?_⟩
    · rintro _ hmem
      obtain ⟨g, hg, rfl⟩ := List.mem_map.1 hmem
      have hnames : NamesIn q g.yield := h.of_subset fun x hx => by
        simp only [Sentence.yield, List.mem_append, List.mem_cons, List.mem_flatMap]
        exact .inl (.inl (.inr (.inr ⟨g, hg, hx⟩)))
      exact ⟨(hnames.of_subset fun x hx => by simp [Group.yield, hx] :
        NamesIn q (labelYield g.label)).label,
        g.type.kept (hnames.of_subset fun x hx => by simp [Group.yield, hx])⟩
    · exact a.kept (h.of_subset fun x hx => by simp [Sentence.yield, hx])
    · rintro _ hmem
      obtain ⟨c, hc, rfl⟩ := List.mem_map.1 hmem
      exact c.type.kept ((hcs c hc).of_subset fun x hx => by simp [Clause.yield, hx])
    · rintro _ hmem
      obtain ⟨c, hc, rfl⟩ := List.mem_map.1 hmem
      exact hcs c hc c.name List.mem_cons_self
  | postulate n t =>
    exact ⟨t.kept (h.of_subset fun x hx => by simp [Sentence.yield, hx]),
      h n (by simp [Sentence.yield])⟩
  | define n t v =>
    cases t with
    | none =>
      exact ⟨⟨by rintro _ ⟨⟩, v.kept (h.of_subset fun x hx => by simp [Sentence.yield, hx])⟩,
        h n (by simp [Sentence.yield])⟩
    | some t =>
      refine ⟨⟨?_, v.kept (h.of_subset fun x hx => by simp [Sentence.yield, hx])⟩,
        h n (by simp [Sentence.yield])⟩
      rintro _ ⟨⟩
      exact t.kept (h.of_subset fun x hx => by simp [Sentence.yield, hx])
  | evaluate e => exact ⟨e.kept (h.of_subset fun x hx => by simp [Sentence.yield, hx]), trivial⟩
  | check e t =>
    exact ⟨⟨e.kept (h.of_subset fun x hx => by simp [Sentence.yield, hx]),
      t.kept (h.of_subset fun x hx => by simp [Sentence.yield, hx])⟩, trivial⟩

end Grammar

/-! ### Names in a source -/

theorem Token.Parted.isName {ts : List Token} (h : Parted ts) {x : Name}
    (hx : Token.name x ∈ ts) : IsName x := by
  induction ts with
  | nil => cases hx
  | cons t ts ih =>
    obtain rfl | hx := List.mem_cons.1 hx
    · exact h.1.1
    · exact ih h.2 hx

/-- **The names in a program from a source are names.** -/
theorem Program.ofSource?_names {source : String} {P : Program} (h : ofSource? source = some P) :
    ∀ d ∈ P.map Declaration.unplaced,
      d.command.Kept (Label.only Token.IsName) ∧ d.command.Declares Token.IsName := by
  obtain ⟨ts, hlex, hP⟩ := ofSource?_eq_some.1 h
  obtain ⟨_, hts⟩ := Token.lex_eq_ok_iff_chars.1 hlex
  have hexact := Grammar.Follows.exact Grammar.program_follows
  obtain ⟨ds, hds⟩ := (hexact.accepts ts).1 ⟨P, hP⟩
  rw [hexact.returns ts P ds hP hds]
  rintro _ hmem
  obtain ⟨d, hd, rfl⟩ := List.mem_map.1 hmem
  refine d.kept fun x hx => hts.isName (List.mem_of_mem_filter (p := (·.kind ≠ .blank)) ?_)
  rw [← Token.visible, ← hds]
  exact List.mem_flatMap.2 ⟨d, hd, hx⟩

/-! ### Names in a session -/

/-- A program without positions leaves the session that it leaves with them. -/
theorem Session.foldlM_of_unplaced {n : Nat} {σ₀ σ : Session} {P : Program}
    (h : P.foldlM (step n) σ₀ = .ok σ) :
    (P.map Declaration.unplaced).foldlM (step n) σ₀ = .ok σ := by
  have hcarries := foldlM_unplaced (le_refl n) σ₀ P
  rw [h] at hcarries
  exact mapError_eq_ok.1 hcarries

/-- **All names in a session are names from the source**: those of binders and variables, and those
that are declared. -/
theorem Session.run_names {source : String} {P : Program} {n : Nat} {σ : Session}
    (hP : Program.ofSource? source = some P) (h : Session.run n {} P = (σ, none)) :
    σ.relabel (Label.only Token.IsName) = σ ∧ σ.signature.Names Token.IsName := by
  have hnames := Program.ofSource?_names hP
  have hrun := foldlM_of_unplaced (run_eq_iff.1 h)
  constructor
  · -- Run once more without positions, with other labels dropped and with all labels.
    have hthin := foldlM_unplaces (Label.thins_only Token.IsName) (.of_le (le_refl n)) {}
      fun d hd => (hnames d hd).1
    have hempty : Session.relabel (Label.only Token.IsName) {} = {} := by
      simp [Session.relabel, Signature.relabel, Signature.empty]
    rw [hrun, hempty] at hthin
    exact Except.ok.inj ((mapError_eq_ok.1 hthin).symm.trans (foldlM_of_unplaced hrun))
  · refine foldlM_invariant (I := fun σ => σ.signature.Names Token.IsName) ?_ ?_ hrun
    · intro σ d hd σ' hσ hstep
      obtain ⟨o, S, hout, rfl⟩ := step_eq_ok hstep
      have hreach := Command.run_reaches n d.span (hnames d hd).2 σ.signature
      exact Signature.names_of_admits (hreach.of_ok hout) hσ
    · rintro c e ⟨⟩

theorem Session.relabel_outcome {f : Label → Label} {σ : Session} (h : σ.relabel f = σ)
    {o : Outcome} (ho : o ∈ σ.outcomes) : o.relabel f = o := by
  have houtcomes : σ.outcomes.map (Outcome.relabel f) = σ.outcomes := congrArg Session.outcomes h
  obtain ⟨i, hi⟩ := List.getElem?_of_mem ho
  have hmap : (σ.outcomes.map (Outcome.relabel f))[i]? = some (o.relabel f) := by
    rw [List.getElem?_map, hi]
    rfl
  rw [houtcomes, hi] at hmap
  exact (Option.some.inj hmap).symm

/-! ### Terms that can be spelled -/

theorem Signature.isName_family {S : Signature} (hS : S.Registered)
    (hnames : S.Names Token.IsName) {id : FamilyId} (h : ∃ F, S.family? id = some F) :
    ∃ F, S.family? id = some F ∧ Token.IsName F.name := by
  obtain ⟨F, hF⟩ := h
  exact ⟨F, hF, hnames F.name (.family id) ((hS.entry _ _).2 ⟨F, hF, rfl⟩)⟩

theorem Signature.isName_constructor {S : Signature} (hS : S.Registered)
    (hnames : S.Names Token.IsName) {id : ConstructorId} (h : ∃ K, S.constructor? id = some K) :
    ∃ K, S.constructor? id = some K ∧ Token.IsName K.name := by
  obtain ⟨K, hK⟩ := h
  exact ⟨K, hK, hnames K.name (.constructor id) ((hS.entry _ _).2 ⟨K, hK, rfl⟩)⟩

mutual

/-- **A term is spelled** if its labels are names, its variables have one, and what it mentions is
declared. -/
theorem Term.spelled {S : Signature} (hS : S.Registered) (hnames : S.Names Token.IsName) :
    ∀ (t : Term) {ls : List Label}, t.relabel (Label.only Token.IsName) = t →
    t.Named S ls → t.All S.leaves → t.Declared S → t.Spelled S
  | .var label i, ls, hl, hn, _, _ => by
    cases label with
    | none => exact (hn.1 rfl).elim
    | some x => exact ⟨x, rfl, Label.only_eq_self.1 (Term.var.inj hl).1 x rfl⟩
  | .const c, ls, _, _, ⟨g, hg⟩, _ => hnames c .global ((hS.entry _ _).2 ⟨g, hg⟩)
  | .letIn label A a b, ls, hl, hn, ha, hd => by
    obtain ⟨hlabel, hA, ha', hb⟩ := Term.letIn.inj hl
    exact ⟨Label.only_eq_self.1 hlabel, Term.spelled hS hnames A hA hn.1 ha.1 hd.1,
      Term.spelled hS hnames a ha' hn.2.1 ha.2.1 hd.2.1,
      Term.spelled hS hnames b hb hn.2.2 ha.2.2 hd.2.2⟩
  | .type _, _, _, _, _, _ => trivial
  | .pi label A B, ls, hl, hn, ha, hd => by
    obtain ⟨hlabel, hA, hB⟩ := Term.pi.inj hl
    exact ⟨Label.only_eq_self.1 hlabel, Term.spelled hS hnames A hA hn.1 ha.1 hd.1,
      Term.spelled hS hnames B hB hn.2 ha.2 hd.2⟩
  | .lam label A b, ls, hl, hn, ha, hd => by
    obtain ⟨hlabel, hA, hb⟩ := Term.lam.inj hl
    exact ⟨Label.only_eq_self.1 hlabel, Term.spelled hS hnames A hA hn.1 ha.1 hd.1,
      Term.spelled hS hnames b hb hn.2 ha.2 hd.2⟩
  | .app f a, ls, hl, hn, ha, hd => by
    obtain ⟨hf, ha'⟩ := Term.app.inj hl
    exact ⟨Term.spelled hS hnames f hf hn.1 ha.1 hd.1, Term.spelled hS hnames a ha' hn.2 ha.2 hd.2⟩
  | .former id as, ls, hl, hn, ha, hd =>
    ⟨Signature.isName_family hS hnames hd.1,
      Term.allSpelled hS hnames as (Term.former.inj hl).2 hn.2 ha hd.2⟩
  | .con id as, ls, hl, hn, ha, hd =>
    ⟨Signature.isName_constructor hS hnames hd.1,
      Term.allSpelled hS hnames as (Term.con.inj hl).2 hn.2 ha hd.2⟩
  | .elim t M ms, ls, hl, hn, ha, hd => by
    obtain ⟨ht, hM, hms⟩ := Term.elim.inj hl
    exact ⟨Term.spelled hS hnames t ht hn.1 ha.1 hd.1,
      Term.spelled hS hnames M hM hn.2.1 ha.2.1 hd.2.1,
      Term.allSpelled hS hnames ms hms hn.2.2 ha.2.2 hd.2.2⟩

theorem Term.allSpelled {S : Signature} (hS : S.Registered) (hnames : S.Names Token.IsName) :
    ∀ (ts : List Term) {ls : List Label}, Term.relabels (Label.only Token.IsName) ts = ts →
    Term.AllNamed S ls ts → Term.Alls S.leaves ts → Term.Declareds S ts → Term.AllSpelled S ts
  | [], _, _, _, _, _ => trivial
  | t :: ts, _, hl, hn, ha, hd =>
    ⟨Term.spelled hS hnames t (List.cons.inj hl).1 hn.1 ha.1 hd.1,
      Term.allSpelled hS hnames ts (List.cons.inj hl).2 hn.2 ha.2 hd.2⟩

end

end Constructions
