/-
# What is printed can be read

A term is printed as the tokens of an expression.  If its names are names, then its text is cut
into just these tokens; and if a local definition stands only where the grammar has one, then they
are read as the expression that the term is printed as (`Term.parse_print`).

| position of a local definition | admitted |
| --- | --- |
| alone, the body of another one, a method | yes |
| argument or head of a call, domain of an arrow, target of an elimination | yes, in parentheses |
| its type and argument, a domain in bars, a codomain, the body of a function, a motive | no |

The printer puts no parentheses in the last row.
-/

import Constructions.Proofs.Grammar
import Constructions.Proofs.Token
import Constructions.Term.Printer
import Mathlib.Data.Nat.Digits.Lemmas

namespace Constructions

/-! ### Tokens side by side -/

namespace Token

/-- In front of tokens whose text is of the kind `A`, the given ones are cut off, and then the
whole text is of the kind `B`. -/
def Fits (A B : List Char → Prop) (ts : List Token) : Prop :=
  ∀ us, Parted us → A (chars us) → Parted (ts ++ us) ∧ B (chars (ts ++ us))

namespace Fits

variable {A B C : List Char → Prop} {ts us : List Token}

theorem nil : Fits A A [] := fun _ hus hA => ⟨hus, hA⟩

theorem append (h : Fits B C ts) (h' : Fits A B us) : Fits A C (ts ++ us) := by
  intro vs hvs hA
  rw [List.append_assoc]
  obtain ⟨hus, hB⟩ := h' vs hvs hA
  exact h (us ++ vs) hus hB

end Fits

/-- What is printed of a term: it begins with no blank, and no character of a name may follow. -/
abbrev Solid : List Token → Prop := Fits (Stops isNameChar) (Stops isBlankChar)

/-- What stands between two terms. -/
abbrev Separates : List Token → Prop := Fits (Stops isBlankChar) (Stops isNameChar)

/-- What stands before a term. -/
abbrev Opens : List Token → Prop := Fits (Stops isBlankChar) (Stops isBlankChar)

/-- What stands behind a term. -/
abbrev Closes : List Token → Prop := Fits (Stops isNameChar) (Stops isNameChar)

theorem cut_space {rest : List Char} (h : Stops isBlankChar rest) : space.Cut rest :=
  .inl ⟨by decide, List.all_eq_true.1 (by decide), h⟩

theorem separates_space : Separates [.space] := fun _ hus h => ⟨⟨cut_space h, hus⟩, rfl⟩

theorem cut_symbol {s : Symbol} {rest : List Char} (h : Stops (· == ':') rest) :
    (Token.symbol s).Cut rest := by
  cases s with
  | colon => exact h
  | _ => trivial

theorem stops_symbol (s : Symbol) (us : List Token) :
    Stops isBlankChar (chars (.symbol s :: us)) := by
  cases s <;> rfl

theorem separates_symbol (s : Symbol) : Separates [.space, .symbol s, .space] := by
  intro us hus h
  exact ⟨⟨cut_space (stops_symbol s _), cut_symbol rfl, cut_space h, hus⟩, rfl⟩

theorem fits_symbol {A : List Char → Prop} {s : Symbol} (hs : s ≠ .colon) :
    Fits A (Stops isBlankChar) [.symbol s] := by
  intro us hus _
  refine ⟨⟨?_, hus⟩, stops_symbol s us⟩
  cases s with
  | colon => exact absurd rfl hs
  | _ => trivial

theorem opens_word (k : Keyword) : Opens [.word k, .space] := by
  intro us hus h
  refine ⟨⟨rfl, cut_space h, hus⟩, ?_⟩
  cases k <;> rfl

/-- A bar ends a domain. -/
theorem separates_pipe : Separates [.symbol .pipe, .space] :=
  fun _ hus h => ⟨⟨trivial, cut_space h, hus⟩, rfl⟩

theorem separates_pipe_arrow : Separates [.symbol .pipe, .space, .symbol .arrow, .space] :=
  fun _ hus h => ⟨⟨trivial, cut_space rfl, trivial, cut_space h, hus⟩, rfl⟩

theorem separates_semi : Separates [.symbol .semi, .space] :=
  fun _ hus h => ⟨⟨trivial, cut_space h, hus⟩, rfl⟩

theorem separates_comma : Separates [.symbol .comma, .space] :=
  fun _ hus h => ⟨⟨trivial, cut_space h, hus⟩, rfl⟩

theorem closes_parenR : Closes [.symbol .parenR] := fun _ hus _ => ⟨⟨trivial, hus⟩, rfl⟩

theorem solid_name {x : Name} (hx : IsName x) : Solid [.name x] := by
  intro us hus h
  refine ⟨⟨⟨hx, h⟩, hus⟩, ?_⟩
  obtain ⟨c, cs, hcs, hc, _⟩ := hx.1
  rw [List.cons_append, chars_cons, text, hcs]
  exact (not_blank_of_isAlpha hc).1

theorem IsName.ne_lowDash {x : Name} (hx : IsName x) : x ≠ "_" := by
  rintro rfl
  obtain ⟨c, cs, hcs, hc, _⟩ := hx.1
  obtain rfl : '_' = c := (List.cons.inj hcs).1
  revert hc
  decide

theorem solid_word (k : Keyword) : Solid [.word k] := by
  intro us hus h
  refine ⟨⟨h, hus⟩, ?_⟩
  cases k <;> rfl

theorem isDigit_of_mem_toString {n : Nat} {c : Char} (h : c ∈ (toString n).toList) :
    c.isDigit = true := by
  rw [Nat.toString_eq_repr, Nat.toList_repr] at h
  exact Nat.isDigit_of_mem_toDigits (by decide) (by decide) h

theorem solid_number (n : Nat) : Solid [.number (toString n)] := by
  intro us hus h
  have hne : (toString n).toList ≠ [] := by
    rw [Nat.toString_eq_repr, Nat.toList_repr]
    exact Nat.toDigits_ne_nil
  have hstop : Stops Char.isDigit (chars us) := by
    cases hcs : chars us with
    | nil => trivial
    | cons c cs =>
      rw [hcs] at h
      have hc : isNameChar c = false := h
      simp only [isNameChar, Char.isAlphanum, Bool.or_eq_false_iff] at hc
      exact hc.1.1.2
  refine ⟨⟨⟨hne, fun _ => isDigit_of_mem_toString, hstop⟩, hus⟩, ?_⟩
  cases hcs : (toString n).toList with
  | nil => exact absurd hcs hne
  | cons c cs =>
    have hc : c.isDigit = true := isDigit_of_mem_toString (hcs ▸ List.mem_cons_self)
    rw [List.cons_append, chars_cons, text, hcs]
    exact (not_blank_of_isDigit hc).1

@[simp] theorem visible_nil : visible [] = [] := rfl

@[simp] theorem visible_append (ts us : List Token) :
    visible (ts ++ us) = visible ts ++ visible us := List.filter_append ..

@[simp] theorem visible_space (ts : List Token) : visible (.space :: ts) = visible ts :=
  visible_blank _ ts

@[simp] theorem visible_word (k : Keyword) (ts : List Token) :
    visible (.word k :: ts) = .word k :: visible ts := rfl

@[simp] theorem visible_name (x : Name) (ts : List Token) :
    visible (.name x :: ts) = .name x :: visible ts := rfl

@[simp] theorem visible_number (d : String) (ts : List Token) :
    visible (.number d :: ts) = .number d :: visible ts := rfl

@[simp] theorem visible_symbol (s : Symbol) (ts : List Token) :
    visible (.symbol s :: ts) = .symbol s :: visible ts := rfl

@[simp] theorem visible_label (l : Label) (ts : List Token) :
    visible (l.token :: ts) = Grammar.labelYield l ++ visible ts := by
  cases l <;> rfl

end Token

/-- The label of a binder is a name, if there is one. -/
def Label.Spelled (l : Label) : Prop := ∀ x ∈ l, Token.IsName x

theorem Label.Spelled.solid {l : Label} (h : l.Spelled) : Token.Solid [l.token] := by
  cases l with
  | none => exact Token.fits_symbol (by decide)
  | some x => exact Token.solid_name (h x rfl)

/-! ### The expression of a term -/

/-- The name of a family, if there is one. -/
def Signature.familyName (S : Signature) (id : FamilyId) : Name :=
  ((S.family? id).map Family.name).getD ""

/-- The name of a constructor, if there is one. -/
def Signature.constructorName (S : Signature) (id : ConstructorId) : Name :=
  ((S.constructor? id).map Constructor.name).getD ""

namespace Term

mutual

/-- The expression that a term is printed as. -/
def expression (S : Signature) : Term → Expression
  | .var label _ => .var default label.text
  | .const c => .var default c
  | .letIn label A a b => .typedLet default ⟨label, 0⟩ (A.expression S) (a.expression S)
      (b.expression S)
  | .type level => .type default level
  | .pi label A B => .pi default ⟨label, 0⟩ (A.expression S) (B.expression S)
  | .lam label A b => .typedLam default ⟨label, 0⟩ (A.expression S) (b.expression S)
  | .app f a => .call default (f.expression S) (a.expression S)
  | .former id as => (expressions S as).foldl (.call default) (.var default (S.familyName id))
  | .con id as => (expressions S as).foldl (.call default) (.var default (S.constructorName id))
  | .elim t M ms => .elim default (t.expression S) (M.expression S) (expressions S ms)

/-- The expressions that terms are printed as. -/
def expressions (S : Signature) : List Term → List Expression
  | [] => []
  | t :: ts => t.expression S :: expressions S ts

end

theorem expressions_eq_map (S : Signature) (ts : List Term) :
    expressions S ts = ts.map (expression S) := by
  induction ts with
  | nil => rfl
  | cons t ts ih => rw [expressions, ih, List.map_cons]

mutual

/-- All names in a term are names, variables and declared things have one, and families and
constructors are declared. -/
def Spelled (S : Signature) : Term → Prop
  | .var label _ => ∃ x, label = some x ∧ Token.IsName x
  | .const c => Token.IsName c
  | .letIn label A a b => label.Spelled ∧ A.Spelled S ∧ a.Spelled S ∧ b.Spelled S
  | .type _ => True
  | .pi label A B => label.Spelled ∧ A.Spelled S ∧ B.Spelled S
  | .lam label A b => label.Spelled ∧ A.Spelled S ∧ b.Spelled S
  | .app f a => f.Spelled S ∧ a.Spelled S
  | .former id as => (∃ F, S.family? id = some F ∧ Token.IsName F.name) ∧ AllSpelled S as
  | .con id as => (∃ K, S.constructor? id = some K ∧ Token.IsName K.name) ∧ AllSpelled S as
  | .elim t M ms => t.Spelled S ∧ M.Spelled S ∧ AllSpelled S ms

/-- The same for a list of terms. -/
def AllSpelled (S : Signature) : List Term → Prop
  | [] => True
  | t :: ts => t.Spelled S ∧ AllSpelled S ts

end

mutual

/-- Local definitions stand only where they are admitted or get parentheses.  The term itself may
be one if `full`. -/
def Placed : (full : Bool) → Term → Prop
  | _, .var _ _ => True
  | _, .const _ => True
  | full, .letIn _ A a b => full = true ∧ A.Placed false ∧ a.Placed false ∧ b.Placed true
  | _, .type _ => True
  | _, .pi none A B => A.Placed true ∧ B.Placed false
  | _, .pi (some _) A B => A.Placed false ∧ B.Placed false
  | _, .lam _ A b => A.Placed false ∧ b.Placed false
  | _, .app f a => f.Placed true ∧ a.Placed true
  | _, .former _ as => AllPlaced as
  | _, .con _ as => AllPlaced as
  | _, .elim t M ms => t.Placed true ∧ M.Placed false ∧ AllPlaced ms

/-- The same for a list of terms that may be local definitions. -/
def AllPlaced : List Term → Prop
  | [] => True
  | t :: ts => t.Placed true ∧ AllPlaced ts

end

/-! ### Derivations of what is printed -/

open Token Grammar

/-- Tokens are those of a term: they are cut off what follows, and derived in each position in
which they stand without parentheses. -/
structure Printed (S : Signature) (t : Term) (ts : List Token) : Prop where
  solid : Solid ts
  full : t.Placed true → ∃ d : Full, d.yield = visible ts ∧ d.tree = t.expression S
  headed : t.Placed false → ∃ d : Headed, d.yield = visible ts ∧ d.tree = t.expression S
  spine : t.isSpine = true → t.Placed true →
    ∃ d : Spine, d.yield = visible ts ∧ d.tree = t.expression S
  atom : t.isAtomic = true → ∃ d : Grammar.Atom, d.yield = visible ts ∧ d.tree = t.expression S

variable {S : Signature} {t : Term} {ts : List Token}

theorem isSpine_of_isAtomic (h : t.isAtomic = true) : t.isSpine = true := by
  cases t <;> first | rfl | exact h

namespace Printed

theorem of_headed (hts : Solid ts) (hs : t.isSpine = false)
    (hp : t.Placed true → t.Placed false)
    (h : t.Placed false → ∃ d : Headed, d.yield = visible ts ∧ d.tree = t.expression S) :
    Printed S t ts where
  solid := hts
  full hfull := by
    obtain ⟨d, hd⟩ := h (hp hfull)
    exact ⟨.headed d, hd⟩
  headed := h
  spine hspine := by cases hs.symm.trans hspine
  atom hatom := by cases hs.symm.trans (isSpine_of_isAtomic hatom)

theorem of_spine (hts : Solid ts) (hp : t.Placed false → t.Placed true)
    (h : t.Placed true → ∃ d : Spine, d.yield = visible ts ∧ d.tree = t.expression S)
    (ha : t.isAtomic = true → ∃ d : Grammar.Atom, d.yield = visible ts ∧ d.tree = t.expression S) :
    Printed S t ts where
  solid := hts
  full hfull := by
    obtain ⟨d, hd⟩ := h hfull
    exact ⟨.headed (.spine d), hd⟩
  headed hheaded := by
    obtain ⟨d, hd⟩ := h (hp hheaded)
    exact ⟨.spine d, hd⟩
  spine _ := h
  atom := ha

theorem of_atom (hts : Solid ts) (hp : t.Placed false → t.Placed true)
    (h : ∃ d : Grammar.Atom, d.yield = visible ts ∧ d.tree = t.expression S) : Printed S t ts := by
  refine of_spine hts hp (fun _ => ?_) fun _ => h
  obtain ⟨d, hd, htree⟩ := h
  exact ⟨.mk d [], by rw [Spine.yield, hd]; simp [Grammar.Atom.yields], htree⟩

/-- In parentheses a term is an atom. -/
theorem exists_parenthesized (h : Printed S t ts) (hp : t.Placed true) :
    ∃ d : Grammar.Atom, d.yield = visible (wrap false ts) ∧ d.tree = t.expression S := by
  obtain ⟨d, hd, htree⟩ := h.full hp
  exact ⟨.parenthesized d, by simp [Grammar.Atom.yield, wrap, hd], htree⟩

theorem exists_atom (h : Printed S t ts) (hp : t.Placed true) :
    ∃ d : Grammar.Atom, d.yield = visible (wrap t.isAtomic ts) ∧ d.tree = t.expression S := by
  cases hatom : t.isAtomic with
  | true => exact h.atom hatom
  | false => exact h.exists_parenthesized hp

theorem exists_spine (h : Printed S t ts) (hp : t.Placed true) :
    ∃ d : Spine, d.yield = visible (wrap t.isSpine ts) ∧ d.tree = t.expression S := by
  cases hspine : t.isSpine with
  | true => exact h.spine hspine hp
  | false =>
    obtain ⟨d, hd, htree⟩ := h.exists_parenthesized hp
    exact ⟨.mk d [], by rw [Spine.yield, hd]; simp [Grammar.Atom.yields], htree⟩

theorem solid_wrap (h : Printed S t ts) (bare : Bool) : Solid (wrap bare ts) := by
  cases bare with
  | true => exact h.solid
  | false => exact (fits_symbol (by decide)).append (h.solid.append closes_parenR)

end Printed

/-! ### One case for each form -/

theorem decimal_toString (n : Nat) : decimal (toString n).toList = n := by
  have h := foldl_decimal (Nat.toDigits 10 n) 0
  rw [Nat.zero_mul, Nat.zero_add] at h
  rw [Nat.toString_eq_repr, Nat.toList_repr, ← h]
  exact Nat.ofDigitChars_toDigits (by decide) (by decide)

theorem printed_type (level : UInt64) :
    ∃ ts, (Term.type level).tokens S = some ts ∧ Printed S (.type level) ts := by
  rw [tokens]
  by_cases hl : level = 0
  · subst hl
    exact ⟨_, rfl, .of_atom (solid_word .type) id ⟨.type none, rfl, rfl⟩⟩
  · have hfits : decimal (toString level.toNat).toList < UInt64.size := by
      rw [decimal_toString]
      exact level.toNat_lt
    refine ⟨_, if_neg hl, .of_spine ((opens_word .type).append (solid_number _)) id
      (fun _ => ?_) ?_⟩
    · refine ⟨.mk (.type (some ⟨_, hfits⟩)) [],
        by simp [Spine.yield, Grammar.Atom.yields, Grammar.Atom.yield], ?_⟩
      have hlevel : (Numeral.mk (toString level.toNat) hfits).level = level := by
        apply UInt64.toNat_inj.1
        rw [Numeral.level, UInt64.toNat_ofNatLT, decimal_toString]
      exact congrArg (Expression.type default) hlevel
    · intro hatom
      exact absurd (beq_iff_eq.1 hatom) hl

theorem printed_letIn {label : Label} {A a b : Term} (hl : label.Spelled) {ts us vs : List Token}
    (hA : Printed S A ts) (ha : Printed S a us) (hb : Printed S b vs) :
    Printed S (.letIn label A a b)
      ([.word .letIn, .space, label.token, .space, .symbol .colon, .space] ++ ts
        ++ [.space, .symbol .equal, .space] ++ us ++ [.symbol .semi, .space] ++ vs) where
  solid := by
    have hhead : Opens [.word .letIn, .space, label.token, .space, .symbol .colon, .space] :=
      (opens_word .letIn).append (hl.solid.append (separates_symbol .colon))
    exact ((((hhead.append hA.solid).append (separates_symbol .equal)).append ha.solid).append
      separates_semi).append hb.solid
  full := by
    rintro ⟨_, hpA, hpa, hpb⟩
    obtain ⟨dA, hdA, htA⟩ := hA.headed hpA
    obtain ⟨da, hda, hta⟩ := ha.headed hpa
    obtain ⟨db, hdb, htb⟩ := hb.full hpb
    refine ⟨.typedLet label dA da db, ?_, ?_⟩
    · simp [Full.yield, hdA, hda, hdb]
    · rw [Full.tree, htA, hta, htb, expression]
  headed := by
    rintro ⟨h, _⟩
    cases h
  spine := by rintro ⟨⟩
  atom := by rintro ⟨⟩

theorem printed_arrow {A B : Term} {ts us : List Token} (hA : Printed S A ts)
    (hB : Printed S B us) :
    Printed S (.pi none A B) (wrap A.isSpine ts ++ [.space, .symbol .arrow, .space] ++ us) := by
  refine .of_headed (((hA.solid_wrap _).append (separates_symbol .arrow)).append hB.solid) rfl id ?_
  rintro ⟨hpA, hpB⟩
  obtain ⟨dA, hdA, htA⟩ := hA.exists_spine hpA
  obtain ⟨dB, hdB, htB⟩ := hB.headed hpB
  refine ⟨.arrow dA dB, ?_, ?_⟩
  · simp [Headed.yield, hdA, hdB]
  · rw [Headed.tree, htA, htB, expression]

theorem printed_pi {x : Name} {A B : Term} (hx : IsName x) {ts us : List Token}
    (hA : Printed S A ts) (hB : Printed S B us) :
    Printed S (.pi (some x) A B) ([.symbol .pipe, Label.token (some x), .space, .symbol .colon,
      .space] ++ ts ++ [.symbol .pipe, .space, .symbol .arrow, .space] ++ us) := by
  have hhead : Opens [.symbol .pipe, Label.token (some x), .space, .symbol .colon, .space] :=
    (fits_symbol (by decide)).append ((solid_name hx).append (separates_symbol .colon))
  refine .of_headed (((hhead.append hA.solid).append separates_pipe_arrow).append hB.solid) rfl
    id ?_
  rintro ⟨hpA, hpB⟩
  obtain ⟨dA, hdA, htA⟩ := hA.headed hpA
  obtain ⟨dB, hdB, htB⟩ := hB.headed hpB
  refine ⟨.pi (some x) dA dB, ?_, ?_⟩
  · simp [Headed.yield, hdA, hdB]
  · rw [Headed.tree, htA, htB, expression]

theorem printed_lam {label : Label} {A b : Term} (hl : label.Spelled) {ts us : List Token}
    (hA : Printed S A ts) (hb : Printed S b us) :
    Printed S (.lam label A b) ([.symbol .pipe, label.token, .space, .symbol .colon, .space] ++ ts
      ++ [.symbol .pipe, .space] ++ us) := by
  have hhead : Opens [.symbol .pipe, label.token, .space, .symbol .colon, .space] :=
    (fits_symbol (by decide)).append (hl.solid.append (separates_symbol .colon))
  refine .of_headed (((hhead.append hA.solid).append separates_pipe).append hb.solid) rfl id ?_
  rintro ⟨hpA, hpb⟩
  obtain ⟨dA, hdA, htA⟩ := hA.headed hpA
  obtain ⟨db, hdb, htb⟩ := hb.headed hpb
  refine ⟨.typedLam label dA db, ?_, ?_⟩
  · simp [Headed.yield, hdA, hdb]
  · rw [Headed.tree, htA, htb, expression]

theorem printed_app {f a : Term} {ts us : List Token} (hf : Printed S f ts)
    (ha : Printed S a us) :
    Printed S (.app f a) (wrap f.isSpine ts ++ .space :: wrap a.isAtomic us) := by
  refine .of_spine ((hf.solid_wrap _).append (separates_space.append (ha.solid_wrap _))) id ?_ ?_
  · rintro ⟨hpf, hpa⟩
    obtain ⟨⟨b, bs⟩, hdf, htf⟩ := hf.exists_spine hpf
    obtain ⟨da, hda, hta⟩ := ha.exists_atom hpa
    refine ⟨.mk b (bs ++ [da]), ?_, ?_⟩
    · simp [← hdf, ← hda, Spine.yield]
    · simp [← htf, ← hta, Spine.tree, expression]
  · rintro ⟨⟩

/-- Tokens are those of arguments, each after a space. -/
structure PrintedArguments (S : Signature) (as : List Term) (ts : List Token) : Prop where
  closes : Closes ts
  atoms : AllPlaced as →
    ∃ ds : List Grammar.Atom, ds.flatMap Grammar.Atom.yield = visible ts ∧
      ds.map Grammar.Atom.tree = expressions S as

theorem printedArguments_nil : PrintedArguments S [] [] := ⟨.nil, fun _ => ⟨[], rfl, rfl⟩⟩

theorem printedArguments_cons {a : Term} {as : List Term} {ts us : List Token}
    (ha : Printed S a ts) (has : PrintedArguments S as us) :
    PrintedArguments S (a :: as) (.space :: wrap a.isAtomic ts ++ us) := by
  refine ⟨(separates_space.append (ha.solid_wrap _)).append has.closes, ?_⟩
  rintro ⟨hpa, hpas⟩
  obtain ⟨d, hd, htree⟩ := ha.exists_atom hpa
  obtain ⟨ds, hds, htrees⟩ := has.atoms hpas
  refine ⟨d :: ds, ?_, ?_⟩
  · simp [hd, hds]
  · rw [List.map_cons, htree, htrees, expressions]

/-- A declared name with arguments. -/
theorem printed_tag {x : Name} {as : List Term} {ts : List Token} (hx : IsName x)
    (has : PrintedArguments S as ts) (hp : ∀ full, t.Placed full ↔ AllPlaced as)
    (ht : t.expression S = (expressions S as).foldl (.call default) (.var default x))
    (hatom : t.isAtomic = as.isEmpty) : Printed S t (.name x :: ts) := by
  refine .of_spine ((solid_name hx).append has.closes) (fun h => (hp true).2 ((hp false).1 h))
    (fun h => ?_) fun h => ?_
  · obtain ⟨ds, hds, htrees⟩ := has.atoms ((hp true).1 h)
    refine ⟨.mk (.name x) ds, ?_, ?_⟩
    · simp [Spine.yield, Grammar.Atom.yield, ← hds, List.flatMap]
    · rw [Spine.tree, Grammar.Atom.trees_eq_map, htrees, ht]
      rfl
  · obtain rfl : as = [] := List.isEmpty_iff.1 (hatom.symm.trans h)
    obtain ⟨ds, hds, htrees⟩ := has.atoms trivial
    obtain rfl : ds = [] := List.map_eq_nil_iff.1 htrees
    refine ⟨.name x, ?_, ?_⟩
    · simp [Grammar.Atom.yield, ← hds]
    · rw [ht]
      rfl

/-- Commas between solid things. -/
theorem solid_intercalate {ts : List Token} {tss : List (List Token)} (h : Solid ts)
    (hs : ∀ us ∈ tss, Solid us) :
    Solid ([Token.symbol .comma, .space].intercalate (ts :: tss)) := by
  induction tss generalizing ts with
  | nil => simpa [List.intercalate] using h
  | cons us tss ih =>
    obtain ⟨hus, htss⟩ := List.forall_mem_cons.1 hs
    have hrest := separates_comma.append (ih hus htss)
    simpa [List.intercalate] using h.append hrest

theorem visible_intercalate (ts : List Token) (tss : List (List Token)) :
    visible ([Token.symbol .comma, .space].intercalate (ts :: tss)) =
      separated ((ts :: tss).map visible) := by
  induction tss generalizing ts with
  | nil => simp [List.intercalate, separated]
  | cons us tss ih =>
    have hcons : [Token.symbol .comma, .space].intercalate (ts :: us :: tss) =
        ts ++ [.symbol .comma, .space] ++
          [Token.symbol .comma, .space].intercalate (us :: tss) := by
      simp [List.intercalate]
    rw [hcons, visible_append, visible_append, ih]
    simp [separated]

theorem closes_braced {tss : List (List Token)} (h : ∀ ts ∈ tss, Solid ts) :
    Closes (.space :: bracedTokens tss) := by
  cases tss with
  | nil => exact fun _ hus _ => ⟨⟨cut_space rfl, trivial, trivial, hus⟩, rfl⟩
  | cons ts tss =>
    obtain ⟨hts, htss⟩ := List.forall_mem_cons.1 h
    have hopen : Separates [.space, .symbol .curlyL, .space] := separates_symbol .curlyL
    have hclose : Closes [.space, .symbol .curlyR] :=
      fun _ hus _ => ⟨⟨cut_space rfl, trivial, hus⟩, rfl⟩
    exact (hopen.append (solid_intercalate hts htss)).append hclose

theorem visible_braced (tss : List (List Token)) :
    visible (bracedTokens tss) = bracedYield (tss.map visible) false := by
  cases tss with
  | nil => rfl
  | cons ts tss =>
    rw [bracedTokens, visible_append, visible_append, visible_intercalate]
    · simp [bracedYield]
    · exact List.cons_ne_nil ts tss

theorem printed_elim {M : Term} {ms : List Term} {ts us : List Token} {tss : List (List Token)}
    (ht : Printed S t ts) (hM : Printed S M us) (hms : List.Forall₂ (Printed S) ms tss) :
    Printed S (.elim t M ms) ([.word .elim, .space] ++ wrap t.isSpine ts
      ++ [.space, .symbol .twoColon, .space] ++ us ++ .space :: bracedTokens tss) := by
  have hclose : Closes (.space :: bracedTokens tss) :=
    closes_braced (forall_mem_of_forall₂ (hms.imp fun _ _ h => h.solid))
  refine .of_headed (((((opens_word .elim).append (ht.solid_wrap _)).append
    (separates_symbol .twoColon)).append hM.solid).append hclose) rfl id ?_
  rintro ⟨hpt, hpM, hpms⟩
  obtain ⟨dt, hdt, htt⟩ := ht.exists_spine hpt
  obtain ⟨dM, hdM, htM⟩ := hM.headed hpM
  obtain ⟨ds, hds, htrees⟩ : ∃ ds : List Full, ds.map Full.yield = tss.map visible ∧
      ds.map Full.tree = expressions S ms := by
    clear hclose
    induction hms with
    | nil => exact ⟨[], rfl, rfl⟩
    | cons hm _ ih =>
      obtain ⟨d, hd, htree⟩ := hm.full hpms.1
      obtain ⟨ds, hds, htrees⟩ := ih hpms.2
      refine ⟨d :: ds, ?_, ?_⟩
      · rw [List.map_cons, List.map_cons, hd, hds]
      · rw [List.map_cons, htree, htrees, expressions]
  refine ⟨.elim dt dM ds false, ?_, ?_⟩
  · simp [Headed.yield, hdt, hdM, hds, visible_braced]
  · rw [Headed.tree, htt, htM, Full.trees_eq_map, htrees, expression]

/-! ### All terms -/

mutual

/-- **Every term whose names are names is printed**, by recursion on the term. -/
theorem exists_printed : ∀ t : Term, t.Spelled S → ∃ ts, t.tokens S = some ts ∧ Printed S t ts
  | .var _ _, h => by
    obtain ⟨x, rfl, hx⟩ := h
    exact ⟨_, rfl, .of_atom (solid_name hx) id ⟨.name x, rfl, rfl⟩⟩
  | .const c, h => ⟨_, rfl, .of_atom (solid_name h) id ⟨.name c, rfl, rfl⟩⟩
  | .type level, _ => printed_type level
  | .letIn label A a b, h => by
    obtain ⟨ts, hts, hA⟩ := exists_printed A h.2.1
    obtain ⟨us, hus, ha⟩ := exists_printed a h.2.2.1
    obtain ⟨vs, hvs, hb⟩ := exists_printed b h.2.2.2
    refine ⟨_, ?_, printed_letIn h.1 hA ha hb⟩
    rw [tokens, hts, hus, hvs]
    rfl
  | .pi none A B, h => by
    obtain ⟨ts, hts, hA⟩ := exists_printed A h.2.1
    obtain ⟨us, hus, hB⟩ := exists_printed B h.2.2
    refine ⟨_, ?_, printed_arrow hA hB⟩
    rw [tokens, hts, hus]
    rfl
  | .pi (some x) A B, h => by
    obtain ⟨ts, hts, hA⟩ := exists_printed A h.2.1
    obtain ⟨us, hus, hB⟩ := exists_printed B h.2.2
    have hx : IsName x := h.1 x rfl
    have hne : Label.text (some x) ≠ "_" := hx.ne_lowDash
    refine ⟨_, ?_, printed_pi hx hA hB⟩
    rw [tokens, hts, hus]
    exact if_neg hne
  | .lam label A b, h => by
    obtain ⟨ts, hts, hA⟩ := exists_printed A h.2.1
    obtain ⟨us, hus, hb⟩ := exists_printed b h.2.2
    refine ⟨_, ?_, printed_lam h.1 hA hb⟩
    rw [tokens, hts, hus]
    rfl
  | .app f a, h => by
    obtain ⟨ts, hts, hf⟩ := exists_printed f h.1
    obtain ⟨us, hus, ha⟩ := exists_printed a h.2
    refine ⟨_, ?_, printed_app hf ha⟩
    rw [tokens, hts, hus]
    rfl
  | .former id as, h => by
    obtain ⟨⟨F, hF, hx⟩, has⟩ := h
    obtain ⟨ts, hts, hp⟩ := exists_printedArguments as has
    refine ⟨.name F.name :: ts, ?_, printed_tag hx hp (fun _ => Iff.rfl) ?_ rfl⟩
    · rw [tokens, hF, hts]
      rfl
    · rw [expression, Signature.familyName, hF]
      rfl
  | .con id as, h => by
    obtain ⟨⟨K, hK, hx⟩, has⟩ := h
    obtain ⟨ts, hts, hp⟩ := exists_printedArguments as has
    refine ⟨.name K.name :: ts, ?_, printed_tag hx hp (fun _ => Iff.rfl) ?_ rfl⟩
    · rw [tokens, hK, hts]
      rfl
    · rw [expression, Signature.constructorName, hK]
      rfl
  | .elim t M ms, h => by
    obtain ⟨ts, hts, ht⟩ := exists_printed t h.1
    obtain ⟨us, hus, hM⟩ := exists_printed M h.2.1
    obtain ⟨tss, htss, hms⟩ := exists_printedMethods ms h.2.2
    refine ⟨_, ?_, printed_elim ht hM hms⟩
    rw [tokens, hts, hus, htss]
    rfl

theorem exists_printedArguments : ∀ as : List Term, AllSpelled S as →
    ∃ ts, argumentTokens S as = some ts ∧ PrintedArguments S as ts
  | [], _ => ⟨[], rfl, printedArguments_nil⟩
  | a :: as, h => by
    obtain ⟨ts, hts, ha⟩ := exists_printed a h.1
    obtain ⟨us, hus, has⟩ := exists_printedArguments as h.2
    refine ⟨_, ?_, printedArguments_cons ha has⟩
    rw [argumentTokens, hts, hus]
    rfl

theorem exists_printedMethods : ∀ ms : List Term, AllSpelled S ms →
    ∃ tss, methodTokens S ms = some tss ∧ List.Forall₂ (Printed S) ms tss
  | [], _ => ⟨[], rfl, .nil⟩
  | m :: ms, h => by
    obtain ⟨ts, hts, hm⟩ := exists_printed m h.1
    obtain ⟨tss, htss, hms⟩ := exists_printedMethods ms h.2
    refine ⟨_, ?_, .cons hm hms⟩
    rw [methodTokens, hts, htss]
    rfl

end

/-- **What is printed is read as the expression of the term.** -/
theorem parse_print (hs : t.Spelled S) (hp : t.Placed true) :
    ∃ text ts e, t.print S = some text ∧ Token.lex text = .ok ts ∧
      (Expression.parse ts).result = .ok e ∧ e.unplaced = t.expression S := by
  obtain ⟨ts, hts, h⟩ := exists_printed t hs
  obtain ⟨d, hd, htree⟩ := h.full hp
  obtain ⟨e, he, hshows⟩ := Follows.read_complete (fun n => expression_follows) hd
  refine ⟨textAll ts, ts, e, ?_, ?_, he, hshows.trans htree⟩
  · rw [print, hts]
    rfl
  · obtain ⟨hparted, _⟩ := h.solid [] trivial trivial
    rw [List.append_nil] at hparted
    refine lex_eq_ok_iff_chars.2 ⟨?_, hparted⟩
    rw [textAll, String.toList_join, List.flatMap_map, chars]

end Term

end Constructions
