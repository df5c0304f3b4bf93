/-
# Names are resolved to what was printed

An expression is resolved to a core term without looking at types:

| expression | term |
| --- | --- |
| a name | the variable of the innermost binder with that name, else what was declared with it |
| a call | the argument is taken into the list of a former or constructor, else applied |
| a binder | one with the same label and the same domain |

What the grammar has beyond core terms, a binder without its type and an ascription, is not
resolved.  Printing a term, reading its text and resolving the names gives the term back with all
arguments of formers and constructors in their lists (`Signature.Reachable.resolve_print`).
-/

import Constructions.Proofs.Elaboration.Settled
import Constructions.Proofs.Registry.Runs

namespace Constructions

/-! ### Resolution -/

/-- What a declared name stands for, without arguments. -/
def Signature.term? (S : Signature) (name : Name) : Option Term :=
  match S.entry? name with
  | some .global => some (.const name)
  | some (.family id) => some (.former id [])
  | some (.constructor id) => some (.con id [])
  | none => none

namespace Expression

mutual

/-- The core term that an expression spells out.  The labels of the binders around it are given,
the innermost first. -/
def resolve (S : Signature) : List Label → Expression → Option Term
  | ls, .var _ x =>
    match ls.idxOf? (some x) with
    | some i => some (.var (some x) i)
    | none => S.term? x
  | ls, .typedLet _ label domain argument body => do
    let A ← domain.resolve S ls
    let a ← argument.resolve S ls
    let b ← body.resolve S (label.value :: ls)
    some (.letIn label.value A a b)
  | _, .type _ level => some (.type level)
  | ls, .pi _ label domain codomain => do
    let A ← domain.resolve S ls
    let B ← codomain.resolve S (label.value :: ls)
    some (.pi label.value A B)
  | ls, .typedLam _ label domain body => do
    let A ← domain.resolve S ls
    let b ← body.resolve S (label.value :: ls)
    some (.lam label.value A b)
  | ls, .call _ callee argument => do
    let f ← callee.resolve S ls
    let a ← argument.resolve S ls
    some (f.apply a)
  | ls, .elim _ target motive methods => do
    let t ← target.resolve S ls
    let M ← motive.resolve S ls
    let ms ← resolveAll S ls methods
    some (.elim t M ms)
  | _, .letIn .. => none
  | _, .ascribe .. => none
  | _, .lam .. => none

/-- The core terms that expressions spell out. -/
def resolveAll (S : Signature) : List Label → List Expression → Option (List Term)
  | _, [] => some []
  | ls, e :: es => do
    let t ← e.resolve S ls
    let ts ← resolveAll S ls es
    some (t :: ts)

end

variable {S : Signature}

mutual

/-- **Positions do not matter.** -/
theorem resolve_unplaced : ∀ (ls : List Label) (e : Expression),
    e.unplaced.resolve S ls = e.resolve S ls
  | _, .var .. => rfl
  | _, .letIn .. => rfl
  | ls, .typedLet _ label A a b => by
    rw [unplaced, resolve, resolve, resolve_unplaced ls A, resolve_unplaced ls a,
      resolve_unplaced (label.value :: ls) b]
  | _, .ascribe .. => rfl
  | _, .type .. => rfl
  | ls, .pi _ label A B => by
    rw [unplaced, resolve, resolve, resolve_unplaced ls A, resolve_unplaced (label.value :: ls) B]
  | _, .lam .. => rfl
  | ls, .typedLam _ label A b => by
    rw [unplaced, resolve, resolve, resolve_unplaced ls A, resolve_unplaced (label.value :: ls) b]
  | ls, .call _ f a => by
    rw [unplaced, resolve, resolve, resolve_unplaced ls f, resolve_unplaced ls a]
  | ls, .elim _ t M ms => by
    rw [unplaced, resolve, resolve, resolve_unplaced ls t, resolve_unplaced ls M,
      resolveAll_unplaced ls ms]

theorem resolveAll_unplaced : ∀ (ls : List Label) (es : List Expression),
    resolveAll S ls (unplacedAll es) = resolveAll S ls es
  | _, [] => rfl
  | ls, e :: es => by
    rw [unplacedAll, resolveAll, resolveAll, resolve_unplaced ls e, resolveAll_unplaced ls es]

end

/-- **Calls are folded**: each argument in turn is taken in. -/
theorem resolve_calls {ls : List Label} {es : List Expression} {ts : List Term}
    (hes : resolveAll S ls es = some ts) {e : Expression} {t : Term}
    (he : e.resolve S ls = some t) :
    (es.foldl (.call default) e).resolve S ls = some (ts.foldl Term.apply t) := by
  induction es generalizing e t ts with
  | nil =>
    cases hes
    exact he
  | cons a es ih =>
    obtain ⟨u, hu, hes⟩ := Option.bind_eq_some_iff.1 hes
    obtain ⟨us, hus, hes⟩ := Option.bind_eq_some_iff.1 hes
    cases hes
    refine ih hus ?_
    rw [resolve, he, hu]
    rfl

end Expression

/-! ### Arguments in their lists -/

namespace Term

mutual

/-- The term with the arguments of formers and constructors in their lists. -/
def flatten : Term → Term
  | .var label i => .var label i
  | .const c => .const c
  | .letIn label A a b => .letIn label A.flatten a.flatten b.flatten
  | .type l => .type l
  | .pi label A B => .pi label A.flatten B.flatten
  | .lam label A b => .lam label A.flatten b.flatten
  | .app f a => f.flatten.apply a.flatten
  | .former id as => .former id (flattens as)
  | .con id as => .con id (flattens as)
  | .elim t M ms => .elim t.flatten M.flatten (flattens ms)

/-- The terms with the arguments of formers and constructors in their lists. -/
def flattens : List Term → List Term
  | [] => []
  | t :: ts => t.flatten :: flattens ts

end

theorem foldl_apply_former (id : FamilyId) (as bs : List Term) :
    bs.foldl apply (.former id as) = .former id (as ++ bs) := by
  induction bs generalizing as with
  | nil => rw [List.append_nil, List.foldl_nil]
  | cons b bs ih => rw [List.foldl_cons, apply, ih, List.append_assoc, List.singleton_append]

theorem foldl_apply_con (id : ConstructorId) (as bs : List Term) :
    bs.foldl apply (.con id as) = .con id (as ++ bs) := by
  induction bs generalizing as with
  | nil => rw [List.append_nil, List.foldl_nil]
  | cons b bs ih => rw [List.foldl_cons, apply, ih, List.append_assoc, List.singleton_append]

mutual

/-- **A flat term is left as it is.** -/
theorem Flat.flatten_eq : ∀ {t : Term}, t.Flat → t.flatten = t
  | .var _ _, _ => rfl
  | .const _, _ => rfl
  | .letIn _ _ _ _, h => by rw [flatten, h.1.flatten_eq, h.2.1.flatten_eq, h.2.2.flatten_eq]
  | .type _, _ => rfl
  | .pi _ _ _, h => by rw [flatten, h.1.flatten_eq, h.2.flatten_eq]
  | .lam _ _ _, h => by rw [flatten, h.1.flatten_eq, h.2.flatten_eq]
  | .app _ _, h => by rw [flatten, h.2.1.flatten_eq, h.2.2.flatten_eq, h.1]
  | .former _ as, h => by rw [flatten, flattens_eq as h]
  | .con _ as, h => by rw [flatten, flattens_eq as h]
  | .elim _ _ ms, h => by
    rw [flatten, h.1.flatten_eq, h.2.1.flatten_eq, flattens_eq ms h.2.2]

theorem flattens_eq : ∀ ts : List Term, AllFlat ts → flattens ts = ts
  | [], _ => rfl
  | _ :: ts, h => by rw [flattens, h.1.flatten_eq, flattens_eq ts h.2]

end

end Term

/-! ### Printed terms -/

namespace Signature

variable {S : Signature}

theorem Registered.term?_global (h : S.Registered) {c : Name} {g : Global}
    (hg : S.global? c = some g) : S.term? c = some (.const c) := by
  rw [term?, (h.entry c .global).2 ⟨g, hg⟩]

theorem Registered.term?_family (h : S.Registered) {id : FamilyId} {F : Family}
    (hF : S.family? id = some F) : S.term? (S.familyName id) = some (.former id []) := by
  have hname : S.familyName id = F.name := by rw [familyName, hF]; rfl
  rw [term?, hname, (h.entry F.name (.family id)).2 ⟨F, hF, rfl⟩]

theorem Registered.term?_constructor (h : S.Registered) {id : ConstructorId} {K : Constructor}
    (hK : S.constructor? id = some K) : S.term? (S.constructorName id) = some (.con id []) := by
  have hname : S.constructorName id = K.name := by rw [constructorName, hK]; rfl
  rw [term?, hname, (h.entry K.name (.constructor id)).2 ⟨K, hK, rfl⟩]

end Signature

namespace Term

open Expression

variable {S : Signature}

theorem resolve_var {ls : List Label} {label : Label} {i : Nat}
    (h : (Term.var label i).Named S ls) :
    ((Term.var label i).expression S).resolve S ls = some (.var label i) := by
  obtain ⟨hlabel, hi⟩ := h
  obtain ⟨x, rfl⟩ := Option.ne_none_iff_exists'.1 hlabel
  have hx : ls.idxOf? (some (Label.text (some x))) = some i := hi
  rw [expression, resolve, hx]
  rfl

/-- A name that no binder hides is looked up among the declared ones. -/
theorem resolve_declared (span : Span) {ls : List Label} {x : Name} (h : some x ∉ ls) :
    (Expression.var span x).resolve S ls = S.term? x := by
  have hnone : ls.idxOf? (some x) = none := List.idxOf?_eq_none_iff.2 h
  rw [resolve, hnone]

mutual

/-- **The expression of a well-named term resolves to the term**, with arguments in their lists,
by recursion on the term. -/
theorem resolve_expression (hS : S.Registered) : ∀ {ls : List Label} (t : Term), t.Spelled S →
    t.Named S ls → t.All S.valueLeaves → (t.expression S).resolve S ls = some t.flatten
  | _, .var _ _, _, h, _ => resolve_var h
  | _, .const _, _, h, hc => by
    obtain ⟨g, hg⟩ := hc
    exact (resolve_declared default h).trans (hS.term?_global hg)
  | _, .letIn _ A a b, hs, hn, hd => by
    rw [expression, resolve, resolve_expression hS A hs.2.1 hn.1 hd.1,
      resolve_expression hS a hs.2.2.1 hn.2.1 hd.2.1,
      resolve_expression hS b hs.2.2.2 hn.2.2 hd.2.2]
    rfl
  | _, .type _, _, _, _ => rfl
  | _, .pi _ A B, hs, hn, hd => by
    rw [expression, resolve, resolve_expression hS A hs.2.1 hn.1 hd.1,
      resolve_expression hS B hs.2.2 hn.2 hd.2]
    rfl
  | _, .lam _ A b, hs, hn, hd => by
    rw [expression, resolve, resolve_expression hS A hs.2.1 hn.1 hd.1,
      resolve_expression hS b hs.2.2 hn.2 hd.2]
    rfl
  | _, .app f a, hs, hn, hd => by
    rw [expression, resolve, resolve_expression hS f hs.1 hn.1 hd.1,
      resolve_expression hS a hs.2 hn.2 hd.2]
    rfl
  | _, .former id as, hs, hn, hd => by
    obtain ⟨F, hF, _⟩ := hs.1
    have hhead := (resolve_declared default hn.1).trans (hS.term?_family hF)
    rw [expression, resolve_calls (resolveAll_expressions hS as hs.2 hn.2 hd) hhead,
      foldl_apply_former]
    rfl
  | _, .con id as, hs, hn, hd => by
    obtain ⟨K, hK, _⟩ := hs.1
    have hhead := (resolve_declared default hn.1).trans (hS.term?_constructor hK)
    rw [expression, resolve_calls (resolveAll_expressions hS as hs.2 hn.2 hd) hhead,
      foldl_apply_con]
    rfl
  | _, .elim t M ms, hs, hn, hd => by
    rw [expression, resolve, resolve_expression hS t hs.1 hn.1 hd.1,
      resolve_expression hS M hs.2.1 hn.2.1 hd.2.1,
      resolveAll_expressions hS ms hs.2.2 hn.2.2 hd.2.2]
    rfl

theorem resolveAll_expressions (hS : S.Registered) : ∀ {ls : List Label} (ts : List Term),
    AllSpelled S ts → AllNamed S ls ts → Term.Alls S.valueLeaves ts →
    resolveAll S ls (expressions S ts) = some (flattens ts)
  | _, [], _, _, _ => rfl
  | _, t :: ts, hs, hn, hd => by
    rw [expressions, resolveAll, resolve_expression hS t hs.1 hn.1 hd.1,
      resolveAll_expressions hS ts hs.2 hn.2 hd.2]
    rfl

end

end Term

/-- **Printing and reading back is the identity on well-named terms.**  If all names of a term are
identifiers, its constants, families and constructors are declared, each name resolves to what it
stands for and local definitions stand only where the grammar has them or the printer puts
parentheses, then the term has a text, the text is cut into tokens and read to its end, and what is
read resolves to the term, with the arguments of formers and constructors in their lists.  So it
resolves to the term itself if they are there already. -/
theorem Signature.Reachable.resolve_print {S : Signature} (hS : S.Reachable) {t : Term}
    (hs : t.Spelled S) (hd : t.All S.valueLeaves) (hn : t.Named S []) (hp : t.Placed true) :
    ∃ text tokens e, t.print S = some text ∧ Token.lex text = .ok tokens ∧
      (Expression.parse tokens).result = .ok e ∧ e.resolve S [] = some t.flatten ∧
      (t.Flat → e.resolve S [] = some t) := by
  obtain ⟨text, tokens, e, hprint, hlex, hparse, he⟩ := Term.parse_print hs hp
  have hresolve : e.resolve S [] = some t.flatten := by
    rw [← Expression.resolve_unplaced, he]
    exact Term.resolve_expression hS.registered t hs hn hd
  exact ⟨text, tokens, e, hprint, hlex, hparse, hresolve, fun hf => hf.flatten_eq ▸ hresolve⟩

/-- A function that doubles by recursion, at a local definition.  One name is used for two binders,
and constructors are applied. -/
def doubling : Term :=
  let N := Term.former ⟨0⟩ []
  .letIn (some "double") (.pi none N N) (.lam (some "n") N (.elim (.var (some "n") 0)
    (.lam none N N) [.con ⟨0⟩ [], .lam none N (.lam (some "n") N
      (.app (.con ⟨1⟩ []) (.app (.con ⟨1⟩ []) (.var (some "n") 0))))]))
    (.app (.var (some "double") 0) (.letIn (some "x") N (.con ⟨1⟩ [.con ⟨0⟩ []])
      (.var (some "x") 0)))

theorem doubling_resolve_print :
    let N := Term.former ⟨0⟩ []
    let text := "let double : Nat -> Nat = |n : Nat| elim n :: |_ : Nat| Nat " ++
      "{ zero, |_ : Nat| |n : Nat| succ (succ n) }; double (let x : Nat = succ zero; x)"
    naturals.Reachable ∧ doubling.Spelled naturals ∧ doubling.All naturals.valueLeaves ∧
    doubling.Named naturals [] ∧ doubling.Placed true ∧ doubling.print naturals = some text ∧
    ∃ tokens e, Token.lex text = .ok tokens ∧ (Expression.parse tokens).result = .ok e ∧
      e.resolve naturals [] = some (.letIn (some "double") (.pi none N N)
        (.lam (some "n") N (.elim (.var (some "n") 0) (.lam none N N) [.con ⟨0⟩ [], .lam none N
          (.lam (some "n") N (.con ⟨1⟩ [.con ⟨1⟩ [.var (some "n") 0]]))]))
        (.app (.var (some "double") 0) (.letIn (some "x") N (.con ⟨1⟩ [.con ⟨0⟩ []])
          (.var (some "x") 0)))) := by
  intro N text
  have hspelled : doubling.Spelled naturals := by
    have hname : ∀ x ∈ ["double", "n", "x", "Nat", "zero", "succ"], Token.IsName x := by decide
    simp only [List.forall_mem_cons] at hname
    simp [doubling, Term.Spelled, Term.AllSpelled, Label.Spelled, naturals, Signature.family?,
      Signature.constructor?, hname]
  have hdeclared : doubling.All naturals.valueLeaves := by
    simp [doubling, Term.All, Term.Alls]
  have hnamed : doubling.Named naturals [] := by
    simp [doubling, Term.Named, Term.AllNamed, List.idxOf?, List.findIdx?_cons,
      Signature.familyName, Signature.constructorName, naturals, Signature.family?,
      Signature.constructor?]
  have hplaced : doubling.Placed true := by simp [doubling, Term.Placed, Term.AllPlaced]
  have hprint : doubling.print naturals = some text := by decide +kernel
  obtain ⟨text', tokens, e, hprint', hlex, hparse, hresolve, _⟩ :=
    reachable_naturals.resolve_print hspelled hdeclared hnamed hplaced
  obtain rfl : text' = text := Option.some.inj (hprint'.symm.trans hprint)
  exact ⟨reachable_naturals, hspelled, hdeclared, hnamed, hplaced, hprint, tokens, e, hlex, hparse,
    hresolve⟩

end Constructions
