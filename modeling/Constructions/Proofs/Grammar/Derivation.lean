/-
# Derivations

The language of sources, said without a reader.  A derivation is a tree with one
kind of node for each alternative of each rule:

| rule | alternatives |
| --- | --- |
| `declaration` | `data name group* : full { clause ** , [,] }`, `axiom name : full`, `def name [: full] = full`, `eval full`, `check full : full` |
| `group`, `clause` | `( label : full )`, `name : full` |
| `full` | `let label = headed ; full`, `let label : headed = headed ; full`, `headed` |
| `headed` | `\| label : headed \| -> headed`, `\| label : headed \| headed`, `spine -> headed`, `elim spine :: headed { full ** , [,] }`, `\| label+ \| headed`, `spine` |
| `spine` | `atom+` |
| `atom` | `( full : full )`, `( full )`, `Type [number]`, `name` |
| `label` | `name`, `_` |

Here `x ** ,` is a list of `x`, perhaps empty, with commas between them.  The
alternatives of a rule are not ordered and nothing is said about which of them
to try: `yield` is the list of tokens that a derivation derives, and `tree` is
the expression or declaration it stands for, with every position set to zero.
-/

import Constructions.Expression
import Constructions.Token
import Mathlib.Algebra.Group.Nat.Defs

namespace Constructions

/-- The tokens that are not blank. -/
def Token.visible (tokens : List Token) : List Token := tokens.filter (·.kind ≠ .blank)

namespace Expression

mutual

/-- An expression with its positions forgotten. -/
def unplaced : Expression → Expression
  | .var _ n => .var default n
  | .letIn _ l a b => .letIn default ⟨l.value, 0⟩ a.unplaced b.unplaced
  | .typedLet _ l t a b => .typedLet default ⟨l.value, 0⟩ t.unplaced a.unplaced b.unplaced
  | .ascribe _ e t => .ascribe default e.unplaced t.unplaced
  | .type _ level => .type default level
  | .pi _ l a b => .pi default ⟨l.value, 0⟩ a.unplaced b.unplaced
  | .lam _ l b => .lam default ⟨l.value, 0⟩ b.unplaced
  | .typedLam _ l a b => .typedLam default ⟨l.value, 0⟩ a.unplaced b.unplaced
  | .call _ f a => .call default f.unplaced a.unplaced
  | .elim _ t m ms => .elim default t.unplaced m.unplaced (unplacedAll ms)

def unplacedAll : List Expression → List Expression
  | [] => []
  | e :: es => e.unplaced :: unplacedAll es

end

@[simp] theorem unplacedAll_eq_map (es : List Expression) : unplacedAll es = es.map unplaced := by
  induction es with
  | nil => rfl
  | cons e es ih => rw [unplacedAll, ih, List.map_cons]

end Expression

/-- A parameter with its positions forgotten. -/
def Parameter.unplaced (p : Parameter) : Parameter := ⟨⟨p.label.value, 0⟩, p.type.unplaced⟩

/-- A constructor with its positions forgotten. -/
def ConstructorClause.unplaced (c : ConstructorClause) : ConstructorClause :=
  ⟨⟨c.name.value, 0⟩, c.type.unplaced⟩

/-- A command with its positions forgotten. -/
def Command.unplaced : Command → Command
  | .data n ps a cs => .data ⟨n.value, 0⟩ (ps.map Parameter.unplaced) a.unplaced
      (cs.map ConstructorClause.unplaced)
  | .postulate n t => .postulate ⟨n.value, 0⟩ t.unplaced
  | .define n t v => .define ⟨n.value, 0⟩ (t.map Expression.unplaced) v.unplaced
  | .evaluate e => .evaluate e.unplaced
  | .check e t => .check e.unplaced t.unplaced

/-- A declaration with its positions forgotten. -/
def Declaration.unplaced (d : Declaration) : Declaration := ⟨default, d.command.unplaced⟩

namespace Grammar

/-- The number that decimal digits stand for, each by its place.  The text of a number is a run of
digits, by the way a source is cut. -/
def decimal : List Char → Nat
  | [] => 0
  | c :: cs => (c.toNat - '0'.toNat) * 10 ^ cs.length + decimal cs

/-- A number that fits a universe level, which has 64 bits. -/
structure Numeral where
  digits : String
  fits : decimal digits.toList < UInt64.size

/-- The universe level that a numeral names. -/
def Numeral.level (n : Numeral) : UInt64 := .ofNatLT (decimal n.digits.toList) n.fits

mutual

/-- The derivations from `atom`. -/
inductive Atom where
  | ascription (term type : Full)
  | parenthesized (term : Full)
  | type (level : Option Numeral)
  | name (name : Name)

/-- The derivations from `spine`: an atom, and those it is called with. -/
inductive Spine where
  | mk (head : Atom) (arguments : List Atom)

/-- The derivations from `headed`. -/
inductive Headed where
  | pi (label : Label) (domain codomain : Headed)
  | typedLam (label : Label) (domain body : Headed)
  | arrow (domain : Spine) (codomain : Headed)
  | elim (target : Spine) (motive : Headed) (methods : List Full) (trailing : Bool)
  | lam (label : Label) (labels : List Label) (body : Headed)
  | spine (spine : Spine)

/-- The derivations from `full`. -/
inductive Full where
  | letIn (label : Label) (argument : Headed) (body : Full)
  | typedLet (label : Label) (type argument : Headed) (body : Full)
  | headed (headed : Headed)

end

/-- A derivation from `group`. -/
structure Group where
  label : Label
  type : Full

/-- A derivation from `clause`. -/
structure Clause where
  name : Name
  type : Full

/-- The derivations from `declaration`. -/
inductive Sentence where
  | data (name : Name) (groups : List Group) (arity : Full) (clauses : List Clause)
      (trailing : Bool)
  | postulate (name : Name) (type : Full)
  | define (name : Name) (type : Option Full) (value : Full)
  | evaluate (term : Full)
  | check (term type : Full)

/-- Names and labels have one alternative for each value, so they are their own
derivations. -/
def labelYield : Label → List Token
  | some n => [.name n]
  | none => [.symbol .lowDash]

/-- Lists of tokens with commas between them. -/
def separated : List (List Token) → List Token
  | [] => []
  | ts :: tss => ts ++ tss.flatMap (.symbol .comma :: ·)

/-- Things in braces with commas between them, and one more comma if `trailing`. -/
def bracedYield (items : List (List Token)) (trailing : Bool) : List Token :=
  .symbol .curlyL :: separated items ++ (if trailing then [.symbol .comma] else []) ++
    [.symbol .curlyR]

mutual

/-- The tokens of an atom. -/
def Atom.yield : Atom → List Token
  | .ascription e t => .symbol .parenL :: e.yield ++ .symbol .colon :: t.yield ++ [.symbol .parenR]
  | .parenthesized e => .symbol .parenL :: e.yield ++ [.symbol .parenR]
  | .type none => [.word .type]
  | .type (some n) => [.word .type, .number n.digits]
  | .name n => [.name n]

def Atom.yields : List Atom → List (List Token)
  | [] => []
  | a :: as => a.yield :: Atom.yields as

/-- The tokens of a spine. -/
def Spine.yield : Spine → List Token
  | .mk a as => a.yield ++ (Atom.yields as).flatten

/-- The tokens of a headed expression. -/
def Headed.yield : Headed → List Token
  | .pi l a b => .symbol .pipe :: labelYield l ++ .symbol .colon :: a.yield ++
      .symbol .pipe :: .symbol .arrow :: b.yield
  | .typedLam l a b => .symbol .pipe :: labelYield l ++ .symbol .colon :: a.yield ++
      .symbol .pipe :: b.yield
  | .arrow a b => a.yield ++ .symbol .arrow :: b.yield
  | .elim t m ms trailing => .word .elim :: t.yield ++ .symbol .twoColon :: m.yield ++
      bracedYield (Full.yields ms) trailing
  | .lam l ls b => .symbol .pipe :: (l :: ls).flatMap labelYield ++ .symbol .pipe :: b.yield
  | .spine s => s.yield

/-- The tokens of a full expression. -/
def Full.yield : Full → List Token
  | .letIn l a b => .word .letIn :: labelYield l ++ .symbol .equal :: a.yield ++
      .symbol .semi :: b.yield
  | .typedLet l t a b => .word .letIn :: labelYield l ++ .symbol .colon :: t.yield ++
      .symbol .equal :: a.yield ++ .symbol .semi :: b.yield
  | .headed h => h.yield

def Full.yields : List Full → List (List Token)
  | [] => []
  | e :: es => e.yield :: Full.yields es

end

@[simp] theorem Atom.yields_eq_map (as : List Atom) : Atom.yields as = as.map Atom.yield := by
  induction as with
  | nil => rfl
  | cons a as ih => rw [Atom.yields, ih, List.map_cons]

@[simp] theorem Full.yields_eq_map (es : List Full) : Full.yields es = es.map Full.yield := by
  induction es with
  | nil => rfl
  | cons e es ih => rw [Full.yields, ih, List.map_cons]

/-- The tokens of a group. -/
def Group.yield (g : Group) : List Token :=
  .symbol .parenL :: labelYield g.label ++ .symbol .colon :: g.type.yield ++ [.symbol .parenR]

/-- The tokens of a clause. -/
def Clause.yield (c : Clause) : List Token := .name c.name :: .symbol .colon :: c.type.yield

/-- The tokens of a declaration. -/
def Sentence.yield : Sentence → List Token
  | .data n gs a cs trailing => .word .data :: .name n :: gs.flatMap Group.yield ++
      .symbol .colon :: a.yield ++ bracedYield (cs.map Clause.yield) trailing
  | .postulate n t => .word .postulate :: .name n :: .symbol .colon :: t.yield
  | .define n none v => .word .define :: .name n :: .symbol .equal :: v.yield
  | .define n (some t) v => .word .define :: .name n :: .symbol .colon :: t.yield ++
      .symbol .equal :: v.yield
  | .evaluate e => .word .evaluate :: e.yield
  | .check e t => .word .check :: e.yield ++ .symbol .colon :: t.yield

mutual

/-- The expression that an atom stands for.  Parentheses leave no trace. -/
def Atom.tree : Atom → Expression
  | .ascription e t => .ascribe default e.tree t.tree
  | .parenthesized e => e.tree
  | .type none => .type default 0
  | .type (some n) => .type default n.level
  | .name n => .var default n

def Atom.trees : List Atom → List Expression
  | [] => []
  | a :: as => a.tree :: Atom.trees as

/-- The expression that a spine stands for: calls, of which the first is innermost. -/
def Spine.tree : Spine → Expression
  | .mk a as => (Atom.trees as).foldl (.call default) a.tree

/-- The expression that a headed derivation stands for. -/
def Headed.tree : Headed → Expression
  | .pi l a b => .pi default ⟨l, 0⟩ a.tree b.tree
  | .typedLam l a b => .typedLam default ⟨l, 0⟩ a.tree b.tree
  | .arrow a b => .pi default ⟨none, 0⟩ a.tree b.tree
  | .elim t m ms _ => .elim default t.tree m.tree (Full.trees ms)
  | .lam l ls b => (l :: ls).foldr (fun l b => .lam default ⟨l, 0⟩ b) b.tree
  | .spine s => s.tree

/-- The expression that a full derivation stands for. -/
def Full.tree : Full → Expression
  | .letIn l a b => .letIn default ⟨l, 0⟩ a.tree b.tree
  | .typedLet l t a b => .typedLet default ⟨l, 0⟩ t.tree a.tree b.tree
  | .headed h => h.tree

def Full.trees : List Full → List Expression
  | [] => []
  | e :: es => e.tree :: Full.trees es

end

@[simp] theorem Atom.trees_eq_map (as : List Atom) : Atom.trees as = as.map Atom.tree := by
  induction as with
  | nil => rfl
  | cons a as ih => rw [Atom.trees, ih, List.map_cons]

@[simp] theorem Full.trees_eq_map (es : List Full) : Full.trees es = es.map Full.tree := by
  induction es with
  | nil => rfl
  | cons e es ih => rw [Full.trees, ih, List.map_cons]

/-- The parameter that a group stands for. -/
def Group.tree (g : Group) : Parameter := ⟨⟨g.label, 0⟩, g.type.tree⟩

/-- The constructor that a clause stands for. -/
def Clause.tree (c : Clause) : ConstructorClause := ⟨⟨c.name, 0⟩, c.type.tree⟩

/-- The command that a declaration stands for. -/
def Sentence.command : Sentence → Command
  | .data n gs a cs _ => .data ⟨n, 0⟩ (gs.map Group.tree) a.tree (cs.map Clause.tree)
  | .postulate n t => .postulate ⟨n, 0⟩ t.tree
  | .define n t v => .define ⟨n, 0⟩ (t.map Full.tree) v.tree
  | .evaluate e => .evaluate e.tree
  | .check e t => .check e.tree t.tree

/-- The declaration that a derivation stands for. -/
def Sentence.tree (d : Sentence) : Declaration := ⟨default, d.command⟩

end Grammar
end Constructions
