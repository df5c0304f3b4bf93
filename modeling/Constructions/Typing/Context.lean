/-
# Contexts

The variables in scope, the innermost first: each has a label, a type, and a
value.  The value of an ordinary variable is the variable itself; a local
definition stands for what it was defined as.
-/

import Constructions.Conversion
import Constructions.ReadBack

namespace Constructions

/-- A variable in scope. -/
structure Binding where
  label : Label
  type : Value
  value : Value

/-- A signature with the variables in scope, the innermost first. -/
structure Context where
  signature : Signature
  bindings : List Binding

namespace Context

/-- The context without variables. -/
def empty (S : Signature) : Context := ⟨S, []⟩

/-- The number of variables in scope. -/
def level (Γ : Context) : Nat := Γ.bindings.length

/-- The values of the variables in scope. -/
def env (Γ : Context) : Env := Γ.bindings.map (·.value)

/-- Adds a variable that stands for a value. -/
def define (Γ : Context) (label : Label) (type value : Value) : Context :=
  { Γ with bindings := ⟨label, type, value⟩ :: Γ.bindings }

/-- Adds a variable that stands for itself. -/
def bind (Γ : Context) (label : Label) (type : Value) : Context :=
  Γ.define label type (.var label Γ.level)

/-- Computes a term in a context. -/
def eval (Γ : Context) (n : Nat) (t : Term) : Except Halt Value := t.eval Γ.signature n Γ.env

/-- Reads a value back in a context. -/
def quote (Γ : Context) (n : Nat) (v : Value) : Except Halt Term :=
  v.readBack Γ.signature n Γ.level

/-- Are two values convertible in a context? -/
def convert (Γ : Context) (n : Nat) (l r : Value) : Except Halt Bool :=
  l.convert Γ.signature n Γ.level r

/-- The index and the type of the innermost variable with a label. -/
def lookup? (Γ : Context) (name : Name) : Option (Nat × Value) := do
  let i ← Γ.bindings.findIdx? (·.label == some name)
  let b ← Γ.bindings[i]?
  some (i, b.type)

/-- The term and the type of a declared name. -/
def lookupGlobal? (Γ : Context) (name : Name) : Option (Term × Value) := do
  match ← Γ.signature.entry? name with
  | .global =>
    let g ← Γ.signature.global? name
    some (.const name, g.type)
  | .family id =>
    let F ← Γ.signature.family? id
    some (.former id [], F.type)
  | .constructor id =>
    let K ← Γ.signature.constructor? id
    some (.con id [], K.type)

@[simp] theorem level_define (Γ : Context) (label : Label) (type value : Value) :
    (Γ.define label type value).level = Γ.level + 1 := rfl

@[simp] theorem level_bind (Γ : Context) (label : Label) (type : Value) :
    (Γ.bind label type).level = Γ.level + 1 := rfl

end Context

end Constructions
