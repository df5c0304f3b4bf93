/-
# Conversion

Two values are convertible if they are built alike, where

* labels do not matter;
* the bodies of binders are compared for one fresh variable;
* a function is compared with a value that can take one more argument by
  applying both to a fresh variable.

Comparison goes from left to right and ends at the first difference.
-/

import Constructions.Evaluation

namespace Constructions

/-- Can a value that is no function take one more argument? -/
def Value.applicable (S : Signature) : Value → Except Halt Bool
  | .neutral _ => .ok true
  | .former id arguments => do
    let F ← orDangling (S.family? id)
    .ok (arguments.length < F.arity)
  | .con id arguments => do
    let K ← orDangling (S.constructor? id)
    .ok (arguments.length < K.arity)
  | _ => .ok false

/-- Compares two lists of one length, element by element. -/
def convertZip {α : Type} (compare : α → α → Except Halt Bool) :
    List α → List α → Except Halt Bool
  | a :: as, b :: bs => do
    if ← compare a b then convertZip compare as bs else .ok false
  | _, _ => .ok true

/-- Compares two lists: lists of different lengths differ. -/
def convertList {α : Type} (compare : α → α → Except Halt Bool) (as bs : List α) :
    Except Halt Bool :=
  if as.length = bs.length then convertZip compare as bs else .ok false

mutual

/-- Are two values convertible in a scope of `level` variables? -/
def Value.convert (S : Signature) : Nat → Nat → Value → Value → Except Halt Bool
  | 0, _, _, _ => .error .exhausted
  | n + 1, level, l, r =>
    match l, r with
    | .neutral l, .neutral r => Neutral.convert S n level l r
    | .type l, .type r => .ok (l == r)
    | .pi d b, .pi d' b' => do
      if ← Value.convert S n level d d' then
        let v ← b.enter S n level
        let v' ← b'.enter S n level
        Value.convert S n (level + 1) v v'
      else .ok false
    | .lam d b, .lam d' b' => do
      if ← Value.convert S n level d d' then
        let v ← b.enter S n level
        let v' ← b'.enter S n level
        Value.convert S n (level + 1) v v'
      else .ok false
    | .lam _ b, r => do
      if ← r.applicable S then
        let v ← b.enter S n level
        let v' ← Value.apply S n r (b.parameter level)
        Value.convert S n (level + 1) v v'
      else .ok false
    | l, .lam _ b => do
      if ← l.applicable S then
        let v ← b.enter S n level
        let v' ← Value.apply S n l (b.parameter level)
        Value.convert S n (level + 1) v v'
      else .ok false
    | .former id as, .former id' as' =>
      if id = id' then convertList (fun a b => Value.convert S n level a b) as as'
      else .ok false
    | .con id as, .con id' as' =>
      if id = id' then convertList (fun a b => Value.convert S n level a b) as as'
      else .ok false
    | _, _ => .ok false

/-- Are two neutral values convertible in a scope of `level` variables? -/
def Neutral.convert (S : Signature) : Nat → Nat → Neutral → Neutral → Except Halt Bool
  | 0, _, _, _ => .error .exhausted
  | n + 1, level, l, r =>
    match l, r with
    | .var _ l, .var _ r => .ok (l == r)
    | .const c, .const c' => .ok (c == c')
    | .app f a, .app f' a' => do
      if ← Neutral.convert S n level f f' then Value.convert S n level a a' else .ok false
    | .elim t m ms, .elim t' m' ms' => do
      if ← Neutral.convert S n level t t' then
        if ← Value.convert S n level m m' then
          convertList (fun a b => Value.convert S n level a b) ms ms'
        else .ok false
      else .ok false
    | _, _ => .ok false

end

/-- Are the domains of two telescopes convertible, each in the scope extended by
the variables before it?  The longer one is cut to the length of the other. -/
def convertDomains (S : Signature) (n : Nat) : Nat → List Value → List Value → Except Halt Bool
  | level, d :: ds, e :: es => do
    if ← d.convert S n level e then convertDomains S n (level + 1) ds es else .ok false
  | _, _, _ => .ok true

end Constructions
