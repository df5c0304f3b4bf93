/-
# Spans

A span is a half-open range of positions.  The same type serves two scales: the
bytes of a text, which is where a token lies, and the tokens of a source, which
is where an expression lies.
-/

namespace Constructions

/-- The positions from `start` up to, and without, `stop`. -/
structure Span where
  start : Nat
  stop : Nat
  deriving DecidableEq, Repr, Inhabited

/-- A value together with the position at which it is written. -/
structure Located (α : Type) where
  value : α
  locus : Nat
  deriving DecidableEq, Repr

/-- The span of the single position `locus`. -/
def Span.at (locus : Nat) : Span := ⟨locus, locus + 1⟩

end Constructions
