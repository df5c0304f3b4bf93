/-
# Names and labels

Declared things are referred to by name.  A binder may carry a name too, its
label, which serves messages and printing; what a bound variable refers to is
decided by counting binders.
-/

namespace Constructions

/-- The name of a declared thing. -/
abbrev Name := String

/-- The name of a bound variable, if it has one. -/
abbrev Label := Option Name

/-- The text of a label; `_` stands for an absent one. -/
def Label.text (label : Label) : String := label.getD "_"

end Constructions
