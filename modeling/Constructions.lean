import Constructions.Name
import Constructions.Span
import Constructions.Text.Blank
import Constructions.Text.Bytes
import Constructions.Text.Emoji
import Constructions.Text.Escape
import Constructions.Text.Ligature
import Constructions.Text.Ranges
import Constructions.Text.Width
import Constructions.Text.ZeroWidth
import Constructions.Token
import Constructions.Token.Lexer
import Constructions.Expression
import Constructions.Expression.Reader
import Constructions.Expression.Grammar
import Constructions.Term
import Constructions.Term.Printer
import Constructions.Term.Record
import Constructions.Value
import Constructions.Signature
import Constructions.Halt
import Constructions.Evaluation
import Constructions.Telescope
import Constructions.ReadBack
import Constructions.Conversion
import Constructions.Typing.Error
import Constructions.Typing.Context
import Constructions.Typing.Motive
import Constructions.Typing
import Constructions.Signature.Admission
import Constructions.Elaboration.Error
import Constructions.Elaboration
import Constructions.Session
import Constructions.Diagnostic
import Constructions.Run
import Constructions.Main
import Constructions.Proofs.Bare
import Constructions.Proofs.Bare.Reduction
import Constructions.Proofs.Bare.Confluence
import Constructions.Proofs.Bare.Conversion
import Constructions.Proofs.Plain
import Constructions.Proofs.Theory
import Constructions.Proofs.Theory.Equality
import Constructions.Proofs.Theory.Typing
import Constructions.Proofs.Theory.Telescopes
import Constructions.Proofs.Theory.Elimination
import Constructions.Proofs.Theory.Preservation
import Constructions.Proofs.Leaves
import Constructions.Proofs.Evaluation
import Constructions.Proofs.Progress
import Constructions.Proofs.ReadBack
import Constructions.Proofs.Conversion
import Constructions.Proofs.Telescope
import Constructions.Proofs.Motive
import Constructions.Proofs.Context
import Constructions.Proofs.Typing
import Constructions.Proofs.Theory.Extension
import Constructions.Proofs.Registry
import Constructions.Proofs.Admission
import Constructions.Proofs.Safety
import Constructions.Proofs.Stability
import Constructions.Proofs.Fields
import Constructions.Proofs.Positivity
import Constructions.Proofs.Universes
import Constructions.Proofs.Registry.Runs
import Constructions.Proofs.Agreement
import Constructions.Proofs.Stability.Kept
import Constructions.Proofs.Conservativity
import Constructions.Proofs.Reduction
import Constructions.Proofs.Reduction.Evaluation
import Constructions.Proofs.Reduction.Normal
import Constructions.Proofs.Normalization
import Constructions.Proofs.Conversion.Equivalence
import Constructions.Proofs.Elaboration
import Constructions.Proofs.Parametricity
import Constructions.Proofs.Conversion.NormalForms
import Constructions.Proofs.Grammar.Derivation
import Constructions.Proofs.Grammar.Rule
import Constructions.Proofs.Grammar
import Constructions.Proofs.Relabelling
import Constructions.Proofs.Relabelling.Kernel
import Constructions.Proofs.Normalization.Idempotent
import Constructions.Proofs.Relabelling.Elaboration
import Constructions.Proofs.Session
import Constructions.Proofs.Token
import Constructions.Proofs.Session.Append
import Constructions.Proofs.Printing
import Constructions.Proofs.Elaboration.Settled
import Constructions.Proofs.Elaboration.Flat
import Constructions.Proofs.Elaboration.Recovery
import Constructions.Proofs.Session.Names
import Constructions.Proofs.Session.Outcomes
import Constructions.Proofs.Resolution
import Constructions.Proofs.Constructor.Admissible
import Constructions.Proofs.Parametricity.Substitution
import Constructions.Proofs.Scope
import Constructions.Proofs.Scope.Motive
import Constructions.Proofs.Scope.Typing
import Constructions.Proofs.Scope.Runs
import Constructions.Proofs.Scope.Elaboration
import Constructions.Proofs.Reduction.Confluence
import Constructions.Proofs.Methods
import Constructions.Proofs.Elaboration.Outline
import Constructions.Proofs.Session.Failure
import Constructions.Proofs.Elimination
import Constructions.Proofs.Arity
import Constructions.Proofs.Token.Tiling
import Constructions.Proofs.Grammar.Position
import Constructions.Proofs.Grammar.Spans
import Constructions.Proofs.Grammar.Viable
import Constructions.Proofs.Refusals
import Constructions.Proofs.Session.Messages
import Constructions.Proofs.Session.Families
import Constructions.Proofs.Parametricity.Depth
import Constructions.Proofs.Grammar.Names
import Constructions.Proofs.Diagnostic
