import NestedPascal.Binary64.Interchange
import NestedPascal.CommandLine.World
import NestedPascal.Decimal.Numeral
import NestedPascal.Json.Reader
import NestedPascal.Main
import NestedPascal.Proofs.Grammar.Block
import NestedPascal.Proofs.Grammar.Declaration
import NestedPascal.Proofs.Grammar.Expression
import NestedPascal.Proofs.Grammar.Language
import NestedPascal.Proofs.Grammar.Phrase
import NestedPascal.Proofs.Grammar.Separated
import NestedPascal.Proofs.Grammar.SourceTree
import NestedPascal.Proofs.Grammar.Statement
import NestedPascal.Proofs.Run.CallGraph
import NestedPascal.Proofs.Run.Evaluation
import NestedPascal.Proofs.Run.Events
import NestedPascal.Proofs.Run.GreaterLimit
import NestedPascal.Proofs.Run.LexicalEnvironment
import NestedPascal.Proofs.Run.Linkage
import NestedPascal.Proofs.Run.Locations
import NestedPascal.Proofs.Run.Refinement
import NestedPascal.Proofs.Run.Simulation
import NestedPascal.Proofs.Run.StaticLinks
import NestedPascal.Proofs.Run.Transition
import NestedPascal.Proofs.Run.TypeSoundness
import NestedPascal.Proofs.Run.TypedEvaluation
import NestedPascal.Proofs.Run.Unfolding
import NestedPascal.Proofs.Scope.Acceptance
import NestedPascal.Proofs.Scope.Annotation
import NestedPascal.Proofs.Scope.Binding
import NestedPascal.Proofs.Scope.BlockAnalysis
import NestedPascal.Proofs.Scope.Inference
import NestedPascal.Proofs.Scope.NameUses
import NestedPascal.Proofs.Scope.Progress
import NestedPascal.Proofs.Scope.Requirements
import NestedPascal.Proofs.Scope.Settling
import NestedPascal.Proofs.Scope.Visibility
import NestedPascal.Proofs.Scope.WellFormed
import NestedPascal.Proofs.Token.LongestMatch
import NestedPascal.Proofs.Token.Decomposition
import NestedPascal.Proofs.Token.Lexing
import NestedPascal.Proofs.Grammar.Numerals
import NestedPascal.Proofs.Run.StaticEffects
import NestedPascal.Proofs.Run.FiniteReals
import NestedPascal.Proofs.Grammar.FirstError
import NestedPascal.Proofs.Run.AlphaInvariance
import NestedPascal.Proofs.Run.Bracketing
import NestedPascal.Proofs.Run.LetterCase
import NestedPascal.Proofs.TraceFile.Summary
import NestedPascal.Proofs.Value.IntegerArithmetic
import NestedPascal.Proofs.TraceFile.CallCounts
import NestedPascal.Proofs.TraceFile.ReadBack
import NestedPascal.Proofs.CommandLine.Agreement
import NestedPascal.Proofs.CommandLine.CommandLookup
import NestedPascal.Proofs.Run.Layout
import NestedPascal.Proofs.Grammar.Nesting
import NestedPascal.Proofs.Grammar.ReportedPlaces
import NestedPascal.Proofs.Run.FailedStatement
import NestedPascal.Proofs.Run.Termination
import NestedPascal.Proofs.Scope.Outline
import NestedPascal.Proofs.Scope.Mirroring
import NestedPascal.Proofs.Scope.Moments
import NestedPascal.Proofs.Scope.BuiltinTypes
import NestedPascal.Proofs.Scope.TableHistory
import NestedPascal.Proofs.Json.Members
import NestedPascal.Proofs.Configuration.Validation
import NestedPascal.Proofs.Configuration.Resolution
import NestedPascal.Proofs.Decimal.Magnitude
import NestedPascal.Proofs.Decimal.Notation
import NestedPascal.Proofs.Decimal.Positional
import NestedPascal.Proofs.Value.Shown
