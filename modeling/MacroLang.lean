import MacroLang.Build.Compiler
import MacroLang.Build.Files
import MacroLang.Build.Unit
import MacroLang.CommandLine.Options
import MacroLang.CommandLine.Run
import MacroLang.Error
import MacroLang.Evaluation.Basic
import MacroLang.Evaluation.Builtin
import MacroLang.Evaluation.Module
import MacroLang.Evaluation.Run
import MacroLang.Expansion.Agenda
import MacroLang.Expansion.Basic
import MacroLang.Expansion.Recursion
import MacroLang.Expansion.WorkStack
import MacroLang.Log
import MacroLang.Number.Basic
import MacroLang.Number.Double
import MacroLang.Number.Layout
import MacroLang.Number.Shortest
import MacroLang.Proofs.Expansion.Recursion
import MacroLang.Registry.Basic
import MacroLang.Registry.Session
import MacroLang.Scope.Declarations
import MacroLang.Scope.Definition
import MacroLang.Scope.SpecialForm
import MacroLang.Source.Reader
import MacroLang.Text.CharRange
import MacroLang.Text.Digit
import MacroLang.Text.Letter
import MacroLang.Text.Printable
import MacroLang.Text.Quoted
import MacroLang.Token.Basic
import MacroLang.Token.Scan
import MacroLang.Tree.Basic
import MacroLang.Tree.Datum
import MacroLang.Tree.Equality
import MacroLang.Tree.Hygiene
import MacroLang.Tree.Node
import MacroLang.Tree.Shape
import MacroLang.Tree.Template
import MacroLang.Tree.Text
import MacroLang.Main
import MacroLang.Proofs.Tree.Shape
import MacroLang.Proofs.Tree.Variables
import MacroLang.Proofs.Code
import MacroLang.Proofs.Evaluation.Frame
import MacroLang.Proofs.Evaluation.Hygiene
import MacroLang.Proofs.Expansion.Again
import MacroLang.Proofs.Expansion.Direct
import MacroLang.Proofs.Expansion.ComputedHead
import MacroLang.Proofs.Errors
import MacroLang.Proofs.Standard
import MacroLang.Proofs.Registry.Redeclaration
import MacroLang.Proofs.Expansion.Effects
import MacroLang.Proofs.Expansion.Trace
import MacroLang.Proofs.Expansion.Depth
import MacroLang.Proofs.Evaluation.Modules
import MacroLang.Proofs.Registry.Units
import MacroLang.Proofs.Build.Underway
import MacroLang.Proofs.Build.Unit
import MacroLang.Proofs.Build.History
import MacroLang.Proofs.Registry.Invariant
import MacroLang.Proofs.Registry.Lookup
import MacroLang.Proofs.Registry.Frozen
import MacroLang.Proofs.Build.Functions
import MacroLang.Proofs.Registry.Partition
import MacroLang.Proofs.Registry.Contexts
import MacroLang.Proofs.Expansion.Contexts
import MacroLang.Proofs.Tree.Closure
import MacroLang.Proofs.Source.Closure
import MacroLang.Proofs.Evaluation.Closure
import MacroLang.Proofs.Expansion.Closure
import MacroLang.Proofs.Build.Closure
import MacroLang.Proofs.Build.Trees
import MacroLang.Proofs.TwoRuns
import MacroLang.Proofs.Evaluation.Alike
import MacroLang.Proofs.Registry.MoreMacros
import MacroLang.Proofs.Expansion.MoreMacros
import MacroLang.Proofs.Expansion.Inert
import MacroLang.Proofs.Build.Alike
import MacroLang.Proofs.Build.Scopes
import MacroLang.Proofs.Build.Interchange
import MacroLang.Proofs.Build.Blocks
import MacroLang.Proofs.Build.Runs
import MacroLang.Proofs.Evaluation.Privacy
import MacroLang.Proofs.Expansion.Meaning
import MacroLang.Proofs.Source.RoundTrip
import MacroLang.Proofs.Expansion.Bound
import MacroLang.Proofs.Source.Acceptance
import MacroLang.Proofs.Evaluation.Quasiquote
import MacroLang.Proofs.Build.Locations
import MacroLang.Proofs.Tree.Tagging
import MacroLang.Proofs.Tree.Filling
import MacroLang.Proofs.Registry.Aliases
import MacroLang.Proofs.Build.Forms
import MacroLang.Proofs.Build.Scripts
import MacroLang.Proofs.Source.Coverage
import MacroLang.Proofs.Source.Places
import MacroLang.Proofs.Source.Concatenation
import MacroLang.Proofs.Expansion.Outline
import MacroLang.Proofs.Number.Rounding
import MacroLang.Proofs.Number.Shortest
import MacroLang.Proofs.Source.Decimals
import MacroLang.Proofs.Source.Printed
import MacroLang.Proofs.Source.Reprint
import MacroLang.Proofs.Tree.Equality
