import Predeclare.Lowering.Hoist
import Predeclare.Lowering.Identifier
import Predeclare.Options.Reader
import Predeclare.Options.Toml.Document
import Predeclare.Options.Toml.Text
import Predeclare.OrderedMap
import Predeclare.Proofs.Binding.Answers
import Predeclare.Proofs.Binding.Covers
import Predeclare.Proofs.Binding.Globals
import Predeclare.Proofs.Binding.Lexical
import Predeclare.Proofs.Binding.Mirror
import Predeclare.Proofs.Binding.OpenScope
import Predeclare.Proofs.Binding.Reached
import Predeclare.Proofs.Binding.Reports
import Predeclare.Proofs.Binding.Scoping
import Predeclare.Proofs.Binding.Shape
import Predeclare.Proofs.Binding.Walk
import Predeclare.Proofs.FirstWins
import Predeclare.Proofs.Lowering.Announcements
import Predeclare.Proofs.Lowering.CheckLog
import Predeclare.Proofs.Lowering.Early
import Predeclare.Proofs.Lowering.Exact
import Predeclare.Proofs.Lowering.FaultFree
import Predeclare.Proofs.Lowering.FirstEarly
import Predeclare.Proofs.Lowering.Identifier
import Predeclare.Proofs.Lowering.Options
import Predeclare.Proofs.Lowering.Outcome
import Predeclare.Proofs.Lowering.Placement
import Predeclare.Proofs.Lowering.Plan
import Predeclare.Proofs.Lowering.Refusal
import Predeclare.Proofs.Lowering.Runs
import Predeclare.Proofs.Lowering.Unit
import Predeclare.Proofs.Lowering.VisitOrder
import Predeclare.Proofs.Outcome
import Predeclare.Proofs.Renaming.Binding
import Predeclare.Proofs.Renaming.Interner
import Predeclare.Proofs.Renaming.Scopes
import Predeclare.Proofs.Renaming.Script
import Predeclare.Proofs.Renaming.Tree
import Predeclare.Proofs.Renaming.Unit
import Predeclare.Proofs.Renaming.Walk
import Predeclare.Proofs.Scope.Enumeration
import Predeclare.Proofs.Scope.History
import Predeclare.Proofs.Scope.SymbolHistory
import Predeclare.Proofs.Spelling
import Predeclare.Proofs.Suggestion.EditScript
import Predeclare.Proofs.Suggestion.Ranking
import Predeclare.Proofs.Target.Clauses
import Predeclare.Proofs.Target.Hygiene
import Predeclare.Proofs.Target.Literal
import Predeclare.Proofs.Target.Preservation
import Predeclare.Proofs.Target.Reading
import Predeclare.Proofs.Target.Resolution
import Predeclare.Proofs.Tree.Adoption
import Predeclare.Proofs.Tree.Layout
import Predeclare.Proofs.Tree.Order
import Predeclare.Proofs.Tree.Surface
import Predeclare.Proofs.Tree.Texts
import Predeclare.Proofs.Tree.Traversal
import Predeclare.Proofs.Tree.WellFormed
import Predeclare.Scope.Binding
import Predeclare.Scope.Declaration
import Predeclare.Scope.Suggestion
import Predeclare.Scope.Symbol
import Predeclare.Scope.Tree
import Predeclare.Source
import Predeclare.Target.Data
import Predeclare.Target.Expression
import Predeclare.Tree.Basic
import Predeclare.Tree.Builder
import Predeclare.Tree.Form
import Predeclare.Tree.Kind
import Predeclare.Tree.Locate
import Predeclare.Unit
