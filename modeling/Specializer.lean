import Specializer.Backend
import Specializer.Capture
import Specializer.Decimal.Shortest
import Specializer.Diagnostic
import Specializer.Handle
import Specializer.Index
import Specializer.Instance.Basic
import Specializer.Instance.Create
import Specializer.Instance.Error
import Specializer.Instance.Process
import Specializer.Instance.Request
import Specializer.Instance.Run
import Specializer.Interner
import Specializer.Literal
import Specializer.Log
import Specializer.Mangle
import Specializer.Outcome
import Specializer.Proofs.Instance.Calls
import Specializer.Proofs.Instance.Chain
import Specializer.Proofs.Instance.Concreteness
import Specializer.Proofs.Instance.Concretize
import Specializer.Proofs.Instance.Create
import Specializer.Proofs.Instance.Demand
import Specializer.Proofs.Instance.Drain
import Specializer.Proofs.Instance.Finish
import Specializer.Proofs.Instance.Process
import Specializer.Proofs.Instance.Progress
import Specializer.Proofs.Instance.Request
import Specializer.Proofs.Instance.Sharing
import Specializer.Proofs.Instance.State
import Specializer.Proofs.Instance.WellFormed
import Specializer.Proofs.Mangle.Segments
import Specializer.Proofs.Outcome
import Specializer.Proofs.Substitution.Application
import Specializer.Proofs.Substitution.Image
import Specializer.Proofs.Substitution.Laws
import Specializer.Proofs.Substitution.Lookup
import Specializer.Proofs.Tree.Lexical
import Specializer.Proofs.Types.Growth
import Specializer.Proofs.Types.History
import Specializer.Proofs.Types.Interning
import Specializer.Proofs.Types.Unfolding
import Specializer.Proofs.Types.Variables
import Specializer.Queue
import Specializer.Report.Instances
import Specializer.Report.Listing
import Specializer.Scheme
import Specializer.Settings.Basic
import Specializer.Settings.File
import Specializer.Source.File
import Specializer.Source.Span
import Specializer.Substitution.Apply
import Specializer.Substitution.Basic
import Specializer.Symbol
import Specializer.Text.Escape
import Specializer.Text.Json
import Specializer.Text.Style
import Specializer.Text.Table
import Specializer.Toml.Document
import Specializer.Toml.Format
import Specializer.Toml.Quoted
import Specializer.Toml.Scalar
import Specializer.Toml.Value
import Specializer.Tree.Expr
import Specializer.Tree.ModuleTree
import Specializer.Types.Node
import Specializer.Types.Spelling
import Specializer.Types.Store
import Specializer.Workspace
import Specializer.Proofs.Mangle.Literals
import Specializer.Proofs.Mangle.Types
import Specializer.Proofs.Instance.Names
import Specializer.Proofs.Instance.Nesting
import Specializer.Proofs.Instance.Limit
import Specializer.Proofs.Instance.Pending
import Specializer.Proofs.Instance.Residue
import Specializer.Proofs.Instance.Closures
import Specializer.Proofs.Instance.Bookkeeping
import Specializer.Proofs.Instance.Targets
import Specializer.Proofs.Tree.Acyclic
import Specializer.Proofs.Substitution.Strict
import Specializer.Proofs.Instance.Legible
import Specializer.Proofs.Instance.Lockstep
import Specializer.Proofs.Instance.Replay
import Specializer.Proofs.Instance.Rerun
import Specializer.Proofs.Instance.ModuleTypes
import Specializer.Proofs.Emission
import Specializer.Proofs.Instance.Rounds
import Specializer.Proofs.Instance.Termination
import Specializer.Proofs.Instance.Frozen
import Specializer.Proofs.Mangle.Arguments
import Specializer.Proofs.Instance.Symbols
import Specializer.Proofs.Instance.Values
import Specializer.Proofs.FirstOccurrence
import Specializer.Proofs.Tree.FreeNames
import Specializer.Proofs.Substitution.Variables
import Specializer.Proofs.Substitution.Refusal
import Specializer.Proofs.Substitution.Repeated
import Specializer.Proofs.Scheme.Checked
import Specializer.Proofs.Scheme.Opened
import Specializer.Proofs.Substitution.Agreement
import Specializer.Proofs.Scheme.Substituted
import Specializer.Proofs.Instance.FieldNames
import Specializer.Proofs.Source.Excerpts
import Specializer.Proofs.Types.FieldTables
import Specializer.Proofs.Text.Escapes
import Specializer.Proofs.Source.Underlines
import Specializer.Proofs.Settings.RoundTrip
