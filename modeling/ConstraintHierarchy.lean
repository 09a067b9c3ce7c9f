import ConstraintHierarchy.CommandLine.Arguments
import ConstraintHierarchy.CommandLine.Log
import ConstraintHierarchy.CommandLine.Program
import ConstraintHierarchy.Constraint
import ConstraintHierarchy.Decimal.Layout
import ConstraintHierarchy.Decimal.Reading
import ConstraintHierarchy.Decimal.Shortest
import ConstraintHierarchy.Diagnostic.Basic
import ConstraintHierarchy.Diagnostic.Report
import ConstraintHierarchy.Main
import ConstraintHierarchy.Network.Basic
import ConstraintHierarchy.Network.Incremental
import ConstraintHierarchy.Network.Method
import ConstraintHierarchy.Network.Plan
import ConstraintHierarchy.Network.Propagation
import ConstraintHierarchy.Scenario
import ConstraintHierarchy.Script.Diagnostics
import ConstraintHierarchy.Script.Parsing
import ConstraintHierarchy.Script.Piece
import ConstraintHierarchy.Script.Session
import ConstraintHierarchy.Script.Similar
import ConstraintHierarchy.Script.Statement
import ConstraintHierarchy.Script.Token
import ConstraintHierarchy.Settings.Basic
import ConstraintHierarchy.Settings.Decode
import ConstraintHierarchy.Settings.Document
import ConstraintHierarchy.Strength
import ConstraintHierarchy.Text.Display
import ConstraintHierarchy.Text.Place
import ConstraintHierarchy.Text.Scan
import ConstraintHierarchy.Toml.Document
import ConstraintHierarchy.Toml.Scalar
import ConstraintHierarchy.Toml.Value
import ConstraintHierarchy.Variable
import ConstraintHierarchy.Proofs.Method
import ConstraintHierarchy.Proofs.Coherence
import ConstraintHierarchy.Proofs.Propagation
import ConstraintHierarchy.Proofs.Cascade
import ConstraintHierarchy.Proofs.Exactness
import ConstraintHierarchy.Proofs.Quiet
import ConstraintHierarchy.Proofs.Runs
import ConstraintHierarchy.Proofs.Annotations
import ConstraintHierarchy.Proofs.Forest
import ConstraintHierarchy.Proofs.Offers
import ConstraintHierarchy.Proofs.Rising
import ConstraintHierarchy.Proofs.Overriding
import ConstraintHierarchy.Proofs.Unblocked
import ConstraintHierarchy.Proofs.Optimality
import ConstraintHierarchy.Proofs.PathStrength
import ConstraintHierarchy.Proofs.Nesting
import ConstraintHierarchy.Proofs.Structure
import ConstraintHierarchy.Proofs.Dataflow
import ConstraintHierarchy.Proofs.Termination
import ConstraintHierarchy.Proofs.Restoration
import ConstraintHierarchy.Proofs.Rollback
import ConstraintHierarchy.Proofs.Promises
import ConstraintHierarchy.Proofs.Required
import ConstraintHierarchy.Proofs.Extraction
import ConstraintHierarchy.Proofs.Agreement
import ConstraintHierarchy.Proofs.Division
import ConstraintHierarchy.Proofs.Execution
import ConstraintHierarchy.Proofs.Editing
import ConstraintHierarchy.Proofs.Indifference
import ConstraintHierarchy.Proofs.Parallel
import ConstraintHierarchy.Proofs.Changes
import ConstraintHierarchy.Proofs.Locality
import ConstraintHierarchy.Proofs.Refusals
import ConstraintHierarchy.Proofs.Persistence
import ConstraintHierarchy.Proofs.Scenarios
import ConstraintHierarchy.Proofs.Chain
import ConstraintHierarchy.Proofs.Temporary
import ConstraintHierarchy.Proofs.Rows
import ConstraintHierarchy.Proofs.Numbers
import ConstraintHierarchy.Proofs.Projection
import ConstraintHierarchy.Proofs.Grammar
import ConstraintHierarchy.Proofs.Pieces
import ConstraintHierarchy.Proofs.Tiling
import ConstraintHierarchy.Proofs.Places
import ConstraintHierarchy.Proofs.Layout
import ConstraintHierarchy.Proofs.Misfits
import ConstraintHierarchy.Proofs.Faults
import ConstraintHierarchy.Proofs.Sessions
import ConstraintHierarchy.Proofs.Effects
import ConstraintHierarchy.Proofs.Suggestions
import ConstraintHierarchy.Proofs.EditDistance
import ConstraintHierarchy.Proofs.Reports
import ConstraintHierarchy.Proofs.Exchange
import ConstraintHierarchy.Proofs.Replacement
import ConstraintHierarchy.Proofs.Holding
import ConstraintHierarchy.Proofs.Detection
import ConstraintHierarchy.Proofs.Calls
import ConstraintHierarchy.Proofs.Keys
import ConstraintHierarchy.Proofs.Fields
import ConstraintHierarchy.Proofs.Decoding
