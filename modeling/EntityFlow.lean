import EntityFlow.Boundary
import EntityFlow.Capability
import EntityFlow.Check
import EntityFlow.Check.Aspect
import EntityFlow.Check.Entity
import EntityFlow.Check.Query
import EntityFlow.Closure
import EntityFlow.Code.Expr
import EntityFlow.Code.Form
import EntityFlow.Code.Stmt
import EntityFlow.Codec.Basic
import EntityFlow.Codec.Diagnostic
import EntityFlow.Codec.Graph
import EntityFlow.Codec.Node
import EntityFlow.Codec.Options
import EntityFlow.CommandLine
import EntityFlow.Compile
import EntityFlow.Compile.Describe
import EntityFlow.Compile.Draft
import EntityFlow.Compile.Error
import EntityFlow.Compile.Flow
import EntityFlow.Compile.Naming
import EntityFlow.Compile.Plan
import EntityFlow.Compile.Site
import EntityFlow.Compile.Unit
import EntityFlow.Compile.Value
import EntityFlow.Container
import EntityFlow.Decimal.Binary64
import EntityFlow.Decimal.Layout
import EntityFlow.Decimal.Shortest
import EntityFlow.Declaration
import EntityFlow.Diagnostic
import EntityFlow.Directory
import EntityFlow.Fingerprint
import EntityFlow.Graph.Basic
import EntityFlow.Graph.Build
import EntityFlow.Graph.Error
import EntityFlow.Graph.Threads
import EntityFlow.Id
import EntityFlow.Job
import EntityFlow.Json.Basic
import EntityFlow.Json.Decode
import EntityFlow.Json.Printer
import EntityFlow.Json.Reader
import EntityFlow.Main
import EntityFlow.Member
import EntityFlow.Node.Basic
import EntityFlow.Node.Kind
import EntityFlow.Node.Layout
import EntityFlow.Port
import EntityFlow.Publish
import EntityFlow.Query
import EntityFlow.Settings
import EntityFlow.Slots
import EntityFlow.Symbol
import EntityFlow.Text.Identifier
import EntityFlow.Text.Lines
import EntityFlow.Text.Quoted
import EntityFlow.TypeRef
import EntityFlow.Proofs.Graph.Reachable
import EntityFlow.Proofs.Graph.Connections
import EntityFlow.Proofs.Graph.Invariant
import EntityFlow.Proofs.Boundary.Split
import EntityFlow.Proofs.Boundary.Captures
import EntityFlow.Proofs.Planning.Jobs
import EntityFlow.Proofs.Planning.Redirects
import EntityFlow.Proofs.Text.Identifier
import EntityFlow.Proofs.Symbols
import EntityFlow.Proofs.Codec.Values
import EntityFlow.Proofs.Codec.Graph
import EntityFlow.Proofs.Graph.Layouts
import EntityFlow.Proofs.Generation.Runs
import EntityFlow.Proofs.Generation.Walk
import EntityFlow.Proofs.Planning.Provenance
import EntityFlow.Proofs.Generation.Reached
import EntityFlow.Proofs.Planning.Names
import EntityFlow.Proofs.Generation.Values
import EntityFlow.Proofs.Generation.Failures
import EntityFlow.Proofs.Planning.Invariants
import EntityFlow.Proofs.Generation.Entities
import EntityFlow.Proofs.Planning.Holdings
import EntityFlow.Proofs.Generation.Grammar
import EntityFlow.Proofs.Generation.Leaves
import EntityFlow.Proofs.Generation.Drafts
import EntityFlow.Proofs.Generation.Placeholders
import EntityFlow.Proofs.Methods
import EntityFlow.Proofs.Generation.Handles
import EntityFlow.Proofs.Graph.Reorder
import EntityFlow.Proofs.Generation.Reorder
import EntityFlow.Proofs.Jobs.ReadOnly
import EntityFlow.Proofs.Boundary.Members
import EntityFlow.Proofs.Jobs.Names
import EntityFlow.Proofs.Generation.Parts
import EntityFlow.Proofs.Jobs.Calls
import EntityFlow.Proofs.Jobs.Construction
import EntityFlow.Proofs.Text.Lines
import EntityFlow.Proofs.Planning.Boundaries
import EntityFlow.Proofs.Unit.Tracing
import EntityFlow.Proofs.Jobs.Types
import EntityFlow.Proofs.Generation.Successors
import EntityFlow.Proofs.Generation.Cuts
import EntityFlow.Proofs.Generation.Cycles
import EntityFlow.Proofs.Unit.Members
import EntityFlow.Proofs.Graph.Capabilities
import EntityFlow.Proofs.Boundary.References
import EntityFlow.Proofs.Planning.Collector
import EntityFlow.Proofs.Jobs.Writes
import EntityFlow.Proofs.Unit.Reports
import EntityFlow.Proofs.Graph.Views
import EntityFlow.Proofs.Graph.Identities
import EntityFlow.Proofs.Planning.Bindings
import EntityFlow.Proofs.Generation.Fuel
import EntityFlow.Proofs.Generation.Chains
import EntityFlow.Proofs.Generation.Arguments
import EntityFlow.Proofs.Graph.Lookup
import EntityFlow.Proofs.Graph.Containers
import EntityFlow.Proofs.Check.Rules
import EntityFlow.Proofs.Unit.Lifecycle
import EntityFlow.Proofs.Planning.Requests
import EntityFlow.Proofs.Unit.Handles
import EntityFlow.Proofs.Text.Quoted
import EntityFlow.Proofs.Symbols.Suffixes
import EntityFlow.Proofs.Text.Shaping
import EntityFlow.Proofs.Graph.Nesting
