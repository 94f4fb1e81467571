import SignalTopology.Compose
import SignalTopology.Guard.Eval
import SignalTopology.Engine.Occurrences
import SignalTopology.Engine.Frame
import SignalTopology.Engine.Validation
import SignalTopology.Engine.History
import SignalTopology.Engine.Persist
import SignalTopology.Engine.StateSpace
import SignalTopology.Engine.Reached
import SignalTopology.Engine.Depth
import SignalTopology.Engine.Compensation
import SignalTopology.Engine.Invocations
import SignalTopology.Engine.Registration
import SignalTopology.Engine.Brackets
import SignalTopology.Ddl.Lexer
import SignalTopology.Ddl.Parser
import SignalTopology.Ddl.Codegen
import SignalTopology.Serde
import SignalTopology.Stc
import SignalTopology.Ddl.Lexing
import SignalTopology.Ddl.GuardText
import SignalTopology.Ddl.Grammar
import SignalTopology.Ddl.Capture
import SignalTopology.Ddl.Clauses
import SignalTopology.Ddl.Blocks
import SignalTopology.Ddl.Swallow
import SignalTopology.Engine.Influence
import SignalTopology.Engine.Snapshots
import SignalTopology.Engine.Lowering
import SignalTopology.Compose.Instances
import SignalTopology.Ddl.Declared
import SignalTopology.Compose.Includes
import SignalTopology.Compose.Union
import SignalTopology.Compose.Templates
import SignalTopology.Ddl.Blanks
import SignalTopology.Ddl.Verbatim
import SignalTopology.Ddl.Documents
import SignalTopology.Ddl.Entries
import SignalTopology.Ddl.Components
import SignalTopology.Ddl.RoundTrip
import SignalTopology.Guard.Missing
import SignalTopology.Guard.Arithmetic
import SignalTopology.Library.TwoRuns
import SignalTopology.Engine.Independence
import SignalTopology.Engine.Skipped
import SignalTopology.Engine.References
import SignalTopology.Engine.Payloads
import SignalTopology.Library.Fuel
import SignalTopology.Guard.Derivation
import SignalTopology.Compose.Placeholders
import SignalTopology.Compose.Revisits
import SignalTopology.Engine.Serial
import SignalTopology.Sts
import SignalTopology.Watch
import SignalTopology.Engine.Success
import SignalTopology.Export.Dot
import SignalTopology.Export.Snapshot
import SignalTopology.Ddl.SideBySide
import SignalTopology.Ddl.Sweep
import SignalTopology.Ddl.Names
import SignalTopology.Check
import SignalTopology.Check.Unreachable
import SignalTopology.Ddl.Surgery
import SignalTopology.Ddl.Edits
import SignalTopology.Ddl.Braces
import SignalTopology.Ddl.Resolving
import SignalTopology.Check.Unused
import SignalTopology.Ddl.Positions
import SignalTopology.Bindings
import SignalTopology.Library.Totality
import SignalTopology.Ddl.Totality
import SignalTopology.Compose.Slices
import SignalTopology.Ddl.GuardTemplates
import SignalTopology.Ddl.Expansion
import SignalTopology.Compact
import SignalTopology.Ddl.PayloadText
import SignalTopology.Ddl.PayloadPlaces
import SignalTopology.Ddl.PayloadValues
import SignalTopology.Compose.Payloads
import SignalTopology.Engine.Mirror
import SignalTopology.Library.Sessions
import SignalTopology.Engine.Equivalent
import SignalTopology.Engine.Parallel
import SignalTopology.Engine.Acyclic
import SignalTopology.Engine.Stepwise
import SignalTopology.Runner
import SignalTopology.Shell
import SignalTopology.Stp
import SignalTopology.Engine.Growth
import SignalTopology.Replay
import SignalTopology.Guard.Reads
import SignalTopology.Engine.Footprint
import SignalTopology.Hosts
import SignalTopology.Export.Legible
