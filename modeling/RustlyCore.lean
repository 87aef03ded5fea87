import RustlyCore.Schema.Ir
import RustlyCore.Lib.Report
import RustlyCore.Lib.Text
import RustlyCore.Schema.Compiler
import RustlyCore.Schema.Sharing
import RustlyCore.Json
import RustlyCore.Validation.Value
import RustlyCore.Validation.Check
import RustlyCore.Validation.Relation
import RustlyCore.Validation.Monotone
import RustlyCore.Validation.Canonical
import RustlyCore.Lib.Fallible
import RustlyCore.Ruby
import RustlyCore.Validation.Issues
import RustlyCore.Validation.Order
import RustlyCore.Schema.Parser
import RustlyCore.Schema.Compiled
import RustlyCore.Materialize
import RustlyCore.Validation.Input
import RustlyCore.Core
import RustlyCore.Build
import RustlyCore.Plan
import RustlyCore.Modes
import RustlyCore.Schema.Options
import RustlyCore.Schema.Reading
import RustlyCore.Schema.FieldOptions
import RustlyCore.Schema.Slots
import RustlyCore.Schema.Optionals
import RustlyCore.Schema.Notation
import RustlyCore.Schema.Names
import RustlyCore.Validation.Limits
import RustlyCore.Keys
import RustlyCore.Policy
import RustlyCore.Lib.Writes
import RustlyCore.Instance
import RustlyCore.Lib.Blocks
import RustlyCore.Validation.Paths
import RustlyCore.Validation.Formats
import RustlyCore.Panics
import RustlyCore.CallOptions
import RustlyCore.Validation.Bytes
import RustlyCore.Validation.PathStack
import RustlyCore.Validation.Offenders
import RustlyCore.Roundtrip
import RustlyCore.Lib.Memory
import RustlyCore.Lib.Simulation
import RustlyCore.Memory.Objects
import RustlyCore.Memory.Values
import RustlyCore.Memory.Freezing
import RustlyCore.Memory.Instance
import RustlyCore.Memory.Reachable
import RustlyCore.Lib.Bounded
import RustlyCore.Memory.Conversion
import RustlyCore.Lib.Regions
import RustlyCore.Memory.Separation
import RustlyCore.Memory.Calls
import RustlyCore.Memory.Mutation
import RustlyCore.Session
import RustlyCore.Schema.Rendering
import RustlyCore.Schema.Errors
import RustlyCore.Validation.Outputs
import RustlyCore.Validation.Strictness
import RustlyCore.Validation.Reports
import RustlyCore.Messages
import RustlyCore.Exceptions
import RustlyCore.Meaning
import RustlyCore.Rebuild
import RustlyCore.Progress
import RustlyCore.Wrapper
import RustlyCore.Documents
import RustlyCore.Reuse
