import Distill.Artifact.Value
import Distill.Cache.ArtifactFile
import Distill.Cache.Basic
import Distill.Cache.Name
import Distill.Conclusion
import Distill.Definition.Error
import Distill.Definition.Excerpt
import Distill.Definition.Loading
import Distill.Definition.NodeSet
import Distill.Definition.Record
import Distill.Definition.Validation
import Distill.Execution.Environment
import Distill.Execution.Host
import Distill.Execution.Machine
import Distill.Execution.Report
import Distill.Execution.Script
import Distill.Failure
import Distill.Files.Tree
import Distill.Files.Writing
import Distill.Filter.Eval
import Distill.Filter.Expr
import Distill.Filter.Order
import Distill.Filter.Parser
import Distill.Filter.Token
import Distill.Graph.Basic
import Distill.Json.Decode
import Distill.Json.Printer
import Distill.Json.Reader
import Distill.Json.Value
import Distill.Keyed
import Distill.Level
import Distill.Number.Decimal
import Distill.Number.Double
import Distill.Pattern.Basic
import Distill.Pattern.CharSet
import Distill.Pattern.Reader
import Distill.Proofs.Artifact.Conclusions
import Distill.Proofs.Artifact.RoundTrip
import Distill.Proofs.Cache.ArtifactFile
import Distill.Proofs.Cache.Directory
import Distill.Proofs.Cache.Entries
import Distill.Proofs.Cache.Interrupted
import Distill.Proofs.Cache.Layout
import Distill.Proofs.Cache.Listing
import Distill.Proofs.Cache.Map
import Distill.Proofs.Cache.Name
import Distill.Proofs.Cache.Parts
import Distill.Proofs.Cache.Paths
import Distill.Proofs.Definition.Checked
import Distill.Proofs.Definition.Declared
import Distill.Proofs.Definition.Excerpts
import Distill.Proofs.Definition.Nesting
import Distill.Proofs.Definition.Origins
import Distill.Proofs.Definition.Places
import Distill.Proofs.Definition.References
import Distill.Proofs.Execution.Aborted
import Distill.Proofs.Execution.Apart
import Distill.Proofs.Execution.Cancelled
import Distill.Proofs.Execution.Completeness
import Distill.Proofs.Execution.Effects
import Distill.Proofs.Execution.Ended
import Distill.Proofs.Execution.Explained
import Distill.Proofs.Execution.Fate
import Distill.Proofs.Execution.Faultless
import Distill.Proofs.Execution.Moves
import Distill.Proofs.Execution.Orderly
import Distill.Proofs.Execution.Propagation
import Distill.Proofs.Execution.Reruns
import Distill.Proofs.Execution.Serial
import Distill.Proofs.Execution.Termination
import Distill.Proofs.Execution.Turns
import Distill.Proofs.Execution.Values
import Distill.Proofs.Files.Atomic
import Distill.Proofs.Files.Look
import Distill.Proofs.Files.Ordered
import Distill.Proofs.Files.Parts
import Distill.Proofs.Files.Reading
import Distill.Proofs.Files.Stopped
import Distill.Proofs.Files.Success
import Distill.Proofs.Files.Ways
import Distill.Proofs.Filter.Comparison
import Distill.Proofs.Filter.Composition
import Distill.Proofs.Filter.Containment
import Distill.Proofs.Filter.Equivalence
import Distill.Proofs.Filter.Flattening
import Distill.Proofs.Filter.Grammar
import Distill.Proofs.Filter.Grouping
import Distill.Proofs.Filter.Lexing
import Distill.Proofs.Filter.Mapping
import Distill.Proofs.Filter.Outputs
import Distill.Proofs.Filter.Parentheses
import Distill.Proofs.Filter.Places
import Distill.Proofs.Filter.Precedence
import Distill.Proofs.Filter.Printing
import Distill.Proofs.Filter.Reading
import Distill.Proofs.Filter.Respelling
import Distill.Proofs.Filter.RoundTrip
import Distill.Proofs.Filter.Spacing
import Distill.Proofs.Filter.Spelling
import Distill.Proofs.Filter.Splitting
import Distill.Proofs.Graph.LeastOrder
import Distill.Proofs.Graph.Order
import Distill.Proofs.Graph.Search
import Distill.Proofs.Graph.Selection
import Distill.Proofs.Graph.Soundness
import Distill.Proofs.Graph.Validation
import Distill.Proofs.Json.Locality
import Distill.Proofs.Json.Numbers
import Distill.Proofs.Json.Ordered
import Distill.Proofs.Json.Pretty
import Distill.Proofs.Json.RoundTrip
import Distill.Proofs.Json.Stream
import Distill.Proofs.Number.Integral
import Distill.Proofs.Number.Rounding
import Distill.Proofs.Number.Shortest
import Distill.Proofs.Results
import Distill.Proofs.Service.Analyses
import Distill.Proofs.Service.BatchEnd
import Distill.Proofs.Service.Batches
import Distill.Proofs.Service.Conclusions
import Distill.Proofs.Service.Effects
import Distill.Proofs.Service.Failures
import Distill.Proofs.Service.Histories
import Distill.Proofs.Service.Isolation
import Distill.Proofs.Service.Sessions
import Distill.Proofs.Service.Unreadable
import Distill.Proofs.Step.Chains
import Distill.Proofs.Step.Checked
import Distill.Proofs.Step.Comments
import Distill.Proofs.Step.Concluding
import Distill.Proofs.Step.Entries
import Distill.Proofs.Step.Faults
import Distill.Proofs.Step.Lines
import Distill.Proofs.Step.Parameters
import Distill.Proofs.Step.Quoting
import Distill.Proofs.Step.Running
import Distill.Proofs.Step.Storable
import Distill.Proofs.Step.Verdicts
import Distill.Proofs.Template.RoundTrip
import Distill.Proofs.Text.Utf8
import Distill.Proofs.Yaml.Ordered
import Distill.Service.Basic
import Distill.Service.Batch
import Distill.Shell.Arithmetic
import Distill.Shell.Escape
import Distill.Shell.Expansion
import Distill.Shell.Glob
import Distill.Shell.Matching
import Distill.Shell.Printf
import Distill.Shell.Reader
import Distill.Shell.Run
import Distill.Shell.Script
import Distill.Shell.Sed
import Distill.Shell.State
import Distill.Shell.Test
import Distill.Shell.Utility
import Distill.Step.Analysis
import Distill.Step.Basic
import Distill.Step.Command
import Distill.Step.Invocation
import Distill.Step.Run
import Distill.Template
import Distill.Text.Basic
import Distill.Text.Bytes
import Distill.Text.Case
import Distill.Text.Category
import Distill.Yaml.Atom
import Distill.Yaml.Cursor
import Distill.Yaml.Decode
import Distill.Yaml.Fault
import Distill.Yaml.Node
import Distill.Yaml.ScalarText
import Distill.Yaml.TokenStream
import Distill.Yaml.Value
