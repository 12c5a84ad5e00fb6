import Relocation.Main
import Relocation.Proofs.Path.Cleaning
import Relocation.Proofs.Table
import Relocation.Proofs.Disk.Lookup
import Relocation.Proofs.Disk.Operations
import Relocation.Proofs.Disk.Directories
import Relocation.Proofs.Plan
import Relocation.Proofs.Disk.Calls
import Relocation.Proofs.Snapshot.Invariant
import Relocation.Proofs.Snapshot.Restoration
import Relocation.Proofs.Snapshot.Capture
import Relocation.Proofs.Text.Utf8
import Relocation.Proofs.Migration.Progress
import Relocation.Proofs.Migration.Prepared
import Relocation.Proofs.Migration.Atomicity
import Relocation.Proofs.Specifier.Style
import Relocation.Proofs.Graph.Probing
import Relocation.Proofs.Graph.Building
import Relocation.Proofs.Rules.Derivation
import Relocation.Proofs.Rules.Meaning
import Relocation.Proofs.Migration.Driving
import Relocation.Proofs.Migration.Crash
import Relocation.Proofs.Migration.Rollback
import Relocation.Proofs.Extraction.Arrangement
import Relocation.Proofs.Graph.Reverse
import Relocation.Proofs.Snapshot.Clean
import Relocation.Proofs.Extraction.Program
import Relocation.Proofs.Extraction.Scanning
import Relocation.Proofs.Extraction.Patterns
import Relocation.Proofs.Extraction.Reading
import Relocation.Proofs.Rules.Rewriting
import Relocation.Proofs.Extraction.Lexemes
import Relocation.Proofs.Extraction.Parsing
import Relocation.Proofs.Extraction.Agreement
import Relocation.Proofs.Plan.Exactness
import Relocation.Proofs.Rules.Chaining
import Relocation.Proofs.Rules.Frame
import Relocation.Proofs.Rules.Affected
import Relocation.Proofs.Migration.Counting
import Relocation.Proofs.Specifier.Relative
import Relocation.Proofs.Specifier.Aliased
import Relocation.Proofs.Graph.Precedence
import Relocation.Proofs.Rules.Shadowing
import Relocation.Proofs.Extraction.Lines
import Relocation.Proofs.Extraction.Spans
import Relocation.Proofs.Rules.Splicing
import Relocation.Proofs.Specifier.Detection
import Relocation.Proofs.Text.Quoting
import Relocation.Proofs.Extraction.Exports.Lines
import Relocation.Proofs.Extraction.Exports.Patterns
import Relocation.Proofs.Extraction.Exports.Reading
import Relocation.Proofs.Snapshot.Idempotence
import Relocation.Proofs.Timestamp
import Relocation.Proofs.Snapshot.Encoding
import Relocation.Proofs.Usage
import Relocation.Proofs.Graph.Permuted
import Relocation.Proofs.Graph.Confinement
import Relocation.Proofs.Graph.Naming
import Relocation.Proofs.Rules.Consistency
import Relocation.Proofs.Glob.Componentwise
import Relocation.Proofs.Rules.Overlapping
import Relocation.Proofs.Rules.Size
import Relocation.Proofs.Disk.Traversal
import Relocation.Proofs.Snapshot.Directories
