import SimAnnotate.CommandLine
import SimAnnotate.Main
import SimAnnotate.Proofs.Document.Outline
import SimAnnotate.Proofs.Catalog.Numbering
import SimAnnotate.Proofs.Catalog.Listing
import SimAnnotate.Proofs.Catalog.Refinement
import SimAnnotate.Proofs.Catalog.History
import SimAnnotate.Proofs.Document.Record
import SimAnnotate.Proofs.Document.Sound
import SimAnnotate.Proofs.Document.RoundTrip
import SimAnnotate.Proofs.Document.Text
import SimAnnotate.Proofs.Path
import SimAnnotate.Proofs.FileTree.Locate
import SimAnnotate.Proofs.FileTree.Change
import SimAnnotate.Proofs.FileTree.WellFormed
import SimAnnotate.Proofs.Catalog.Saving
import SimAnnotate.Proofs.OffsetTable
import SimAnnotate.Proofs.References
import SimAnnotate.Proofs.Catalog.Evolution
import SimAnnotate.Proofs.Run.Groups
import SimAnnotate.Proofs.Run.Course
import SimAnnotate.Proofs.Run.IndexFile
import SimAnnotate.Proofs.Run.Scan
import SimAnnotate.Proofs.Run.Documents
import SimAnnotate.Proofs.Run.Rescan
import SimAnnotate.Proofs.Run.Index
import SimAnnotate.Proofs.Run.Again
import SimAnnotate.Proofs.OffsetTable.History
import SimAnnotate.Proofs.OffsetTable.Layout
import SimAnnotate.Proofs.OffsetTable.Growth
import SimAnnotate.Proofs.Run.Counting
import SimAnnotate.Proofs.Run.Failing
import SimAnnotate.Proofs.Run.Atomic
import SimAnnotate.Proofs.Run.Frame
import SimAnnotate.Proofs.Catalog.Reload
import SimAnnotate.Proofs.Document.Normal
import SimAnnotate.Proofs.Wiring.FirstMatch
import SimAnnotate.Proofs.Wiring.Fallback
import SimAnnotate.Proofs.Run.InPlace
import SimAnnotate.Proofs.Run.AllOrNothing
import SimAnnotate.Proofs.Patch
import SimAnnotate.Proofs.Catalog.SaveOutcome
import SimAnnotate.Proofs.OffsetTable.Compile
import SimAnnotate.Proofs.Yaml.Surroundings
import SimAnnotate.Proofs.Yaml.Scalar
import SimAnnotate.Proofs.Yaml.Tag
import SimAnnotate.Proofs.Yaml.Lexer
import SimAnnotate.Proofs.Yaml.FlowDepth
import SimAnnotate.Proofs.Yaml.Scan
import SimAnnotate.Proofs.Yaml.Node
import SimAnnotate.Proofs.Yaml.Stream
import SimAnnotate.Proofs.Document.Sections
import SimAnnotate.Proofs.OffsetTable.Emit
import SimAnnotate.Proofs.Wiring.Monotone
import SimAnnotate.Proofs.Rules
import SimAnnotate.Proofs.Run.Order
import SimAnnotate.Proofs.Run.StackFiles
import SimAnnotate.Proofs.OffsetTable.Independence
import SimAnnotate.Proofs.FileTree.WalkPaths
import SimAnnotate.Proofs.FileTree.DepthFirst
import SimAnnotate.Proofs.Catalog.Scanning
import SimAnnotate.Proofs.Run.PatchFile
import SimAnnotate.Proofs.Run.WellFormed
import SimAnnotate.Proofs.Patch.Renaming
