import Offload.Artifact.Publish
import Offload.FileTree
import Offload.Proofs.Reading.Grammar
import Offload.Proofs.Expr.Reading
import Offload.Proofs.Expr.Tokens
import Offload.Proofs.Expr.Unambiguous
import Offload.Proofs.Expr.Exact
import Offload.Proofs.Expr.Meaning
import Offload.Proofs.Generation
import Offload.Proofs.Marshaling
import Offload.Proofs.Code.Execution
import Offload.Proofs.Buffer.Lifecycle
import Offload.Proofs.Host.Execution
import Offload.Proofs.Region.Meaning
import Offload.Proofs.Consistency
import Offload.Proofs.Buffer.Guard
import Offload.Proofs.Buffer.Usage
import Offload.Proofs.Buffer.Size
import Offload.Proofs.Execution.Machine
import Offload.Proofs.Execution.Refinement
import Offload.Proofs.Code.Symbols
import Offload.Proofs.Expr.Calls
import Offload.Proofs.Host.Helpers
import Offload.Proofs.Kernel.Helpers
import Offload.Proofs.Helpers
import Offload.Proofs.Kernel.Copies
import Offload.Proofs.Artifact.Disk
import Offload.Proofs.Artifact.Publication
import Offload.Proofs.Host.Checking
import Offload.Proofs.Host.Synchrony
import Offload.Proofs.Expr.Constants
import Offload.Proofs.Expr.Words
import Offload.Proofs.Kernel.RowMajor
import Offload.Proofs.Launch.Coverage
import Offload.Proofs.Region.NormalForm
import Offload.Proofs.Selection
import Offload.Proofs.Blocks
import Offload.Proofs.Expr.Rounding
import Offload.Proofs.Path.Parts
import Offload.Proofs.Path.Stem
import Offload.Proofs.FileTree
import Offload.Proofs.Artifact.Naming
import Offload.Proofs.ElemType
import Offload.Proofs.Code.Indentation
import Offload.Proofs.Buffer.Statements
