import Offload.Artifact.Names
import Offload.Code.Printer
import Offload.Files

namespace Offload

structure Rendered where
  host : String
  kernel : String
  header : String
  deriving DecidableEq, Repr, Inhabited

def Rendered.texts (rendered : Rendered) : List String :=
  [rendered.host, rendered.kernel, rendered.header]

namespace Artifact

/-- The indentation of a file; kernels are indented twice as far as host code. -/
def step : Artifact → Nat
  | kernel => 4
  | host | header => 2

def title : Artifact → String
  | host => "OpenCL host code"
  | kernel => "OpenCL kernel module"
  | header => "OpenCL kernel header"

/-- Prints one file and reports it, with a listing if the options ask for one. -/
def render (artifact : Artifact) (options : Options) (file : Code.File) : Traced String := do
  let text := Code.File.render file artifact.step
  .report (.rendered artifact text.utf8ByteSize)
  if options.debugPrint then
    .report (.listing artifact.title text)
  return text

end Artifact

/-- Generates and prints the three files. All of them are generated before the
first is printed. -/
def Job.render (job : Job) (names : OutputNames) (tree : Node) : Traced Rendered := do
  let files ← job.generate names.kernel names.headerName tree
  let host ← Artifact.host.render job.options files.host
  let kernel ← Artifact.kernel.render job.options files.kernel
  let header ← Artifact.header.render job.options files.header
  return { host, kernel, header }

end Offload
