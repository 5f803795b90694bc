import Offload.Host.Program

namespace Offload

open Code

/-- The header: what the host program expects from the support library. -/
def headerFile : File :=
  let text := Ty.pointer (.named "const char") .host
  [.platformInclude "<OpenCL/opencl.h>" "<CL/opencl.h>",
    .blank,
    .declareFn .clDevice "opencl_create_device" [⟨.int, "use_gpu"⟩],
    .declareFn .clProgram "opencl_build_program" [
      ⟨.clContext, "ctx"⟩, ⟨.clDevice, "dev"⟩, ⟨text, "filename"⟩, ⟨text, "opencl_options"⟩],
    .declareFn text "opencl_error_string" [⟨.clInt, "error"⟩]]

/-- The three generated files. -/
structure Files where
  host : File
  kernel : File
  header : File
  deriving Inhabited

/-- Generates the three files. The whole tree is handled before the host program
is put together, so a contradiction in the model is found first. -/
def Job.generate (job : Job) (kernelPath headerName : String) (tree : Node) : Traced Files := do
  let code ← HostCode.ofNode job tree
  let allocations ← Buffer.allocateAll job
  return {
    host := HostProgram.file job headerName tree
      (HostProgram.body job kernelPath allocations code.stmts)
    kernel := KernelModule.file job.program code.kernels
    header := headerFile }

end Offload
