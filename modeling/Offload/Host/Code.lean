import Offload.Buffer
import Offload.KernelModule
import Offload.Launch.Geometry

namespace Offload

open Code

/-- What a part of the tree contributes: statements of the host program, and the
kernels it launches, in order. -/
structure HostCode where
  stmts : List Stmt
  kernels : List KernelDef
  deriving Inhabited

namespace HostCode

/-- The statements of one launch, from the work sizes to the release of the
kernel object. -/
def launchBody (kernel : Kernel) (args : List Argument) (geometry : Geometry) : List Stmt :=
  [.defineArray .sizeT "global_work_size" geometry.workDim geometry.global,
    .defineArray .sizeT "block_size" geometry.workDim (geometry.group.map .int),
    .define .clKernel [(kernel.name,
      .call "clCreateKernel" [.var "program", .str kernel.name, .errAddress])],
    .checkErr] ++
  Argument.bindAll kernel.name args ++
  [.checkCall "clEnqueueNDRangeKernel" [
      .var "queue", .var kernel.name, .int geometry.workDim, .var "NULL",
      .var "global_work_size", .var "block_size", .int 0, .var "NULL", .var "NULL"],
    .checkCall "clFinish" [.var "queue"],
    .checkCall "clReleaseKernel" [.var kernel.name]]

/-- One launch: the kernel is defined once its arguments are known. -/
def ofLaunch (job : Job) (kernel : Kernel) (body : Node) : Traced HostCode := do
  let args ← .ofExcept (kernel.arguments job)
  let geometry := Geometry.ofSizes kernel.gridSize kernel.blockSize
  .report (.launching kernel.name (", ".intercalate (args.map Argument.hostName)) geometry.workDim)
  let definition ← .ofExcept (kernel.define job args body)
  .report (.defined kernel.name)
  return ⟨[.scope (launchBody kernel args geometry)], [definition]⟩

mutual

def ofNode (job : Job) : Node → Traced HostCode
  | .loop iter init cond inc body => do
    let inner ← ofNodes job body
    return ⟨[.loop job.iteratorType iter init cond inc inner.stmts], inner.kernels⟩
  | .branch cond thn els => do
    let first ← ofNodes job thn
    let second ← ofNodes job els
    return ⟨[.branch cond first.stmts second.stmts], first.kernels ++ second.kernels⟩
  | .block body => ofNodes job body
  | .statement _ text => return ⟨[.verbatim text], []⟩
  | .copy copy => .fail (.copyOutsideKernel copy.var)
  | .sync => .fail .barrierOutsideKernel
  | .launch kernel body => ofLaunch job kernel body

def ofNodes (job : Job) : List Node → Traced HostCode
  | [] => return ⟨[], []⟩
  | node :: rest => do
    let first ← ofNode job node
    let others ← ofNodes job rest
    return ⟨first.stmts ++ others.stmts, first.kernels ++ others.kernels⟩

end

end HostCode

end Offload
