import Offload.Host.Code

namespace Offload

open Code

namespace HostProgram

/-- Declares and creates the device, the context, the queue and the program. -/
def setUp (options : Options) (kernelPath : String) : List Stmt :=
  [.declare .clDevice "device",
    .declare .clContext "context",
    .declare .clProgram "program",
    .declare .clQueue "queue",
    .declare .clInt "err",
    .assign (.var "device")
      (.call "opencl_create_device" [.int (if options.useGpu then 1 else 0)]),
    .assign (.var "context") (.call "clCreateContext" [
      .var "NULL", .int 1, .addressOf (.var "device"), .var "NULL", .var "NULL", .errAddress]),
    .checkErr,
    .assign (.var "queue") (.call "clCreateCommandQueue" [
      .var "context", .var "device", .int 0, .errAddress]),
    .checkErr,
    .assign (.var "program") (.call "opencl_build_program" [
      .var "context", .var "device", .str kernelPath, .str (options.compilerOptions.getD "")])]

def release : List Stmt :=
  [.checkCall "clReleaseCommandQueue" [.var "queue"],
    .checkCall "clReleaseProgram" [.var "program"],
    .checkCall "clReleaseContext" [.var "context"]]

/-- The helper that stops the program when a call reports an error. -/
def checkDefinition : String :=
  "#define openclCheckReturn(ret) \\\n" ++
  "  if (ret != CL_SUCCESS) \x7b\\\n" ++
  "    fprintf(stderr, \"OpenCL error: %s\\n\", opencl_error_string(ret)); \\\n" ++
  "    fflush(stderr); \\\n" ++
  "    assert(ret == CL_SUCCESS);\\\n" ++
  "  \x7d"

/-- The helpers of the host program. The maximum is always there, as it bounds
the sizes of buffers; the others are there if an expression of the tree or an
extent calls them. -/
def helpers (program : Program) (tree : Node) : List Item :=
  let needed := tree.builtins (Expr.builtins (program.arrays.flatMap (·.extents)))
  [.define checkDefinition, .blank, .define Builtin.max.definition] ++
    (needed.filter (· != .max)).map (.define ·.definition)

/-- The parameters of the host function: the parameters of the program, then its
arrays, by value if they are read-only scalars. -/
def params (program : Program) : List Param :=
  program.params.map (⟨.int, ·⟩) ++ program.arrays.map fun array =>
    ⟨if array.readOnlyScalar then .elem array.elem else .pointer (.elem array.elem) .host,
      array.name⟩

def body (job : Job) (kernelPath : String) (allocations launches : List Stmt) : List Stmt :=
  Buffer.declareAll job ++ setUp job.options kernelPath ++ [.blank] ++
    allocations ++ [.blank] ++
    launches ++ [.blank] ++
    Buffer.copyBackAll job ++ [.blank] ++
    Buffer.releaseAll job ++ release

/-- The host file around its body: includes, helpers, and the body as a function
or as a bare scope. -/
def file (job : Job) (headerName : String) (tree : Node) (body : List Stmt) : File :=
  [.includeFile "<assert.h>", .includeFile "<stdio.h>",
    .includeFile ("\"" ++ headerName ++ "\""), .blank] ++
  helpers job.program tree ++
  [match job.options.hostFunction with
    | some name => .defineFn false .void name (params job.program) body
    | none => .scope body]

end HostProgram

end Offload
