import Offload.Fault
import Offload.Program
import Offload.Schedule

/-! The arguments of a kernel. One list of arguments gives the parameters of the
kernel definition, the bindings at the launch, and the call that is reported. -/

namespace Offload

inductive ArgumentKind where
  | buffer | readOnlyScalar | parameter | iterator
  deriving DecidableEq, Repr, Inhabited

structure Argument where
  kind : ArgumentKind
  name : String
  type : Code.Ty
  deriving DecidableEq, Repr, Inhabited

namespace Argument

open Code

def ofArray (array : ArrayDecl) : Argument where
  kind := if array.readOnlyScalar then .readOnlyScalar else .buffer
  name := array.name
  type := .elem array.elem

/-- The parameter that receives the argument; buffers arrive as global pointers. -/
def param (arg : Argument) : Param :=
  match arg.kind with
  | .buffer => ⟨.pointer arg.type .global, arg.name⟩
  | _ => ⟨arg.type, arg.name⟩

/-- The name of the argument in the host code. -/
def hostName (arg : Argument) : String :=
  match arg.kind with
  | .buffer => "dev_" ++ arg.name
  | _ => arg.name

/-- Binds the argument to its position in a kernel object. -/
def bind (kernel : String) (arg : Argument) (position : Nat) : Stmt :=
  let address := Term.addressOf (.var arg.hostName)
  let (size, pointer) :=
    match arg.kind with
    | .buffer => (Ty.clMem, Term.voidPointer address)
    | _ => (arg.type, address)
  .checkCall "clSetKernelArg" [.var kernel, .int position, .sizeOf size, pointer]

/-- Binds all arguments in order. -/
def bindAll (kernel : String) (args : List Argument) : List Stmt :=
  args.zipIdx.map fun (arg, position) => arg.bind kernel position

end Argument

namespace Kernel

/-- The first region of the footprint that no array of the catalogue can hold. -/
def strayRegion? (program : Program) (kernel : Kernel) : Option Region :=
  kernel.footprint.regions.find? fun region => (program.arrayIn? region.space).isNone

/-- The arguments of a kernel: the arrays it touches in catalogue order, then the
parameters of its footprint, then the host iterators. -/
def arguments (job : Job) (kernel : Kernel) : Except Fault (List Argument) :=
  match kernel.strayRegion? job.program with
  | some region => .error (.unknownSpace kernel.id region.space)
  | none =>
    .ok ((job.program.arrays.filter (job.touches kernel.footprint)).map .ofArray ++
      kernel.footprint.params.map (⟨.parameter, ·, .int⟩) ++
      kernel.space.dims.map (⟨.iterator, ·, job.iteratorType⟩))

end Kernel

end Offload
