import Offload.Launch.Argument

namespace Offload

open Code

/-- A kernel as it stands in the kernel module. -/
structure KernelDef where
  name : String
  params : List Param
  body : List Stmt
  /-- Whether an expression of the definition divides with rounding down. -/
  needsFloorDiv : Bool
  deriving Inhabited

def KernelDef.item (kernel : KernelDef) : Item :=
  .defineFn true .void kernel.name kernel.params kernel.body

/-- The position of an element in the row-major order of its array. -/
def ArrayDecl.linearIndex (array : ArrayDecl) (indices : List Expr) : Expr :=
  match indices.zip array.extents with
  | [] => .lit 0
  | (first, _) :: rest =>
    rest.foldl (fun outer (index, extent) => .bin .add (.bin .mul outer extent) index) first

/-- An element of an array inside a kernel; read-only scalars are plain variables. -/
def ArrayDecl.element (array : ArrayDecl) (indices : List Expr) : Term :=
  if array.readOnlyScalar then .var array.name
  else .access array.name [array.linearIndex indices]

namespace Kernel

/-- Definitions that read an index of the launch, one per dimension. -/
def indexDefs (letter fn : String) (count : Nat) : List (String × Term) :=
  (List.range count).map fun (i : Nat) => (letter ++ toString i, .call fn [.int i])

/-- Names the indices of the work-group and of the work-item; an index without
dimensions is left out. -/
def prologue (job : Job) (kernel : Kernel) : List Stmt :=
  let define (letter fn : String) (count : Nat) : List Stmt :=
    if count = 0 then [] else [.define job.iteratorType (indexDefs letter fn count)]
  define "b" "get_group_id" kernel.gridSize.length ++
    define "t" "get_local_id" kernel.blockSize.length

/-- The folded sizes of a staging variable. -/
def stagingDims (kernel : Kernel) (var : StagingVar) : List Expr → Except Fault (List Int)
  | [] => .ok []
  | size :: rest =>
    match size.constant? with
    | none => .error (.openExtent kernel.id var.name size)
    | some n => (stagingDims kernel var rest).map (n :: ·)

def declareStaging (program : Program) (kernel : Kernel) (var : StagingVar) :
    Except Fault Stmt := do
  let some array := program.array? var.array
    | throw (.unknownBackingArray kernel.id var.name var.array)
  let dims ← kernel.stagingDims var var.size
  let memory := match var.scope with
    | .group => Memory.group
    | .item => Memory.item
  return .staging memory (.elem array.elem) var.name dims

/-- One copy between a staging variable and an array, which have to be declared
with as many dimensions as the copy uses indices. -/
def copyElement (program : Program) (kernel : Kernel) (copy : Copy) : Except Fault Stmt := do
  let some var := kernel.var? copy.var
    | throw (.undeclaredVar kernel.id copy.var)
  let some array := program.array? copy.array
    | throw (.unknownArray kernel.id copy.array)
  if copy.localIndex.length ≠ var.size.length then
    throw (.localRank kernel.id copy.var copy.localIndex.length var.size.length)
  if copy.globalIndex.length ≠ array.rank then
    throw (.globalRank copy.array copy.globalIndex.length array.rank)
  let staged := Term.access var.name copy.localIndex
  let element := array.element copy.globalIndex
  return match copy.direction with
    | .read => .assign staged element
    | .write => .assign element staged

mutual

/-- The statements of a part of the kernel body. -/
def bodyOf (job : Job) (kernel : Kernel) : Node → Except Fault (List Stmt)
  | .loop iter init cond inc body => do
    let inner ← bodyOfAll job kernel body
    return [.loop job.iteratorType iter init cond inc inner]
  | .branch cond thn els => do
    let first ← bodyOfAll job kernel thn
    let second ← bodyOfAll job kernel els
    return [.branch cond first second]
  | .block body => bodyOfAll job kernel body
  | .statement _ text => return [.verbatim text]
  | .copy copy => return [← kernel.copyElement job.program copy]
  | .sync => return [.barrier]
  | .launch inner _ => throw (.nestedLaunch kernel.id inner.id)

def bodyOfAll (job : Job) (kernel : Kernel) : List Node → Except Fault (List Stmt)
  | [] => return []
  | node :: rest => do
    let first ← bodyOf job kernel node
    let others ← bodyOfAll job kernel rest
    return first ++ others

end

/-- Whether the body, or an extent that enters a linear index, divides with
rounding down. -/
def needsFloorDiv (program : Program) (body : Node) : Bool :=
  body.calls .floorDiv ||
    (body.copiedArrays.filterMap program.array?).any (Expr.anyCalls .floorDiv ·.extents)

def define (job : Job) (kernel : Kernel) (args : List Argument) (body : Node) :
    Except Fault KernelDef := do
  let staging ← kernel.vars.mapM (kernel.declareStaging job.program)
  let stmts ← bodyOf job kernel body
  return {
    name := kernel.name
    params := args.map Argument.param
    body := kernel.prologue job ++ staging ++ .blank :: stmts
    needsFloorDiv := needsFloorDiv job.program body }

end Kernel

namespace KernelModule

/-- The definitions in order, with a blank line between them, and the helper for
rounded division before the first kernel that needs it. -/
def definitions (helperDefined isFirst : Bool) : List KernelDef → List Item
  | [] => []
  | kernel :: rest =>
    (if kernel.needsFloorDiv && !helperDefined then [.define Builtin.floorDiv.definition]
      else []) ++
      (if isFirst then [] else [.blank]) ++
      kernel.item :: definitions (helperDefined || kernel.needsFloorDiv) false rest

/-- What stands before the kernels: the double precision extension and the types. -/
def preamble (program : Program) : List Item :=
  (if program.usesDouble then [.pragma "OPENCL EXTENSION cl_khr_fp64 : enable", .blank]
    else []) ++
    if program.types.isEmpty then [] else program.types.map (.typeDef ·.definition) ++ [.blank]

def file (program : Program) (kernels : List KernelDef) : File :=
  preamble program ++ definitions false true kernels

end KernelModule

end Offload
