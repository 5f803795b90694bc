import Offload.Code.Basic
import Offload.Region.Algebra

namespace Offload

/-- An array of the program. The extents are the sizes of its dimensions,
outermost first, and an array without dimensions is a scalar. -/
structure ArrayDecl where
  name : String
  elem : ElemType
  extents : List Expr
  space : Space
  /-- A scalar that no kernel writes is passed by value and needs no buffer. -/
  readOnlyScalar : Bool := false
  deriving DecidableEq, Inhabited

namespace ArrayDecl

/-- The dimensions of an array are named by their position. -/
def dimNames (rank : Nat) : List String := (List.range rank).map ("i" ++ toString ·)

def declare (name elem : String) (extents : List Expr) (params : List String) : ArrayDecl where
  name
  elem := .ofText elem
  extents
  space := .named name params (dimNames extents.length)

def rank (array : ArrayDecl) : Nat := array.extents.length

def isScalar (array : ArrayDecl) : Bool := array.extents.isEmpty

/-- Marks a scalar as never written; any other array stays as it is. -/
def markReadOnly (array : ArrayDecl) (readOnly : Bool) : ArrayDecl :=
  { array with readOnlyScalar := readOnly && array.isScalar }

def hasBuffer (array : ArrayDecl) : Bool := !array.readOnlyScalar

/-- The name of the device buffer. -/
def bufferName (array : ArrayDecl) : String := "dev_" ++ array.name

/-- What has to hold for an extent to be positive; a positive literal needs nothing. -/
def extentGuard (extent : Expr) : Option Expr :=
  match extent.literal? with
  | some n => if 0 < n then none else some (.lit 0)
  | none => some (.bin .ge extent (.lit 1))

/-- The parameters for which every extent is positive, each condition stated once. -/
def sizeGuard (array : ArrayDecl) : Region :=
  .ofConstraints (.ofParams array.space.params) (array.extents.filterMap extentGuard).eraseDups

end ArrayDecl

/-- A type definition, copied into the kernel module as it is. -/
structure TypeDef where
  name : String
  definition : String
  deriving DecidableEq, Repr, Inhabited

def TypeDef.usesDouble (type : TypeDef) : Bool :=
  Text.occursIn "double".toList type.definition.toList

structure Program where
  params : List String
  arrays : List ArrayDecl := []
  types : List TypeDef := []
  copyIn : Footprint := { params }
  copyOut : Footprint := { params }
  context : Region := .full (.ofParams params)
  deriving DecidableEq, Inhabited

namespace Program

/-- The first array of that name. -/
def array? (program : Program) (name : String) : Option ArrayDecl :=
  program.arrays.find? (·.name == name)

/-- The first array that lives in a compatible space. -/
def arrayIn? (program : Program) (space : Space) : Option ArrayDecl :=
  program.arrays.find? (·.space.compatible space)

/-- Whether the kernel module needs double precision. -/
def usesDouble (program : Program) : Bool :=
  program.arrays.any (·.elem.isDouble) || program.types.any (·.usesDouble)

end Program

/-- The choices a caller makes about the generated program. -/
structure Options where
  useGpu : Bool := true
  /-- Passed on to the device compiler. -/
  compilerOptions : Option String := none
  /-- Wraps the host code into a function of this name. -/
  hostFunction : Option String := none
  iteratorType : String := "int"
  debugPrint : Bool := false
  deriving DecidableEq, Repr, Inhabited

/-- What a generation run works from. -/
structure Job where
  program : Program
  options : Options := {}
  algebra : Algebra := .syntactic

namespace Job

/-- The type of loop iterators in the generated code. -/
def iteratorType (job : Job) : Code.Ty := .named job.options.iteratorType

/-- Whether the algebra finds a part of the footprint inside the array. -/
def touches (job : Job) (footprint : Footprint) (array : ArrayDecl) : Bool :=
  !job.algebra.isEmpty
    (job.algebra.intersect (.full array.space) (footprint.extract array.space))

end Job

end Offload
