import Offload.Program
import Offload.Traced

namespace Offload.Buffer

open Code

def arrays (job : Job) : List ArrayDecl := job.program.arrays.filter (·.hasBuffer)

def byteSize (array : ArrayDecl) : Term := .byteSize array.extents (.elem array.elem)

/-- The host data of an array as the API takes it. A scalar is passed by address,
unless the host function receives a pointer to it. -/
def hostData (job : Job) (array : ArrayDecl) : Term :=
  if array.isScalar && job.options.hostFunction.isNone then .addressOf (.var array.name)
  else .var array.name

def declareAll (job : Job) : List Stmt :=
  (arrays job).map fun array => .declare .clMem array.bufferName

/-- The size of a buffer, which is never zero: one element at least, unless the
extents are known to be positive. -/
def allocationSize (job : Job) (array : ArrayDecl) : Term :=
  if job.algebra.isFull array.sizeGuard then byteSize array
  else .call "max" [.sizeOf (.elem array.elem), byteSize array]

/-- Creates the buffer of an array, filled from the host if asked for. -/
def create (job : Job) (array : ArrayDecl) (initialCopy : Bool) : Stmt :=
  .scope [
    .assign (.var array.bufferName) (.call "clCreateBuffer" [
      .var "context",
      .flags ("CL_MEM_READ_WRITE" :: if initialCopy then ["CL_MEM_COPY_HOST_PTR"] else []),
      allocationSize job array,
      if initialCopy then hostData job array else .var "NULL",
      .errAddress]),
    .checkErr]

/-- Creates and reports one buffer. -/
def allocate (job : Job) (array : ArrayDecl) : Traced Stmt := do
  let initialCopy := job.touches job.program.copyIn array
  .report (.allocating array.name initialCopy)
  return create job array initialCopy

def allocateAll (job : Job) : Traced (List Stmt) := (arrays job).mapM (allocate job)

/-- Reads a whole buffer back into the host data. -/
def readBack (job : Job) (array : ArrayDecl) : Stmt :=
  .checkCall "clEnqueueReadBuffer" [
    .var "queue", .var array.bufferName, .var "CL_TRUE", .int 0, byteSize array,
    hostData job array, .int 0, .var "NULL", .var "NULL"]

/-- Reads a buffer back where the array has elements; the test is left out if
what is known of the parameters settles it. -/
def copyBack (job : Job) (array : ArrayDecl) : Stmt :=
  let guard := job.algebra.gist array.sizeGuard job.program.context
  if job.algebra.isFull guard then readBack job array
  else .branch guard.condition [readBack job array] []

def copyBackAll (job : Job) : List Stmt :=
  ((arrays job).filter (job.touches job.program.copyOut)).map (copyBack job)

def releaseAll (job : Job) : List Stmt :=
  (arrays job).map fun array =>
    .scope [.checkCall "clReleaseMemObject" [.var array.bufferName]]

end Offload.Buffer
