import Offload.ElemType
import Offload.Expr.Basic

/-! The code of the generated files as a tree: C with the types and calls of
OpenCL. Generation builds such trees, and only printing turns them into text. -/

namespace Offload.Code

/-- The address spaces of OpenCL; data of the host has no qualifier. -/
inductive Memory where
  | host | global
  /-- Shared by the items of a work-group. -/
  | group
  /-- One copy per work-item. -/
  | item
  deriving DecidableEq, Repr, Inhabited

inductive Ty where
  | void | int | sizeT
  | elem (type : ElemType)
  | named (name : String)
  | pointer (target : Ty) (memory : Memory)
  | clMem | clKernel | clInt | clDevice | clContext | clProgram | clQueue
  deriving DecidableEq, Repr, Inhabited

inductive Term where
  | var (name : String)
  | int (value : Int)
  | str (text : String)
  | symbolic (expr : Expr)
  | addressOf (term : Term)
  | voidPointer (term : Term)
  | sizeOf (type : Ty)
  | call (fn : String) (args : List Term)
  | access (target : String) (indices : List Expr)
  /-- The size in bytes of an array with these extents. -/
  | byteSize (extents : List Expr) (elem : Ty)
  | flags (names : List String)
  /-- The number of work-items of a grid of blocks. -/
  | workItems (grid : Expr) (block : Int)
  deriving Inhabited

inductive Stmt where
  | declare (type : Ty) (name : String)
  | define (type : Ty) (defs : List (String × Term))
  | defineArray (type : Ty) (name : String) (length : Nat) (elems : List Term)
  | assign (target value : Term)
  | loop (type : Ty) (iter : String) (init cond inc : Expr) (body : List Stmt)
  | branch (cond : Expr) (thn els : List Stmt)
  | scope (body : List Stmt)
  | verbatim (text : String)
  | blank
  /-- A call whose status is checked, or a status that is checked. -/
  | check (call : Term)
  | staging (memory : Memory) (elem : Ty) (name : String) (dims : List Int)
  | barrier
  deriving Inhabited

/-- Where calls that return an object leave their status. -/
def Term.errAddress : Term := .addressOf (.var "err")

namespace Stmt

/-- A call that returns its status, which is checked. -/
def checkCall (fn : String) (args : List Term) : Stmt := .check (.call fn args)

/-- Checks the status that the last call left behind. -/
def checkErr : Stmt := .check (.var "err")

end Stmt

structure Param where
  type : Ty
  name : String
  deriving DecidableEq, Repr, Inhabited

inductive Item where
  | includeFile (header : String)
  | platformInclude (apple other : String)
  | define (line : String)
  | pragma (text : String)
  | typeDef (definition : String)
  | declareFn (returns : Ty) (name : String) (params : List Param)
  | defineFn (isKernel : Bool) (returns : Ty) (name : String) (params : List Param)
      (body : List Stmt)
  | scope (body : List Stmt)
  | blank
  deriving Inhabited

/-- A file of generated code. -/
abbrev File := List Item

end Offload.Code
