import Offload.Region.Basic

namespace Offload

inductive Direction where
  /-- From the array into the staging variable. -/
  | read
  /-- From the staging variable back into the array. -/
  | write
  deriving DecidableEq, Repr, Inhabited

/-- One element copied between an array and a staging variable. -/
structure Copy where
  var : String
  array : String
  direction : Direction
  localIndex : List Expr
  globalIndex : List Expr
  deriving DecidableEq, Inhabited

/-- Where a staging variable lives: shared by a work-group, or one per work-item. -/
inductive Scope where
  | group | item
  deriving DecidableEq, Repr, Inhabited

structure StagingVar where
  name : String
  /-- The array whose element type the variable takes. -/
  array : String
  scope : Scope
  size : List Expr
  deriving DecidableEq, Inhabited

/-- What a kernel is apart from its body. -/
structure Kernel where
  id : Nat
  footprint : Footprint
  /-- The dimensions are the host iterators that are live at the launch. -/
  space : Space
  gridSize : List Expr
  blockSize : List Int
  vars : List StagingVar
  deriving DecidableEq, Inhabited

namespace Kernel

def name (kernel : Kernel) : String := "kernel" ++ toString kernel.id

/-- The first staging variable of that name. -/
def var? (kernel : Kernel) (name : String) : Option StagingVar :=
  kernel.vars.find? (·.name == name)

end Kernel

inductive Node where
  | loop (iter : String) (init cond inc : Expr) (body : List Node)
  | branch (cond : Expr) (thn els : List Node)
  | block (body : List Node)
  | statement (name text : String)
  | copy (copy : Copy)
  | sync
  | launch (kernel : Kernel) (body : Node)
  deriving Inhabited

namespace Node

/-- The child nodes, in order; the body of a launched kernel is not one of them. -/
def children : Node → List Node
  | loop _ _ _ _ body | block body => body
  | branch _ thn els => thn ++ els
  | statement .. | copy _ | sync | launch .. => []

/-- The expressions of the node itself, in order. -/
def exprs : Node → List Expr
  | loop _ init cond inc _ => [init, cond, inc]
  | branch cond _ _ => [cond]
  | copy c => c.localIndex ++ c.globalIndex
  | launch kernel _ => kernel.gridSize
  | block _ | statement .. | sync => []

/-- Visits the child nodes in order, up to the first failure. -/
def foldChildren {α ε : Type} (visit : α → Node → Except ε α) (start : α) (node : Node) :
    Except ε α :=
  node.children.foldlM visit start

/-- Visits the expressions of the node itself in order, up to the first failure. -/
def foldExprs {α ε : Type} (visit : α → Expr → Except ε α) (start : α) (node : Node) :
    Except ε α :=
  node.exprs.foldlM visit start

mutual

/-- Whether an expression of the tree calls the function; bodies of launched
kernels are trees of their own. -/
def calls (fn : Builtin) : Node → Bool
  | loop _ init cond inc body => Expr.anyCalls fn [init, cond, inc] || anyCalls fn body
  | branch cond thn els => cond.calls fn || anyCalls fn thn || anyCalls fn els
  | block body => anyCalls fn body
  | copy c => Expr.anyCalls fn (c.localIndex ++ c.globalIndex)
  | launch kernel _ => Expr.anyCalls fn kernel.gridSize
  | statement .. | sync => false

def anyCalls (fn : Builtin) : List Node → Bool
  | [] => false
  | node :: rest => node.calls fn || anyCalls fn rest

end

/-- The functions called in the tree, together with those needed already. -/
def builtins (needed : List Builtin) (tree : Node) : List Builtin :=
  Builtin.all.filter fun fn => needed.contains fn || tree.calls fn

mutual

/-- The arrays named by the copies of a tree, in order. -/
def copiedArrays : Node → List String
  | loop _ _ _ _ body | block body => copiedArraysOf body
  | branch _ thn els => copiedArraysOf thn ++ copiedArraysOf els
  | copy c => [c.array]
  | statement .. | sync | launch .. => []

def copiedArraysOf : List Node → List String
  | [] => []
  | node :: rest => node.copiedArrays ++ copiedArraysOf rest

end

end Node

end Offload
