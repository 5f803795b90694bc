import Offload.Code.Basic

/-! The work sizes of a launch. Global sizes count work-items, so the grid sizes
of the schedule are scaled by the block sizes. -/

namespace Offload

structure Geometry where
  global : List Code.Term
  group : List Int
  workDim : Nat
  deriving Inhabited

namespace Geometry

/-- The global sizes, dimension by dimension, where the shorter list has run out
for the dimensions that remain. -/
def globalSizes : List Expr → List Int → List Code.Term
  | [], block => block.map .int
  | grid, [] => grid.map .symbolic
  | g :: grid, b :: block => .workItems g b :: globalSizes grid block

/-- A launch without a grid or without blocks runs a single work-item. -/
def ofSizes (grid : List Expr) (block : List Int) : Geometry where
  global := if grid.isEmpty || block.isEmpty then [.int 1] else globalSizes grid block
  group := if block.isEmpty then [1] else block
  workDim := max 1 block.length

end Geometry

end Offload
