import Offload.Expr.Value
import Offload.Region.Basic

/-! The operations on regions that generation relies on. Generation takes them
as a record, so that a precise algebra may replace the one given here. -/

namespace Offload

structure Algebra where
  isEmpty : Region → Bool
  isFull : Region → Bool
  intersect : Region → Region → Region
  /-- Simplifies a region under the assumption that the second one holds. -/
  gist : Region → Region → Region

/-- An algebra with fixed answers that changes no region. -/
def Algebra.fixed (isEmpty isFull : Bool) : Algebra where
  isEmpty _ := isEmpty
  isFull _ := isFull
  intersect region _ := region
  gist region _ := region

namespace Expr

/-- Whether the constraint folds to zero. -/
def neverHolds (e : Expr) : Bool := e.constant? == some 0

/-- Whether the constraint folds to a constant other than zero. -/
def alwaysHolds (e : Expr) : Bool := e.constant?.any (· != 0)

end Expr

namespace Piece

/-- Drops the constraints that always hold; a piece that never holds has no form. -/
def simplify (piece : Piece) : Option Piece :=
  if piece.any Expr.neverHolds then none else some (piece.filter (!Expr.alwaysHolds ·))

end Piece

namespace Region

/-- Whether every piece has a constraint that folds to zero. -/
def isRefuted (region : Region) : Bool :=
  region.pieces.all (·.any Expr.neverHolds)

/-- Whether some piece has only constraints that fold to other constants than zero. -/
def isTrivial (region : Region) : Bool :=
  region.pieces.any (·.all Expr.alwaysHolds)

/-- Intersects piece by piece; regions of different spaces have nothing in common. -/
def intersect (a b : Region) : Region :=
  if a.space.compatible b.space then
    { a with
      pieces := a.pieces.flatMap fun p => b.pieces.filterMap fun q => Piece.simplify (p ++ q) }
  else empty a.space

/-- Whether the constraint stands in every piece of a context that has pieces. -/
def implies (context : Region) (constraint : Expr) : Bool :=
  !context.pieces.isEmpty && context.pieces.all (·.contains constraint)

/-- Drops what the context states word for word, then simplifies each piece. -/
def gist (region context : Region) : Region :=
  { region with
    pieces := region.pieces.filterMap fun p => Piece.simplify (p.filter (!context.implies ·)) }

end Region

/-- The algebra that looks no further than at constants and at equal constraints. -/
def Algebra.syntactic : Algebra where
  isEmpty := Region.isRefuted
  isFull := Region.isTrivial
  intersect := Region.intersect
  gist := Region.gist

end Offload
