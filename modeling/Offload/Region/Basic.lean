import Offload.Expr.Printer

namespace Offload

/-- The named dimensions of an array or a kernel, together with the symbolic
parameters they may mention. A space without a tuple has parameters only. -/
structure Space where
  tuple : Option String := none
  params : List String := []
  dims : List String := []
  deriving DecidableEq, Repr, Inhabited

namespace Space

def ofParams (params : List String) : Space := { params }

def named (tuple : String) (params dims : List String) : Space :=
  { tuple := some tuple, params, dims }

/-- Spaces with the same tuple and as many dimensions hold comparable points. -/
def compatible (a b : Space) : Bool :=
  a.tuple == b.tuple && a.dims.length == b.dims.length

/-- Names between brackets. -/
def listed (names : List String) : String := "[" ++ ", ".intercalate names ++ "]"

def text (space : Space) : String :=
  match space.tuple with
  | none => listed space.params
  | some tuple => listed space.params ++ " -> " ++ tuple ++ listed space.dims

end Space

/-- A conjunction of constraints; a constraint holds where its expression is not zero. -/
abbrev Piece := List Expr

structure Region where
  space : Space
  pieces : List Piece
  deriving DecidableEq, Inhabited

namespace Region

def empty (space : Space) : Region := ⟨space, []⟩

def full (space : Space) : Region := ⟨space, [[]]⟩

def ofConstraints (space : Space) (constraints : Piece) : Region := ⟨space, [constraints]⟩

/-- The union lives in the space of the first region. -/
def union (a b : Region) : Region := { a with pieces := a.pieces ++ b.pieces }

/-- Joins conditions from the left, or gives the literal if there are none. -/
def joined (op : Operator) (unit : Int) : List Expr → Expr
  | [] => .lit unit
  | first :: rest => rest.foldl (Expr.bin op) first

/-- The region as one expression, not zero at its points. -/
def condition (region : Region) : Expr :=
  joined .or 0 (region.pieces.map (joined .and 1))

def text (region : Region) : String := region.condition.text

end Region

structure Footprint where
  params : List String := []
  regions : List Region := []
  deriving DecidableEq, Inhabited

/-- The part of a footprint that lives in the space, as one region of that space. -/
def Footprint.extract (footprint : Footprint) (space : Space) : Region :=
  (footprint.regions.filter (space.compatible ·.space)).foldl Region.union (.empty space)

end Offload
