namespace Offload.Code

/-- How far the current line is indented, and by how much a nested body is
indented further. -/
structure Layout where
  indent : Nat := 0
  step : Nat := 2
  deriving DecidableEq, Repr, Inhabited

namespace Layout

def deeper (layout : Layout) : Layout := { layout with indent := layout.indent + layout.step }

/-- Goes back one level, and no further than the left margin. -/
def shallower (layout : Layout) : Layout := { layout with indent := layout.indent - layout.step }

@[simp] theorem shallower_deeper (layout : Layout) : layout.deeper.shallower = layout := by
  simp [deeper, shallower]

/-- The blanks in front of a line. -/
def margin (layout : Layout) : String := String.ofList (List.replicate layout.indent ' ')

/-- The layout some levels deep, starting from the left margin. -/
def nested (step depth : Nat) : Layout := Nat.repeat deeper depth { step }

end Layout

end Offload.Code
