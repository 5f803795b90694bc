namespace Offload

inductive Operator where
  | add | sub | mul | div | rem
  | eq | ne | le | ge | lt | gt
  | and | or
  deriving DecidableEq, Repr, Inhabited

namespace Operator

def symbol : Operator → String
  | add => "+"
  | sub => "-"
  | mul => "*"
  | div => "/"
  | rem => "%"
  | eq => "=="
  | ne => "!="
  | le => "<="
  | ge => ">="
  | lt => "<"
  | gt => ">"
  | and => "&&"
  | or => "||"

/-- How tightly an operator binds in C; a larger level binds tighter. -/
def level : Operator → Nat
  | or => 2
  | and => 3
  | eq | ne => 7
  | le | ge | lt | gt => 8
  | add | sub => 11
  | mul | div | rem => 12

/-- How tightly the first operator binds, compared with the second. -/
def precedence (inner outer : Operator) : Ordering := compare inner.level outer.level

/-- Whether a right operand with this operator at its top may stand bare next
to the outer operator of the same level. -/
def associatesWith : Operator → Operator → Bool
  | add, add | mul, mul | and, and | or, or => true
  | _, _ => false

inductive Side where
  | left | right
  deriving DecidableEq, Repr

/-- Whether an operand with operator `inner` at its top, standing on the given
side of `outer`, needs parentheses. -/
def needsParens (outer inner : Operator) (side : Side) : Bool :=
  match inner.precedence outer with
  | .lt => true
  | .eq => side == .right && !outer.associatesWith inner
  | .gt => false

/-- The text of an operand of `outer`; an operand without a top operator stands bare. -/
def wrapOperand (outer : Operator) (inner : Option Operator) (side : Side) (text : String) :
    String :=
  match inner with
  | none => text
  | some op => if outer.needsParens op side then "(" ++ text ++ ")" else text

end Operator

end Offload
