import Offload.Expr.Basic

namespace Offload.Expr

/-- Whether a minus sign in front of the bare text would be read differently. -/
def guardedUnderMinus : Expr → Bool
  | bin .. | neg _ => true
  | lit n => n < 0
  | _ => false

/-- A call with many arguments is printed as nested calls with two, from the left;
a single argument stands for itself. -/
def nestCalls (name : String) : List String → String
  | [] => ""
  | first :: rest => rest.foldl (fun inner arg => name ++ "(" ++ inner ++ ", " ++ arg ++ ")") first

mutual

def text : Expr → String
  | lit n => toString n
  | var x => x
  | neg arg => if arg.guardedUnderMinus then "-(" ++ arg.text ++ ")" else "-" ++ arg.text
  | bin op lhs rhs =>
    op.wrapOperand lhs.operator? .left lhs.text ++ " " ++ op.symbol ++ " " ++
      op.wrapOperand rhs.operator? .right rhs.text
  | call fn args => nestCalls fn.name (texts args)
  | select cond thn els => "(" ++ cond.text ++ " ? " ++ thn.text ++ " : " ++ els.text ++ ")"

def texts : List Expr → List String
  | [] => []
  | e :: rest => e.text :: texts rest

end

end Offload.Expr
