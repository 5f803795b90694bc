import Offload.Operator

namespace Offload

/-- The functions that generated code calls by name, each with a helper definition. -/
inductive Builtin where
  | min | max | floorDiv
  deriving DecidableEq, Repr, Inhabited

namespace Builtin

/-- Every built-in function, in the order of their definitions. -/
def all : List Builtin := [.min, .max, .floorDiv]

def name : Builtin → String
  | .min => "min"
  | .max => "max"
  | .floorDiv => "floord"

/-- The preprocessor line that defines the function. -/
def definition : Builtin → String
  | .min => "#define min(x,y)    ((x) < (y) ? (x) : (y))"
  | .max => "#define max(x,y)    ((x) > (y) ? (x) : (y))"
  | .floorDiv => "#define floord(n,d) (((n)<0) ? -((-(n)+(d)-1)/(d)) : (n)/(d))"

end Builtin

inductive Expr where
  | lit (value : Int)
  | var (name : String)
  | neg (arg : Expr)
  | bin (op : Operator) (lhs rhs : Expr)
  | call (fn : Builtin) (args : List Expr)
  | select (cond thn els : Expr)
  deriving Inhabited

namespace Expr

mutual

def decEq : (a b : Expr) → Decidable (a = b)
  | lit m, lit n => decidable_of_iff (m = n) (by simp)
  | var x, var y => decidable_of_iff (x = y) (by simp)
  | neg a, neg b =>
    have := decEq a b
    decidable_of_iff (a = b) (by simp)
  | bin o a b, bin p c d =>
    have := decEq a c
    have := decEq b d
    decidable_of_iff (o = p ∧ a = c ∧ b = d) (by simp)
  | call f xs, call g ys =>
    have := decEqList xs ys
    decidable_of_iff (f = g ∧ xs = ys) (by simp)
  | select a b c, select d e f =>
    have := decEq a d
    have := decEq b e
    have := decEq c f
    decidable_of_iff (a = d ∧ b = e ∧ c = f) (by simp)
  | lit _, var _ | lit _, neg _ | lit _, bin .. | lit _, call .. | lit _, select ..
  | var _, lit _ | var _, neg _ | var _, bin .. | var _, call .. | var _, select ..
  | neg _, lit _ | neg _, var _ | neg _, bin .. | neg _, call .. | neg _, select ..
  | bin .., lit _ | bin .., var _ | bin .., neg _ | bin .., call .. | bin .., select ..
  | call .., lit _ | call .., var _ | call .., neg _ | call .., bin .. | call .., select ..
  | select .., lit _ | select .., var _ | select .., neg _ | select .., bin ..
  | select .., call .. => isFalse (by simp)

def decEqList : (as bs : List Expr) → Decidable (as = bs)
  | [], [] => isTrue rfl
  | [], _ :: _ => isFalse (by simp)
  | _ :: _, [] => isFalse (by simp)
  | a :: as, b :: bs =>
    have := decEq a b
    have := decEqList as bs
    decidable_of_iff (a = b ∧ as = bs) (by simp)

end

instance : DecidableEq Expr := decEq

/-- The value of an expression that is written as a literal. -/
def literal? : Expr → Option Int
  | lit value => some value
  | _ => none

/-- The operator at the top of an expression, if it is a binary one. -/
def operator? : Expr → Option Operator
  | bin op _ _ => some op
  | _ => none

/-- The direct sub-expressions, from left to right. -/
def children : Expr → List Expr
  | lit _ | var _ => []
  | neg arg => [arg]
  | bin _ lhs rhs => [lhs, rhs]
  | call _ args => args
  | select cond thn els => [cond, thn, els]

/-- Visits the direct sub-expressions from left to right, up to the first failure. -/
def foldChildren {α ε : Type} (visit : α → Expr → Except ε α) (start : α) (e : Expr) :
    Except ε α :=
  e.children.foldlM visit start

mutual

/-- Whether the expression calls the function, at any depth. -/
def calls (fn : Builtin) : Expr → Bool
  | lit _ | var _ => false
  | neg arg => arg.calls fn
  | bin _ lhs rhs => lhs.calls fn || rhs.calls fn
  | call g args => g == fn || anyCalls fn args
  | select cond thn els => cond.calls fn || thn.calls fn || els.calls fn

def anyCalls (fn : Builtin) : List Expr → Bool
  | [] => false
  | e :: rest => e.calls fn || anyCalls fn rest

end

/-- The functions called anywhere in the expressions, without repetition. -/
def builtins (es : List Expr) : List Builtin :=
  Builtin.all.filter (anyCalls · es)

end Expr

end Offload
