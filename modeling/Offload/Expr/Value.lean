import Offload.Expr.Basic

/-! Evaluation in 64-bit integers. A step whose result leaves the range has no
value, so a value that is found is the exact one. -/

namespace Offload

/-- The integer itself if it fits into a signed 64-bit word. -/
def word (n : Int) : Option Int :=
  if -0x8000000000000000 ≤ n ∧ n < 0x8000000000000000 then some n else none

/-- A word is found exactly for the integers in range, and is the integer itself. -/
theorem word_eq_some_iff {n m : Int} :
    word n = some m ↔ n = m ∧ -0x8000000000000000 ≤ n ∧ n < 0x8000000000000000 := by
  unfold word
  split
  · rename_i fits
    exact ⟨fun same => ⟨Option.some.inj same, fits⟩, fun same => congrArg some same.1⟩
  · rename_i outside
    exact ⟨nofun, fun same => absurd same.2 outside⟩

/-- The value of a comparison or of a logical operator. -/
def truth (b : Bool) : Int := if b then 1 else 0

/-- The value of an operator; division truncates toward zero, and the remainder
of the least word by `-1` has no value, as its quotient has none. -/
def Operator.value : Operator → Int → Int → Option Int
  | .add, l, r => word (l + r)
  | .sub, l, r => word (l - r)
  | .mul, l, r => word (l * r)
  | .div, l, r => if r = 0 then none else word (l.tdiv r)
  | .rem, l, r => if r = 0 ∨ (l = -0x8000000000000000 ∧ r = -1) then none else some (l.tmod r)
  | .eq, l, r => some (truth (l == r))
  | .ne, l, r => some (truth (l != r))
  | .le, l, r => some (truth (l ≤ r))
  | .ge, l, r => some (truth (r ≤ l))
  | .lt, l, r => some (truth (l < r))
  | .gt, l, r => some (truth (r < l))
  | .and, l, r => some (truth (l != 0 && r != 0))
  | .or, l, r => some (truth (l != 0 || r != 0))

/-- The quotient rounded toward minus infinity: the quotient with a nonnegative
remainder, less one where a negative divisor leaves a remainder. -/
def floorQuotient (n d : Int) : Option Int :=
  if d = 0 then none
  else (word (n / d)).map fun q => if d < 0 ∧ n % d ≠ 0 then q - 1 else q

def Builtin.value : Builtin → List Int → Option Int
  | .min, v :: rest => some (rest.foldl Min.min v)
  | .max, v :: rest => some (rest.foldl Max.max v)
  | .floorDiv, [n, d] => floorQuotient n d
  | _, _ => none

namespace Expr

mutual

/-- The value of an expression when names are read from `names`. Both operands
of an operator are needed, and only the chosen branch of a conditional. -/
def value (names : String → Option Int) : Expr → Option Int
  | lit n => word n
  | var x => names x
  | neg arg => (arg.value names).bind fun v => word (-v)
  | bin op lhs rhs => (lhs.value names).bind fun l => (rhs.value names).bind fun r => op.value l r
  | call fn args => (values names args).bind fn.value
  | select cond thn els =>
    (cond.value names).bind fun c => if c ≠ 0 then thn.value names else els.value names

def values (names : String → Option Int) : List Expr → Option (List Int)
  | [] => some []
  | e :: rest => (e.value names).bind fun v => (values names rest).map (v :: ·)

end

/-- The value of an expression whose evaluation meets no name. -/
def constant? (e : Expr) : Option Int :=
  e.value fun _ => none

end Expr

end Offload
