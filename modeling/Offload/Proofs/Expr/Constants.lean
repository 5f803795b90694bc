import Offload.Proofs.Expr.Range

namespace Offload

/-- The integers that fit into a signed 64-bit word. -/
def InWord (n : Int) : Prop := -0x8000000000000000 ≤ n ∧ n < 0x8000000000000000

instance (n : Int) : Decidable (InWord n) :=
  inferInstanceAs (Decidable (_ ∧ _))

theorem word_eq_some_iff_inWord {n m : Int} : word n = some m ↔ some n = some m ∧ InWord m := by
  rw [word_eq_some_iff, Option.some.injEq]
  constructor
  · rintro ⟨rfl, fits⟩
    exact ⟨rfl, fits⟩
  · rintro ⟨rfl, fits⟩
    exact ⟨rfl, fits⟩

private theorem inWord_truth (b : Bool) : InWord (truth b) := by
  cases b <;> decide

/-- A remainder is no larger than what is divided, and has its sign. -/
theorem inWord_tmod {l : Int} (fits : InWord l) (r : Int) : InWord (l.tmod r) := by
  have small : (l.tmod r).natAbs ≤ l.natAbs := by
    rw [Int.natAbs_tmod]
    exact Nat.mod_le _ _
  unfold InWord at fits ⊢
  rcases Int.le_total 0 l with nonneg | nonpos
  · have sign := Int.tmod_nonneg r nonneg
    omega
  · have sign := Int.tmod_nonneg r (Int.neg_nonneg_of_nonpos nonpos)
    rw [Int.neg_tmod] at sign
    omega

/-- The remainder that has no value although it fits: its quotient does not. -/
def Operator.Overflows (op : Operator) (l r : Int) : Prop :=
  op = .rem ∧ l = -0x8000000000000000 ∧ r = -1

theorem Operator.value_eq_some_iff {op : Operator} {l r v : Int} (left : InWord l) :
    op.value l r = some v ↔ op.apply l r = some v ∧ InWord v ∧ ¬ op.Overflows l r := by
  have total (other : op ≠ .rem) : ¬ op.Overflows l r := fun overflows => other overflows.1
  cases op with
  | add | sub | mul =>
    simp only [value, apply, word_eq_some_iff_inWord]
    exact and_congr_right fun _ => (and_iff_left (total (by decide))).symm
  | div =>
    simp only [value, apply]
    split
    · simp only [reduceCtorEq, false_and]
    · rw [word_eq_some_iff_inWord]
      exact and_congr_right fun _ => (and_iff_left (total (by decide))).symm
  | rem =>
    simp only [value, apply, Overflows, true_and]
    by_cases zero : r = 0
    · simp only [zero, true_or, ↓reduceIte, reduceCtorEq, false_and]
    · simp only [zero, false_or, ↓reduceIte]
      split
      · rename_i overflows
        simp only [overflows, not_true_eq_false, and_false, reduceCtorEq, and_self]
      · rename_i defined
        constructor
        · intro found
          exact ⟨found, Option.some.inj found ▸ inWord_tmod left r, defined⟩
        · exact fun found => found.1
  | eq | ne | le | ge | lt | gt | and | or =>
    constructor
    · intro found
      exact ⟨found, Option.some.inj found ▸ inWord_truth _, total (by decide)⟩
    · exact fun found => found.1

/-- A quotient that has to be lowered lies well inside of the range: a divisor below zero
that leaves a remainder is not `-1`. -/
theorem inWord_lowered {n d : Int} (dividend : InWord n) (divisor : InWord d)
    (lowers : d < 0 ∧ n % d ≠ 0) : InWord (n / d) ∧ InWord (n / d - 1) := by
  obtain ⟨negative, remains⟩ := lowers
  have notUnit : d ≠ -1 := by
    rintro rfl
    exact remains (by rw [Int.emod_neg, Int.emod_one])
  have parts := Int.mul_ediv_add_emod n d
  have least := Int.emod_nonneg n (Int.ne_of_lt negative)
  have most := Int.emod_lt_of_neg n negative
  generalize n / d = q at parts ⊢
  generalize n % d = r at parts remains least most
  unfold InWord at *
  -- The product is at least twice as far from zero as the quotient.
  rcases Int.le_total 0 q with nonneg | nonpos
  · have double : d * q ≤ -2 * q := Int.mul_le_mul_of_nonneg_right (by omega) nonneg
    omega
  · have double : -2 * q ≤ d * q := Int.mul_le_mul_of_nonpos_right (by omega) nonpos
    omega

/-- The floor quotient is found exactly where it fits. -/
theorem floorQuotient_eq_some_iff {n d q : Int} (dividend : InWord n) (divisor : InWord d) :
    floorQuotient n d = some q ↔ d ≠ 0 ∧ n.fdiv d = q ∧ InWord q := by
  rw [floorQuotient, fdiv_eq_lowered]
  by_cases zero : d = 0
  · rw [if_pos zero]
    exact ⟨nofun, fun known => absurd zero known.1⟩
  rw [if_neg zero, Option.map_eq_some_iff]
  simp only [word_eq_some_iff_inWord, Option.some.injEq]
  constructor
  · rintro ⟨_, ⟨rfl, fits⟩, rfl⟩
    refine ⟨zero, rfl, ?_⟩
    split
    · rename_i lowers
      exact (inWord_lowered dividend divisor lowers).2
    · exact fits
  · rintro ⟨-, rfl, fits⟩
    refine ⟨n / d, ⟨rfl, ?_⟩, rfl⟩
    split at fits
    · rename_i lowers
      exact (inWord_lowered dividend divisor lowers).1
    · exact fits

/-- Choosing between words gives one of them. -/
theorem inWord_foldl {choose : Int → Int → Int}
    (chooses : ∀ m n, choose m n = m ∨ choose m n = n) {first : Int} {rest : List Int}
    (head : InWord first) (tail : ∀ n ∈ rest, InWord n) : InWord (rest.foldl choose first) := by
  induction rest generalizing first with
  | nil => exact head
  | cons n rest ih =>
    obtain ⟨next, later⟩ := List.forall_mem_cons.mp tail
    refine ih ?_ later
    rcases chooses first n with same | same <;> rw [same] <;> assumption

theorem Builtin.value_eq_some_iff {fn : Builtin} {args : List Int} {v : Int}
    (each : ∀ n ∈ args, InWord n) :
    fn.value args = some v ↔ fn.exact args = some v ∧ InWord v := by
  match fn, args with
  | .min, first :: rest =>
    obtain ⟨head, tail⟩ := List.forall_mem_cons.mp each
    have fits : InWord (rest.foldl Min.min first) := inWord_foldl (fun _ _ => by omega) head tail
    exact ⟨fun found => ⟨found, Option.some.inj found ▸ fits⟩, fun found => found.1⟩
  | .max, first :: rest =>
    obtain ⟨head, tail⟩ := List.forall_mem_cons.mp each
    have fits : InWord (rest.foldl Max.max first) := inWord_foldl (fun _ _ => by omega) head tail
    exact ⟨fun found => ⟨found, Option.some.inj found ▸ fits⟩, fun found => found.1⟩
  | .floorDiv, [n, d] =>
    obtain ⟨dividend, divisor, -⟩ := List.forall_mem_cons.mp each |>.imp_right
      List.forall_mem_cons.mp
    rw [value, exact, floorQuotient_eq_some_iff dividend divisor]
    by_cases zero : d = 0 <;> simp [zero]
  | .min, [] | .max, [] | .floorDiv, [] | .floorDiv, [_] | .floorDiv, _ :: _ :: _ :: _ =>
    simp only [value, exact, reduceCtorEq, false_and]

namespace Expr

mutual

/-- The value of an expression over the integers. Names have none, both operands of an
operator are needed, and only the chosen branch of a conditional. -/
def unbounded : Expr → Option Int
  | lit n => some n
  | var _ => none
  | neg arg => arg.unbounded.map (- ·)
  | bin op lhs rhs => lhs.unbounded.bind fun l => rhs.unbounded.bind fun r => op.apply l r
  | call fn args => (unboundedAll args).bind fn.exact
  | select cond thn els =>
    cond.unbounded.bind fun c => if c ≠ 0 then thn.unbounded else els.unbounded

def unboundedAll : List Expr → Option (List Int)
  | [] => some []
  | e :: rest => e.unbounded.bind fun v => (unboundedAll rest).map (v :: ·)

end

mutual

/-- The expression and what is evaluated on the way to its value. -/
def evaluated : Expr → List Expr
  | lit n => [lit n]
  | var x => [var x]
  | neg arg => neg arg :: arg.evaluated
  | bin op lhs rhs => bin op lhs rhs :: (lhs.evaluated ++ rhs.evaluated)
  | call fn args => call fn args :: evaluatedAll args
  | select cond thn els =>
    select cond thn els :: (cond.evaluated ++
      match cond.unbounded with
      | some c => if c ≠ 0 then thn.evaluated else els.evaluated
      | none => [])

def evaluatedAll : List Expr → List Expr
  | [] => []
  | e :: rest => e.evaluated ++ evaluatedAll rest

end

/-- The expression has a value that fits into a word, and it is no remainder of the least
word by `-1`. -/
def Fits (e : Expr) : Prop :=
  (∃ n, e.unbounded = some n ∧ InWord n) ∧
    ∀ lhs rhs, e = bin .rem lhs rhs →
      ¬ (lhs.unbounded = some (-0x8000000000000000) ∧ rhs.unbounded = some (-1))

/-- Everything on the way to the value fits. -/
def FitsOnTheWay (e : Expr) : Prop := ∀ s ∈ e.evaluated, s.Fits

theorem Fits.inWord {e : Expr} {n : Int} (fits : e.Fits) (known : e.unbounded = some n) :
    InWord n := by
  obtain ⟨⟨m, same, range⟩, -⟩ := fits
  rw [known] at same
  exact Option.some.inj same ▸ range

theorem fits_of_unbounded {e : Expr} {n : Int} (known : e.unbounded = some n) (range : InWord n)
    (other : ∀ lhs rhs, e ≠ bin .rem lhs rhs) : e.Fits :=
  ⟨⟨n, known, range⟩, fun lhs rhs same => absurd same (other lhs rhs)⟩

theorem FitsOnTheWay.self {e : Expr} (way : e.FitsOnTheWay) : e.Fits := by
  apply way
  cases e <;> simp [evaluated]

theorem inWord_of_unboundedAll {args : List Expr} {found : List Int}
    (known : unboundedAll args = some found) (way : ∀ s ∈ evaluatedAll args, s.Fits) :
    ∀ n ∈ found, InWord n := by
  induction args generalizing found with
  | nil =>
    cases known
    exact nofun
  | cons arg rest ih =>
    obtain ⟨n, head, others⟩ := Option.bind_eq_some_iff.mp known
    obtain ⟨tail, inside, rfl⟩ := Option.map_eq_some_iff.mp others
    obtain ⟨first, later⟩ := List.forall_mem_append.mp way
    have fits : arg.FitsOnTheWay := first
    exact List.forall_mem_cons.mpr ⟨fits.self.inWord head, ih inside later⟩

/-- A constant is found exactly where the expression has that value over the integers and
everything on the way fits. -/
def FoldsExactly (e : Expr) : Prop :=
  ∀ n, e.constant? = some n ↔ e.unbounded = some n ∧ e.FitsOnTheWay

private theorem foldsExactly_lit (m : Int) : (lit m).FoldsExactly := by
  intro n
  have range : word m = some n ↔ some m = some n ∧ InWord n := word_eq_some_iff_inWord
  refine range.trans (and_congr_right fun same => ?_)
  constructor
  · intro fits
    exact List.forall_mem_singleton.mpr (fits_of_unbounded same fits nofun)
  · exact fun way => way.self.inWord same

private theorem foldsExactly_neg {arg : Expr} (inner : arg.FoldsExactly) :
    (neg arg).FoldsExactly := by
  intro n
  constructor
  · intro found
    obtain ⟨m, operand, range⟩ := Option.bind_eq_some_iff.mp found
    obtain ⟨known, way⟩ := (inner m).mp operand
    obtain ⟨same, fits⟩ := word_eq_some_iff_inWord.mp range
    have whole : (neg arg).unbounded = some n := by rw [unbounded, known, Option.map_some, same]
    exact ⟨whole, List.forall_mem_cons.mpr ⟨fits_of_unbounded whole fits nofun, way⟩⟩
  · rintro ⟨whole, way⟩
    obtain ⟨m, known, same⟩ := Option.map_eq_some_iff.mp whole
    have operand := (inner m).mpr ⟨known, (List.forall_mem_cons.mp way).2⟩
    have range := word_eq_some_iff_inWord.mpr ⟨congrArg some same, way.self.inWord whole⟩
    exact Option.bind_eq_some_iff.mpr ⟨m, operand, range⟩

private theorem foldsExactly_bin {op : Operator} {lhs rhs : Expr} (first : lhs.FoldsExactly)
    (second : rhs.FoldsExactly) : (bin op lhs rhs).FoldsExactly := by
  intro n
  constructor
  · intro found
    obtain ⟨l, left, rest⟩ := Option.bind_eq_some_iff.mp found
    obtain ⟨r, right, result⟩ := Option.bind_eq_some_iff.mp rest
    obtain ⟨leftKnown, leftWay⟩ := (first l).mp left
    obtain ⟨rightKnown, rightWay⟩ := (second r).mp right
    obtain ⟨applied, fits, defined⟩ :=
      (Operator.value_eq_some_iff (leftWay.self.inWord leftKnown)).mp result
    have whole : (bin op lhs rhs).unbounded = some n := by
      rw [unbounded, leftKnown, Option.bind_some, rightKnown, Option.bind_some, applied]
    refine ⟨whole, List.forall_mem_cons.mpr ⟨⟨⟨n, whole, fits⟩, ?_⟩,
      List.forall_mem_append.mpr ⟨leftWay, rightWay⟩⟩⟩
    rintro _ _ ⟨⟩ ⟨least, unit⟩
    rw [leftKnown] at least
    rw [rightKnown] at unit
    exact defined ⟨rfl, Option.some.inj least, Option.some.inj unit⟩
  · rintro ⟨whole, way⟩
    obtain ⟨l, leftKnown, rest⟩ := Option.bind_eq_some_iff.mp whole
    obtain ⟨r, rightKnown, applied⟩ := Option.bind_eq_some_iff.mp rest
    obtain ⟨here, inside⟩ := List.forall_mem_cons.mp way
    obtain ⟨leftWay, rightWay⟩ := List.forall_mem_append.mp inside
    have defined : ¬ op.Overflows l r := by
      rintro ⟨rfl, rfl, rfl⟩
      exact here.2 lhs rhs rfl ⟨leftKnown, rightKnown⟩
    have fits : InWord l := (FitsOnTheWay.self leftWay).inWord leftKnown
    have result := (Operator.value_eq_some_iff fits).mpr ⟨applied, here.inWord whole, defined⟩
    exact Option.bind_eq_some_iff.mpr ⟨l, (first l).mpr ⟨leftKnown, leftWay⟩,
      Option.bind_eq_some_iff.mpr ⟨r, (second r).mpr ⟨rightKnown, rightWay⟩, result⟩⟩

private theorem values_eq_some_iff {args : List Expr}
    (each : ∀ arg ∈ args, arg.FoldsExactly) {found : List Int} :
    values (fun _ => none) args = some found ↔
      unboundedAll args = some found ∧ ∀ s ∈ evaluatedAll args, s.Fits := by
  induction args generalizing found with
  | nil => exact (and_iff_left nofun).symm
  | cons arg rest ih =>
    obtain ⟨here, later⟩ := List.forall_mem_cons.mp each
    simp only [values, unboundedAll, evaluatedAll, Option.bind_eq_some_iff,
      Option.map_eq_some_iff, List.forall_mem_append, ih later]
    constructor
    · rintro ⟨n, first, tail, ⟨others, way⟩, rfl⟩
      obtain ⟨known, fits⟩ := (here n).mp first
      exact ⟨⟨n, known, tail, others, rfl⟩, fits, way⟩
    · rintro ⟨⟨n, known, tail, others, rfl⟩, fits, way⟩
      exact ⟨n, (here n).mpr ⟨known, fits⟩, tail, ⟨others, way⟩, rfl⟩

private theorem foldsExactly_call {fn : Builtin} {args : List Expr}
    (each : ∀ arg ∈ args, arg.FoldsExactly) : (call fn args).FoldsExactly := by
  intro n
  constructor
  · intro found
    obtain ⟨inner, inside, result⟩ := Option.bind_eq_some_iff.mp found
    obtain ⟨known, way⟩ := (values_eq_some_iff each).mp inside
    obtain ⟨applied, fits⟩ :=
      (Builtin.value_eq_some_iff (inWord_of_unboundedAll known way)).mp result
    have whole : (call fn args).unbounded = some n := by
      rw [unbounded, known, Option.bind_some, applied]
    exact ⟨whole, List.forall_mem_cons.mpr ⟨fits_of_unbounded whole fits nofun, way⟩⟩
  · rintro ⟨whole, way⟩
    obtain ⟨inner, known, applied⟩ := Option.bind_eq_some_iff.mp whole
    obtain ⟨here, inside⟩ := List.forall_mem_cons.mp way
    have result := (Builtin.value_eq_some_iff (inWord_of_unboundedAll known inside)).mpr
      ⟨applied, here.inWord whole⟩
    exact Option.bind_eq_some_iff.mpr
      ⟨inner, (values_eq_some_iff each).mpr ⟨known, inside⟩, result⟩

section Select

variable {cond : Expr} {c : Int}

private theorem constant?_select (test : cond.constant? = some c) (thn els : Expr) :
    (select cond thn els).constant? = (if c ≠ 0 then thn else els).constant? := by
  rw [constant?] at test
  rw [constant?, value, test, Option.bind_some, constant?]
  split <;> rfl

private theorem unbounded_select (known : cond.unbounded = some c) (thn els : Expr) :
    (select cond thn els).unbounded = (if c ≠ 0 then thn else els).unbounded := by
  rw [unbounded, known, Option.bind_some]
  split <;> rfl

private theorem evaluated_select (known : cond.unbounded = some c) (thn els : Expr) :
    (select cond thn els).evaluated =
      select cond thn els :: (cond.evaluated ++ (if c ≠ 0 then thn else els).evaluated) := by
  simp only [evaluated, known, apply_ite evaluated]

private theorem foldsExactly_select {thn els : Expr} (test : cond.FoldsExactly)
    (first : thn.FoldsExactly) (second : els.FoldsExactly) :
    (select cond thn els).FoldsExactly := by
  have branch (c : Int) : (if c ≠ 0 then thn else els).FoldsExactly := by
    split
    · exact first
    · exact second
  intro n
  constructor
  · intro found
    obtain ⟨c, tested, -⟩ := Option.bind_eq_some_iff.mp found
    rw [constant?_select tested] at found
    obtain ⟨known, way⟩ := (test c).mp tested
    obtain ⟨chosen, inside⟩ := (branch c n).mp found
    have whole : (select cond thn els).unbounded = some n := by
      rw [unbounded_select known, chosen]
    have fits : (select cond thn els).Fits :=
      fits_of_unbounded whole (inside.self.inWord chosen) nofun
    refine ⟨whole, ?_⟩
    rw [FitsOnTheWay, evaluated_select known]
    exact List.forall_mem_cons.mpr ⟨fits, List.forall_mem_append.mpr ⟨way, inside⟩⟩
  · rintro ⟨whole, way⟩
    obtain ⟨c, known, -⟩ := Option.bind_eq_some_iff.mp whole
    rw [unbounded_select known] at whole
    rw [FitsOnTheWay, evaluated_select known, List.forall_mem_cons,
      List.forall_mem_append] at way
    rw [constant?_select ((test c).mpr ⟨known, way.2.1⟩)]
    exact (branch c n).mpr ⟨whole, way.2.2⟩

end Select

theorem foldsExactly (e : Expr) : e.FoldsExactly := by
  induction e with
  | lit m => exact foldsExactly_lit m
  | var x => exact fun n => ⟨nofun, nofun⟩
  | neg arg ih => exact foldsExactly_neg ih
  | bin op lhs rhs ihLeft ihRight => exact foldsExactly_bin ihLeft ihRight
  | call fn args ih => exact foldsExactly_call ih
  | select cond thn els ihCond ihThn ihEls => exact foldsExactly_select ihCond ihThn ihEls

theorem inWord_of_constant? {e : Expr} {n : Int} (found : e.constant? = some n) : InWord n := by
  obtain ⟨known, way⟩ := (foldsExactly e n).mp found
  exact way.self.inWord known

theorem inWord_of_values {args : List Expr} {found : List Int}
    (known : values (fun _ => none) args = some found) : ∀ n ∈ found, InWord n := by
  obtain ⟨unbounded, way⟩ := (values_eq_some_iff fun arg _ => arg.foldsExactly).mp known
  exact inWord_of_unboundedAll unbounded way

end Expr

end Offload
