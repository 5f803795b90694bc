import Offload.Proofs.Expr.Constants

/-! Rounded division in generated code against its folding. The code calls a helper that
divides with truncation and tells the signs of the dividend apart, folding takes the floor of
the quotient. The two are compared for all dividends and divisors. -/

namespace Offload

namespace Reading

/-- A helper with two parameters, as the preprocessor takes it from its definition. -/
structure Helper where
  name : String
  first : String
  second : String
  body : List Token
  deriving DecidableEq

namespace Helper

/-- Reads a line of the form `#define name(first,second) body`. -/
def ofTokens? : List Token → Option Helper
  | .other ['#'] :: .name "define" :: .name name :: .lparen :: .name first :: .comma ::
      .name second :: .rparen :: body => some ⟨name, first, second, body⟩
  | _ => none

/-- The body with the tokens of two arguments in the places of the parameters. -/
def expand (helper : Helper) (a b : List Token) : List Token :=
  helper.body.flatMap fun token =>
    if token = .name helper.first then a
    else if token = .name helper.second then b
    else [token]

/-- The helper for rounded division, token by token. -/
def floord : Helper where
  name := "floord"
  first := "n"
  second := "d"
  body := [.lparen, .lparen, .lparen, .name "n", .rparen, .op .lt, .number 0, .rparen, .question,
    .op .sub, .lparen, .lparen, .op .sub, .lparen, .name "n", .rparen, .op .add, .lparen,
    .name "d", .rparen, .op .sub, .number 1, .rparen, .op .div, .lparen, .name "d", .rparen,
    .rparen, .colon, .lparen, .name "n", .rparen, .op .div, .lparen, .name "d", .rparen, .rparen]

private theorem ofTokens?_definition :
    ofTokens? (tokens Builtin.floorDiv.definition) = some floord := by
  decide +kernel

end Helper

end Reading

/-- What the helper computes for two numbers. -/
def expandedQuotient (n d : Int) : Int :=
  if n < 0 then -((-n + d - 1).tdiv d) else n.tdiv d

/-- Rounding the negated dividend up rounds the dividend down. -/
theorem neg_tdiv_roundedUp {n d : Int} (negative : n < 0) (positive : 0 < d) :
    -((-n + d - 1).tdiv d) = n.fdiv d := by
  have parts := Int.mul_ediv_add_emod n d
  have least := Int.emod_nonneg n (Int.ne_of_gt positive)
  have most := Int.emod_lt_of_pos n positive
  have shifted : -n + d - 1 = d - 1 - n % d + d * -(n / d) := by
    rw [Int.mul_neg]
    omega
  have quotient : (-n + d - 1) / d = -(n / d) := by
    rw [shifted, Int.add_mul_ediv_left _ _ (Int.ne_of_gt positive),
      Int.ediv_eq_zero_of_lt (by omega) (by omega), Int.zero_add]
  rw [Int.tdiv_eq_ediv_of_nonneg (by omega), quotient, Int.neg_neg,
    Int.fdiv_eq_ediv_of_nonneg _ (Int.le_of_lt positive)]

/-- A quotient of opposite signs is rounded up, so it is the floor only if it is exact. -/
theorem tdiv_eq_fdiv_iff_dvd {n d : Int} (nonneg : 0 ≤ n) (negative : d < 0) :
    n.tdiv d = n.fdiv d ↔ d ∣ n := by
  rw [Int.tdiv_eq_ediv_of_nonneg nonneg, Int.fdiv_eq_ediv]
  by_cases exact : d ∣ n
  · simp [exact]
  · have below : ¬ (0 ≤ d ∨ d ∣ n) := by omega
    rw [if_neg below]
    exact iff_of_false (by omega) exact

/-- Up to the divisor, the lowered dividend is negative and truncation rounds it up. -/
theorem tdiv_lowered_of_le {m e : Int} (small : m ≤ e) :
    (m - e - 1).tdiv e = -((e + 1 - m) / e) := by
  rw [← Int.tdiv_eq_ediv_of_nonneg (by omega), ← Int.neg_tdiv]
  congr 1
  omega

/-- For two negative numbers the helper lowers the dividend by the divisor and by one more,
which costs a round, and is lost in truncation only between one and the divisor. -/
theorem tdiv_lowered_eq_ediv_iff {m e : Int} (dividend : 0 < m) (divisor : 0 < e) :
    (m - e - 1).tdiv e = m / e ↔ 1 < m ∧ m < e := by
  rcases Int.lt_or_le e m with large | small
  · have lower : (m - e - 1) / e ≤ (m - e) / e := Int.ediv_le_ediv divisor (by omega)
    have step : (m - e) / e = m / e - 1 := by
      rw [Int.sub_ediv_of_dvd _ (Int.dvd_refl e), Int.ediv_self (Int.ne_of_gt divisor)]
    rw [Int.tdiv_eq_ediv_of_nonneg (by omega)]
    exact iff_of_false (by omega) (by omega)
  · rw [tdiv_lowered_of_le small]
    rcases Int.lt_or_le 1 m with more | one
    · rw [Int.ediv_eq_zero_of_lt (by omega) (by omega)]
      rcases Int.lt_or_le m e with less | equal
      · rw [Int.ediv_eq_zero_of_lt (by omega) less]
        exact iff_of_true rfl ⟨more, less⟩
      · obtain rfl : m = e := by omega
        rw [Int.ediv_self (by omega)]
        exact iff_of_false (by decide) (by omega)
    · obtain rfl : m = 1 := by omega
      have nonneg : 0 ≤ 1 / e := Int.ediv_nonneg (by decide) (by omega)
      rw [Int.add_sub_cancel, Int.ediv_self (by omega)]
      exact iff_of_false (by omega) (by omega)

/-- The helper rounds down exactly for positive divisors, for exact quotients of a dividend
that is not negative, and for a negative dividend below -1 that the divisor exceeds. -/
theorem expandedQuotient_eq_fdiv_iff {n d : Int} (nonzero : d ≠ 0) :
    expandedQuotient n d = n.fdiv d ↔ 0 < d ∨ (0 ≤ n ∧ d ∣ n) ∨ (d < n ∧ n < -1) := by
  unfold expandedQuotient
  rcases Int.lt_or_lt_of_ne nonzero with negative | positive
  · split
    · rename_i below
      have flipped : -((-n + d - 1).tdiv d) = (-n - -d - 1).tdiv (-d) := by
        rw [Int.tdiv_neg]
        congr 2
        omega
      have floor : n.fdiv d = -n / -d := by
        rw [← Int.neg_fdiv_neg, Int.fdiv_eq_ediv_of_nonneg _ (by omega)]
      rw [flipped, floor, tdiv_lowered_eq_ediv_iff (by omega) (by omega)]
      omega
    · rename_i nonneg
      rw [tdiv_eq_fdiv_iff_dvd (by omega) negative]
      omega
  · refine iff_of_true ?_ (.inl positive)
    split
    · rename_i below
      exact neg_tdiv_roundedUp below positive
    · rename_i nonneg
      exact (Int.fdiv_eq_tdiv_of_nonneg (by omega) (Int.le_of_lt positive)).symm

namespace Expr

open Reading

/-- The tree of a call of the helper, with the arguments in the places of the parameters. -/
def floorExpansion (a b : Expr) : Expr :=
  .select (.bin .lt a (.lit 0))
    (.neg (.bin .div (.bin .sub (.bin .add (.neg a) b) (.lit 1)) b))
    (.bin .div a b)

/-- An operand stands under any operator, and alone. -/
private theorem derives_operand (op : Operator) {ts : List Token} {e : Expr}
    (operand : Derives unary ts e) : Derives (rank op) ts e :=
  operand.weaken (Nat.le_of_lt (rank_lt_unary op)) (Nat.le_refl unary)

private theorem derives_alone {ts : List Token} {e : Expr} (operand : Derives unary ts e) :
    Derives 1 ts e :=
  operand.weaken (Nat.le_of_lt one_lt_unary) (Nat.le_refl unary)

private theorem derives_bin (op : Operator) {ts us : List Token} {l r : Expr}
    (left : Derives (rank op) ts l) (right : Derives unary us r) :
    Derives (rank op) (ts ++ .op op :: us) (.bin op l r) :=
  .binary left (right.weaken (rank_lt_unary op) (Nat.le_refl unary))

private theorem derives_whole (op : Operator) {ts : List Token} {e : Expr}
    (chain : Derives (rank op) ts e) : Derives 1 ts e :=
  chain.weaken (one_le_rank op) (Nat.le_of_lt (rank_lt_unary op))

/-- The helper keeps its arguments together: whatever they are, the expansion reads as the
tree with the arguments as operands. -/
theorem derives_expand {ts us : List Token} {a b : Expr} (first : Derives 1 ts a)
    (second : Derives 1 us b) : Derives 1 (Helper.floord.expand ts us) (floorExpansion a b) := by
  have dividend : Derives unary (.lparen :: (ts ++ [.rparen])) a := .group first
  have divisor : Derives unary (.lparen :: (us ++ [.rparen])) b := .group second
  have test := derives_bin .lt (derives_operand .lt dividend) (.constant 0)
  have sum := derives_bin .add (derives_operand .add (.negation dividend)) divisor
  have shifted := derives_bin .sub sum (.constant 1)
  have lowered := derives_bin .div
    (derives_operand .div (.group (derives_whole .sub shifted))) divisor
  have plain := derives_bin .div (derives_operand .div dividend) divisor
  have whole := Derives.conditional
    (derives_alone (.group (derives_whole .lt test)))
    (derives_alone (.negation (.group (derives_whole .div lowered))))
    (derives_whole .div plain)
  simpa [Helper.expand, Helper.floord, floorExpansion] using derives_alone whole

section Values

variable {a b : Expr} {n d : Int}

private theorem unbounded_floorExpansion (dividend : a.unbounded = some n)
    (divisor : b.unbounded = some d) :
    (floorExpansion a b).unbounded =
      if d = 0 then none else some (expandedQuotient n d) := by
  unfold expandedQuotient
  by_cases zero : d = 0 <;> by_cases negative : n < 0 <;>
    simp [floorExpansion, unbounded, dividend, divisor, Operator.apply, truth, zero, negative]

/-- Where no step of the helper leaves the range, folding gives the value of the helper
exactly for the numbers at which the helper rounds down. -/
theorem constant?_eq_expansion_iff (dividend : a.constant? = some n)
    (divisor : b.constant? = some d) (fits : (floorExpansion a b).FitsOnTheWay) :
    ∃ m, (floorExpansion a b).unbounded = some m ∧
      ((call .floorDiv [a, b]).constant? = some m ↔
        0 < d ∨ (0 ≤ n ∧ d ∣ n) ∨ (d < n ∧ n < -1)) := by
  obtain ⟨⟨m, value, range⟩, -⟩ := fits.self
  refine ⟨m, value, ?_⟩
  rw [unbounded_floorExpansion ((foldsExactly a n).mp dividend).1
    ((foldsExactly b d).mp divisor).1] at value
  split at value
  · cases value
  · rename_i nonzero
    have same : expandedQuotient n d = m := Option.some.inj value
    have folded : (call .floorDiv [a, b]).constant? = floorQuotient n d := by
      rw [constant?] at dividend divisor
      simp [constant?, Expr.value, values, dividend, divisor, Builtin.value]
    rw [folded, floorQuotient_eq_some_iff (inWord_of_constant? dividend)
      (inWord_of_constant? divisor), ← expandedQuotient_eq_fdiv_iff nonzero, same]
    constructor
    · exact fun known => known.2.1.symm
    · exact fun rounds => ⟨nonzero, rounds.symm, range⟩

end Values

/-- The generated definition of the helper, expanded with any two arguments, reads as one
tree. Where the arguments fold to numbers and no step of that tree leaves the range, folding
the call gives the value of the tree exactly if the divisor is positive, or the quotient exact
and the dividend not negative, or the dividend between the divisor and `-1`. -/
theorem floord_agrees_iff {a b : Expr} {n d : Int} (dividend : a.constant? = some n)
    (divisor : b.constant? = some d) (fits : (floorExpansion a b).FitsOnTheWay) :
    ∃ helper m, Helper.ofTokens? (Reading.tokens Builtin.floorDiv.definition) = some helper ∧
      helper.name = Builtin.floorDiv.name ∧
      (∀ ts us, Derives 1 ts a → Derives 1 us b →
        Derives 1 (helper.expand ts us) (floorExpansion a b)) ∧
      (floorExpansion a b).unbounded = some m ∧
      ((call .floorDiv [a, b]).constant? = some m ↔
        0 < d ∨ (0 ≤ n ∧ d ∣ n) ∨ (d < n ∧ n < -1)) := by
  obtain ⟨m, value, agrees⟩ := constant?_eq_expansion_iff dividend divisor fits
  exact ⟨.floord, m, Helper.ofTokens?_definition, rfl, fun _ _ => derives_expand, value, agrees⟩

/-- Minus seven divided by two: the text of the helper, its value and the folded one. -/
theorem floord_agrees_at_minus_seven :
    ∃ helper, Helper.ofTokens? (Reading.tokens Builtin.floorDiv.definition) = some helper ∧
      Derives 1 (helper.expand [.op .sub, .number 7] [.number 2])
        (floorExpansion (neg (lit 7)) (lit 2)) ∧
      (floorExpansion (neg (lit 7)) (lit 2)).unbounded = some (-4) ∧
      (call .floorDiv [neg (lit 7), lit 2]).constant? = some (-4) := by
  have dividend : Derives 1 [.op .sub, .number 7] (neg (lit 7)) :=
    derives_alone (.negation (.constant 7))
  have divisor : Derives 1 [.number 2] (lit 2) := derives_alone (.constant 2)
  have value : (floorExpansion (neg (lit 7)) (lit 2)).constant? = some (-4) := by decide
  obtain ⟨known, fits⟩ := (foldsExactly _ _).mp value
  have first : (neg (lit 7)).constant? = some (-7) := rfl
  have second : (lit 2).constant? = some 2 := rfl
  obtain ⟨helper, m, defined, -, reads, same, agrees⟩ := floord_agrees_iff first second fits
  obtain rfl : -4 = m := Option.some.inj (known.symm.trans same)
  exact ⟨helper, defined, reads _ _ dividend divisor, known, agrees.mpr (.inl (by decide))⟩

/-- Seven divided by minus two: the helper gives `-3`, folding gives `-4`. -/
theorem floord_differs_for_negative_divisor :
    ¬ ∀ n d m : Int, InWord n → InWord d → d ≠ 0 →
      (floorExpansion (lit n) (lit d)).FitsOnTheWay →
      (floorExpansion (lit n) (lit d)).unbounded = some m →
      (call .floorDiv [lit n, lit d]).constant? = some m := by
  intro agree
  have value : (floorExpansion (lit 7) (lit (-2))).constant? = some (-3) := by decide
  obtain ⟨known, fits⟩ := (foldsExactly _ _).mp value
  have folded := agree 7 (-2) (-3) (by decide) (by decide) (by decide) fits known
  have lower : (call .floorDiv [lit 7, lit (-2)]).constant? = some (-4) := by decide
  rw [lower] at folded
  exact absurd (Option.some.inj folded) (by decide)

end Expr

end Offload
