import Offload.Proofs.Expr.Reading

/-! The text of an expression is read in one way, and the tree it is read as
differs from the expression in few places: negative literals, calls with many
arguments, and right operands that continue a chain of an associative operator. -/

namespace Offload.Expr

open Reading

/-- Calls have two arguments at least, so that none is printed as its argument. -/
def ManyArguments : Expr → Prop
  | call _ args => 2 ≤ args.length
  | _ => True

instance : DecidablePred ManyArguments
  | call .. => inferInstanceAs (Decidable (_ ≤ _))
  | lit _ | var _ | neg _ | bin .. | select .. => inferInstanceAs (Decidable True)

mutual

/-- The expression with a sign for each negative literal, with nested calls of two
arguments, and with each right operand `r` of `+`, `*`, `&&` or `||` that has the
same operator at its top regrouped: `l op` moves to the leftmost leaf of the left
spine of operators of that rank in `r`. -/
def regrouped : Expr → Expr
  | lit n => if n < 0 then neg (lit n.natAbs) else lit n
  | var x => var x
  | neg arg => neg arg.regrouped
  | bin op lhs rhs =>
    if rhs.operator? = some op ∧ op ∈ [.add, .mul, .and, .or] then
      plant (rank op) (bin op lhs.regrouped) rhs.regrouped
    else bin op lhs.regrouped rhs.regrouped
  | call fn args => nest fn (regroupedAll args)
  | select cond thn els => select cond.regrouped thn.regrouped els.regrouped

def regroupedAll : List Expr → List Expr
  | [] => []
  | e :: rest => e.regrouped :: regroupedAll rest

end

private theorem regroupedAll_eq_map (args : List Expr) :
    regroupedAll args = args.map regrouped := by
  induction args with
  | nil => rfl
  | cons first rest ih => simp [regroupedAll, ih]

private theorem exists_cons_cons {args : List Expr} (many : 2 ≤ args.length) :
    ∃ first second rest, args = first :: second :: rest := by
  match args, many with
  | first :: second :: rest, _ => exact ⟨first, second, rest, rfl⟩

private theorem topRank_of_bare {arg : Expr} (bare : ¬ arg.guardedUnderMinus = true) :
    arg.topRank = unary := by
  cases arg with
  | bin op lhs rhs => simp [guardedUnderMinus] at bare
  | _ => rfl

/-- The tree that is read has the operator of the expression, or one of its rank. -/
theorem topRank_reading {e : Expr} (many : e.Everywhere ManyArguments) :
    e.reading.topRank = e.topRank := by
  induction e with
  | lit n =>
    simp only [reading]
    split <;> rfl
  | var x => rfl
  | neg arg ih =>
    have inner := ih (everywhere_neg.mp many).2
    simp only [reading]
    split
    · rfl
    · rename_i bare
      have atom : arg.topRank = unary := topRank_of_bare bare
      rw [plant_of_ne (inner.trans atom ▸ Nat.ne_of_gt six_lt_unary)]
      rfl
  | bin op lhs rhs => exact topRank_reading_bin op lhs rhs
  | call fn args ih =>
    obtain ⟨first, second, rest, rfl⟩ := exists_cons_cons many.self
    simp only [reading, readingAll_eq_map, List.map_cons]
    exact topRank_nest fn first.reading second.reading (rest.map reading)
  | select cond thn els => rfl

private theorem nestTokens_head (name : String) (first second : List Token)
    (rest : List (List Token)) :
    (nestTokens name (first :: second :: rest)).head? = some (.name name) := by
  induction rest generalizing first second with
  | nil => rfl
  | cons third rest ih => exact ih _ third

private theorem spaced_of_many {e : Expr} (many : e.Everywhere ManyArguments) : e.Spaced := by
  cases e with
  | neg arg =>
    cases guarded : arg.guardedUnderMinus with
    | true => exact .inl guarded
    | false =>
      right
      cases arg with
      | lit n =>
        have nonnegative : ¬ n < 0 := by simpa [guardedUnderMinus] using guarded
        simp [tokens, nonnegative]
      | var x => simp [tokens]
      | neg inner => simp [guardedUnderMinus] at guarded
      | bin op lhs rhs => simp [guardedUnderMinus] at guarded
      | call fn args =>
        obtain ⟨first, second, rest, rfl⟩ := exists_cons_cons (everywhere_neg.mp many).2.self
        simp [tokens, tokensAll_eq_map, nestTokens_head]
      | select cond thn els => simp [tokens]
  | call fn args =>
    obtain ⟨first, second, rest, rfl⟩ := exists_cons_cons many.self
    exact List.cons_ne_nil _ _
  | _ => trivial

private theorem rank_le_of_bare_left {op : Operator} {e : Expr}
    (bare : e.wrapped op .left = false) : rank op ≤ e.topRank := by
  cases e with
  | bin inner lhs rhs =>
    have tighter : rank op ≤ rank inner := by
      simpa [wrapped, operator?, Operator.needsParens_left] using bare
    exact tighter
  | _ => exact Nat.le_of_lt (rank_lt_unary op)

/-- The right operands that are regrouped stand bare. -/
private theorem bare_of_same {op : Operator} {e : Expr}
    (same : e.operator? = some op ∧ op ∈ [.add, .mul, .and, .or]) :
    e.wrapped op .right = false := by
  have associates : op.associatesWith op = true := by
    rw [Operator.associatesWith_self]
    exact decide_eq_true same.2
  simp [wrapped, same.1, Operator.needsParens_right, associates]

/-- The other bare right operands bind tighter. -/
private theorem rank_lt_of_bare_right {op : Operator} {e : Expr}
    (bare : e.wrapped op .right = false)
    (different : ¬(e.operator? = some op ∧ op ∈ [.add, .mul, .and, .or])) :
    rank op < e.topRank := by
  cases e with
  | bin inner lhs rhs =>
    have chains : rank inner ≤ rank op → op.associatesWith inner = true := by
      simpa [wrapped, operator?, Operator.needsParens_right] using bare
    apply Nat.lt_of_not_le
    intro weaker
    have associates := chains weaker
    obtain rfl := Operator.eq_of_associatesWith associates
    rw [Operator.associatesWith_self] at associates
    exact different ⟨rfl, of_decide_eq_true associates⟩
  | _ => exact rank_lt_unary op

private theorem rank_le_of_bare_right {op : Operator} {e : Expr}
    (bare : e.wrapped op .right = false) : rank op ≤ e.topRank := by
  by_cases same : e.operator? = some op ∧ op ∈ [.add, .mul, .and, .or]
  · simp [topRank, same.1]
  · exact Nat.le_of_lt (rank_lt_of_bare_right bare same)

private theorem whole_of_many {e : Expr} (many : e.Everywhere ManyArguments) : e.Whole := by
  cases e with
  | neg arg =>
    cases guarded : arg.guardedUnderMinus with
    | true => exact .inl guarded
    | false =>
      right
      rw [topRank_reading (everywhere_neg.mp many).2, topRank_of_bare (by simp [guarded])]
      exact Nat.le_of_lt six_lt_unary
  | bin op lhs rhs =>
    obtain ⟨_, left, right⟩ := everywhere_bin.mp many
    refine ⟨?_, ?_⟩
    · cases wrap : lhs.wrapped op .left with
      | true => exact .inl rfl
      | false => exact .inr (topRank_reading left ▸ rank_le_of_bare_left wrap)
    · cases wrap : rhs.wrapped op .right with
      | true => exact .inl rfl
      | false => exact .inr (topRank_reading right ▸ rank_le_of_bare_right wrap)
  | _ => trivial

private theorem reading_eq_regrouped {e : Expr} (many : e.Everywhere ManyArguments) :
    e.reading = e.regrouped := by
  induction e with
  | lit n => rfl
  | var x => rfl
  | neg arg ih =>
    have inner := (everywhere_neg.mp many).2
    simp only [reading, regrouped, ← ih inner]
    split
    · rfl
    · rename_i bare
      have atom : arg.topRank = unary := topRank_of_bare bare
      rw [plant_of_ne ((topRank_reading inner).trans atom ▸ Nat.ne_of_gt six_lt_unary)]
  | bin op lhs rhs ihLeft ihRight =>
    obtain ⟨_, left, right⟩ := everywhere_bin.mp many
    simp only [reading, regrouped, ← ihLeft left, ← ihRight right]
    by_cases same : rhs.operator? = some op ∧ op ∈ [.add, .mul, .and, .or]
    · rw [if_pos same, bare_of_same same]
      rfl
    · rw [if_neg same]
      cases wrap : rhs.wrapped op .right with
      | true => rfl
      | false =>
        have tighter := rank_lt_of_bare_right wrap same
        exact plant_of_ne (by rw [topRank_reading right]; omega)
  | call fn args ih =>
    obtain ⟨_, inner⟩ := everywhere_call.mp many
    have same : args.map reading = args.map regrouped :=
      List.map_congr_left fun arg member => ih arg member (inner arg member)
    simp only [reading, regrouped, readingAll_eq_map, regroupedAll_eq_map, same]
  | select cond thn els ihCond ihThn ihEls =>
    obtain ⟨_, first, second, third⟩ := everywhere_select.mp many
    simp only [reading, regrouped, ihCond first, ihThn second, ihEls third]

/-- A printed expression is an expression of C in exactly one way, and its tree is
the regrouped expression. -/
theorem reads_text_iff_regrouped {e : Expr} (named : e.Everywhere Named)
    (many : e.Everywhere ManyArguments) (t : Expr) : Reads e.text t ↔ t = e.regrouped := by
  rw [← reading_eq_regrouped many]
  exact reads_iff named (many.imp fun _ => spaced_of_many) (many.imp fun _ => whole_of_many) t

/-- Signs, a chain that is regrouped at two places, and nested calls. -/
theorem reads_regrouped_sum :
    let e := bin .add (var "a") (bin .add (bin .sub (lit (-5)) (neg (var "x")))
      (call .min [var "b", lit 3, var "c"]))
    e.text = "a + -5 - -x + min(min(b, 3), c)" ∧
      ∀ t, Reads e.text t ↔
        t = bin .add (bin .sub (bin .add (var "a") (neg (lit 5))) (neg (var "x")))
          (call .min [call .min [var "b", lit 3], var "c"]) := by
  intro e
  refine ⟨by decide, ?_⟩
  intro t
  exact reads_text_iff_regrouped (by decide) (by decide) t

end Offload.Expr
