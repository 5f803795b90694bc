import Offload.Proofs.Expr.Tokens

namespace Offload

open Reading

namespace Operator

theorem needsParens_left (outer inner : Operator) :
    outer.needsParens inner .left = decide (rank inner < rank outer) := by
  cases outer <;> cases inner <;> rfl

theorem needsParens_right (outer inner : Operator) :
    outer.needsParens inner .right =
      (decide (rank inner ≤ rank outer) && !outer.associatesWith inner) := by
  cases outer <;> cases inner <;> rfl

theorem eq_of_associatesWith {outer inner : Operator}
    (associates : outer.associatesWith inner = true) : inner = outer := by
  cases outer <;> cases inner <;> simp [associatesWith] at associates <;> rfl

theorem associatesWith_self (op : Operator) :
    op.associatesWith op = decide (op ∈ [add, mul, and, or]) := by
  cases op <;> rfl

end Operator

namespace Expr

/-- Puts `f` around the leftmost leaf of the left spine of operators of rank `k`. -/
def plant (k : Nat) (f : Expr → Expr) : Expr → Expr
  | bin op lhs rhs => if rank op = k then bin op (plant k f lhs) rhs else f (bin op lhs rhs)
  | e => f e

/-- A call with many arguments as nested calls with two, from the left. -/
def nest (fn : Builtin) : List Expr → Expr
  | [] => call fn []
  | first :: rest => rest.foldl (fun inner arg => call fn [inner, arg]) first

mutual

/-- The tree that the tokens are read as. A bare right operand falls apart at its
left spine where its rank is that of the operator; so does a product under a sign. -/
def reading : Expr → Expr
  | lit n => if n < 0 then neg (lit n.natAbs) else lit n
  | var x => var x
  | neg arg => if arg.guardedUnderMinus then neg arg.reading else plant 6 neg arg.reading
  | bin op lhs rhs =>
    if rhs.wrapped op .right then bin op lhs.reading rhs.reading
    else plant (rank op) (bin op lhs.reading) rhs.reading
  | call fn args => nest fn (readingAll args)
  | select cond thn els => select cond.reading thn.reading els.reading

def readingAll : List Expr → List Expr
  | [] => []
  | e :: rest => e.reading :: readingAll rest

end

theorem readingAll_eq_map (args : List Expr) : readingAll args = args.map reading := by
  induction args with
  | nil => rfl
  | cons first rest ih => simp [readingAll, ih]

/-- The rank of the operator at the top of a tree. -/
def topRank (e : Expr) : Nat := e.operator?.elim unary rank

/-- Whether the bare operands of an expression are read as operands; a bare operand
of weaker rank would be torn apart. -/
def Whole : Expr → Prop
  | neg arg => arg.guardedUnderMinus = true ∨ 6 ≤ arg.reading.topRank
  | bin op lhs rhs =>
    (lhs.wrapped op .left = true ∨ rank op ≤ lhs.reading.topRank) ∧
      (rhs.wrapped op .right = true ∨ rank op ≤ rhs.reading.topRank)
  | _ => True

instance : DecidablePred Whole
  | neg _ => inferInstanceAs (Decidable (_ ∨ _))
  | bin .. => inferInstanceAs (Decidable ((_ ∨ _) ∧ (_ ∨ _)))
  | lit _ | var _ | call .. | select .. => inferInstanceAs (Decidable True)

section Plant

variable {k : Nat} {f : Expr → Expr}

theorem plant_of_ne {e : Expr} (other : e.topRank ≠ k) : plant k f e = f e := by
  cases e with
  | bin op lhs rhs =>
    have different : rank op ≠ k := other
    simp [plant, different]
  | _ => rfl

theorem plant_bin {op : Operator} (same : rank op = k) (lhs rhs : Expr) :
    plant k f (bin op lhs rhs) = bin op (plant k f lhs) rhs := by
  simp [plant, same]

theorem plant_id (e : Expr) : plant k id e = e := by
  induction e with
  | bin op lhs rhs ihLeft _ =>
    simp only [plant, ihLeft]
    split <;> rfl
  | _ => rfl

/-- What is planted into a spine after another operand stands to its left. -/
theorem plant_plant {op : Operator} (same : rank op = k) (lhs e : Expr) :
    plant k f (plant k (bin op lhs) e) = plant k (bin op (plant k f lhs)) e := by
  induction e with
  | bin inner l r ihLeft _ =>
    by_cases equal : rank inner = k
    · rw [plant_bin equal, plant_bin equal, plant_bin equal, ihLeft]
    · have other : (bin inner l r).topRank ≠ k := equal
      rw [plant_of_ne other, plant_of_ne other, plant_bin same]
  | _ => exact plant_bin same _ _

private theorem plant_neg (e : Expr) (f : Expr → Expr) :
    plant k f (plant k neg e) = plant k (f ∘ neg) e := by
  have leaf (e : Expr) : plant k f (neg e) = f (neg e) := rfl
  induction e with
  | bin inner l r ihLeft _ =>
    by_cases equal : rank inner = k
    · rw [plant_bin equal, plant_bin equal, plant_bin equal, ihLeft]
    · have other : (bin inner l r).topRank ≠ k := equal
      rw [plant_of_ne other, plant_of_ne other, leaf]
      rfl
  | _ => rfl

private theorem topRank_plant_bin {op : Operator} (lhs e : Expr) :
    (plant (rank op) (bin op lhs) e).topRank = rank op := by
  cases e with
  | bin inner l r =>
    by_cases equal : rank inner = rank op
    · rw [plant_bin equal]
      exact equal
    · have other : (bin inner l r).topRank ≠ rank op := equal
      rw [plant_of_ne other]
      rfl
  | _ => rfl

end Plant

theorem topRank_reading_bin (op : Operator) (lhs rhs : Expr) :
    (bin op lhs rhs).reading.topRank = rank op := by
  simp only [reading]
  split
  · rfl
  · exact topRank_plant_bin _ _

private theorem one_le_topRank (e : Expr) : 1 ≤ e.topRank := by
  cases e with
  | bin op lhs rhs => exact one_le_rank op
  | _ => exact Nat.le_of_lt one_lt_unary

private theorem topRank_plant_neg (e : Expr) :
    (plant 6 neg e).topRank = 6 ∨ (plant 6 neg e).topRank = unary := by
  by_cases product : e.topRank = 6
  · left
    cases e with
    | bin op lhs rhs =>
      have same : rank op = 6 := product
      rw [plant_bin same]
      exact same
    | _ => cases product
  · right
    rw [plant_of_ne product]
    rfl

/-- An operand that is wrapped on the left has an operator of weaker rank. -/
theorem topRank_of_wrapped_left {op : Operator} {e : Expr} (wrap : e.wrapped op .left = true) :
    e.reading.topRank < rank op := by
  cases e with
  | bin inner lhs rhs =>
    rw [topRank_reading_bin]
    simpa [wrapped, operator?, Operator.needsParens_left] using wrap
  | _ => simp [wrapped, operator?] at wrap

theorem topRank_nest (fn : Builtin) (first second : Expr) (rest : List Expr) :
    (nest fn (first :: second :: rest)).topRank = unary := by
  induction rest generalizing first second with
  | nil => rfl
  | cons third rest ih => exact ih (call fn [first, second]) third

/-- Tokens that make an expression of rank `k` when they stand before an operand. -/
def Opens (k : Nat) (before : List Token) (f : Expr → Expr) : Prop :=
  ∀ ts t, Derives (k + 1) ts t → Derives k (before ++ ts) (f t)

private theorem opens_id {k : Nat} (low : k < unary) : Opens k [] id :=
  fun _ _ derivation => .tighter low derivation

private theorem opens_binary {op : Operator} {before : List Token} {lhs : Expr}
    (left : Derives (rank op) before lhs) : Opens (rank op) (before ++ [.op op]) (bin op lhs) := by
  intro ts t right
  simpa using Derives.binary left right

private theorem opens_sign {before : List Token} {f : Expr → Expr} (opens : Opens 6 before f) :
    Opens 6 (before ++ [.op .sub]) (f ∘ neg) := by
  intro ts t operand
  simpa using opens _ _ (Derives.negation operand)

theorem Opens.operand {k : Nat} {before ts : List Token} {f : Expr → Expr} {t : Expr}
    (opens : Opens k before f) (low : k < unary) (operand : Derives unary ts t)
    (other : t.topRank ≠ k) : Derives k (before ++ ts) (plant k f t) := by
  rw [plant_of_ne other]
  exact opens ts t (operand.weaken low (Nat.le_refl unary))

/-- The tokens of the expression are read as planned: put after tokens that open
an expression, they carry those to the leftmost leaf. -/
def Planted (e : Expr) : Prop :=
  ∀ (k : Nat) (before : List Token) (f : Expr → Expr), k < unary → k ≤ e.reading.topRank →
    Opens k before f → Derives k (before ++ e.tokens) (plant k f e.reading)

theorem Planted.whole {e : Expr} (planted : Planted e) : Derives 1 e.tokens e.reading := by
  have derivation := planted 1 [] id one_lt_unary (one_le_topRank _) (opens_id one_lt_unary)
  rwa [plant_id] at derivation

theorem planted_of_operand {e : Expr} (operand : Derives unary e.tokens e.reading)
    (top : e.reading.topRank = unary) : Planted e :=
  fun _ _ _ low _ opens => opens.operand low operand (top ▸ Nat.ne_of_gt low)

private theorem planted_lit (n : Int) : Planted (lit n) := by
  by_cases negative : n < 0
  · have operand : Derives unary [.op .sub, .number n.natAbs] (neg (lit n.natAbs)) :=
      .negation (.constant n.natAbs)
    apply planted_of_operand <;> simp only [tokens, reading, negative, ↓reduceIte]
    · exact operand
    · rfl
  · have same : (n.natAbs : Int) = n := Int.natAbs_of_nonneg (Int.not_lt.mp negative)
    have operand : Derives unary [.number n.natAbs] (lit n) := same ▸ .constant n.natAbs
    apply planted_of_operand <;> simp only [tokens, reading, negative, ↓reduceIte]
    · exact operand
    · rfl

private theorem planted_neg {arg : Expr} (planted : Planted arg) (whole : (neg arg).Whole) :
    Planted (neg arg) := by
  cases guarded : arg.guardedUnderMinus with
  | true =>
    apply planted_of_operand <;> simp only [tokens, reading, guarded, grouped, ↓reduceIte]
    · exact .negation (.group planted.whole)
    · rfl
  | false =>
    have product : 6 ≤ arg.reading.topRank := whole.resolve_left (by simp [guarded])
    intro k before f low _ opens
    simp only [tokens, reading, guarded, grouped, Bool.false_eq_true, ↓reduceIte]
    by_cases sixth : k = 6
    · subst k
      rw [plant_neg]
      simpa using planted 6 _ _ low product (opens_sign opens)
    · have signed : Derives 6 (.op .sub :: arg.tokens) (plant 6 neg arg.reading) :=
        planted 6 _ _ six_lt_unary product (opens_sign (opens_id six_lt_unary))
      have bound : k < 6 := by
        have : k < 7 := low
        omega
      have other : (plant 6 neg arg.reading).topRank ≠ k := by
        rcases topRank_plant_neg arg.reading with six | seven
        · omega
        · exact seven ▸ Nat.ne_of_gt low
      rw [plant_of_ne other]
      exact opens _ _ (signed.weaken bound (Nat.le_of_lt six_lt_unary))

section Binary

variable {op : Operator} {lhs rhs : Expr}

/-- The left operand, behind whatever opens the rank of the operator. -/
private theorem planted_left (planted : Planted lhs) (whole : (bin op lhs rhs).Whole)
    {before : List Token} {f : Expr → Expr} (opens : Opens (rank op) before f) :
    Derives (rank op) (before ++ grouped (lhs.wrapped op .left) lhs.tokens)
      (plant (rank op) f lhs.reading) := by
  have below := rank_lt_unary op
  cases wrap : lhs.wrapped op .left with
  | true =>
    exact opens.operand below (.group planted.whole) (Nat.ne_of_lt (topRank_of_wrapped_left wrap))
  | false => exact planted _ _ _ below (whole.1.resolve_left (by simp [wrap])) opens

/-- Both operands, behind whatever opens the rank of the operator. -/
private theorem planted_operands (left : Planted lhs) (right : Planted rhs)
    (whole : (bin op lhs rhs).Whole) {before : List Token} {f : Expr → Expr}
    (opens : Opens (rank op) before f) :
    Derives (rank op) (before ++ (bin op lhs rhs).tokens)
      (plant (rank op) f (bin op lhs rhs).reading) := by
  have below := rank_lt_unary op
  have start := planted_left left whole opens
  cases wrap : rhs.wrapped op .right with
  | true =>
    have operand : Derives unary (grouped true rhs.tokens) rhs.reading := .group right.whole
    simp only [tokens, reading, wrap, ↓reduceIte, plant_bin]
    simpa using Derives.binary start (operand.weaken below (Nat.le_refl unary))
  | false =>
    have bare : rank op ≤ rhs.reading.topRank := whole.2.resolve_left (by simp [wrap])
    simp only [tokens, reading, wrap, Bool.false_eq_true, ↓reduceIte, plant_plant]
    simpa [grouped] using right _ _ _ below bare (opens_binary start)

private theorem planted_bin (left : Planted lhs) (right : Planted rhs)
    (whole : (bin op lhs rhs).Whole) :
    Planted (bin op lhs rhs) := by
  intro k before f low fits opens
  have below := rank_lt_unary op
  have top := topRank_reading_bin op lhs rhs
  by_cases same : k = rank op
  · subst k
    exact planted_operands left right whole opens
  · have alone := planted_operands left right whole (opens_id below)
    rw [plant_id] at alone
    rw [plant_of_ne (by omega)]
    exact opens _ _ (alone.weaken (by omega) (Nat.le_of_lt below))

end Binary

private theorem derives_nest (fn : Builtin) {inner : List Token} {t : Expr}
    (first : Derives 1 inner t) {args : List Expr} (nonempty : args ≠ [])
    (others : ∀ arg ∈ args, Derives 1 arg.tokens arg.reading) :
    Derives unary (nestTokens fn.name (inner :: args.map tokens))
      (nest fn (t :: args.map reading)) := by
  induction args generalizing inner t with
  | nil => exact absurd rfl nonempty
  | cons arg rest ih =>
    have known : function? fn.name = some fn := by cases fn <;> rfl
    have called := Derives.call known first (others arg (by simp))
    cases rest with
    | nil => exact called
    | cons next rest =>
      apply ih (called.weaken (Nat.le_of_lt one_lt_unary) (Nat.le_refl unary)) (by simp)
      intro other member
      exact others other (by simp [member])

private theorem planted_call {fn : Builtin} {args : List Expr} (nonempty : args ≠ [])
    (planted : ∀ arg ∈ args, Planted arg) : Planted (call fn args) := by
  cases args with
  | nil => exact absurd rfl nonempty
  | cons first rest =>
    cases rest with
    | nil => exact planted first (by simp)
    | cons second rest =>
      apply planted_of_operand <;>
        simp only [tokens, reading, tokensAll_eq_map, readingAll_eq_map]
      · exact derives_nest fn (planted first (by simp)).whole (List.cons_ne_nil second rest)
          fun arg member => (planted arg (by simp [member])).whole
      · exact topRank_nest fn first.reading second.reading (rest.map reading)

private theorem planted_select {cond thn els : Expr} (first : Planted cond) (second : Planted thn)
    (third : Planted els) : Planted (select cond thn els) := by
  apply planted_of_operand
  · exact .conditional first.whole second.whole third.whole
  · rfl

theorem planted {e : Expr} (named : e.Everywhere Named) (spaced : e.Everywhere Spaced)
    (whole : e.Everywhere Whole) : Planted e := by
  induction e with
  | lit n => exact planted_lit n
  | var x =>
    have ⟨_, plain⟩ : IsIdentifier x ∧ function? x = none := named.self
    apply planted_of_operand
    · exact .name plain
    · rfl
  | neg arg ih =>
    obtain ⟨here, whole⟩ := everywhere_neg.mp whole
    exact planted_neg (ih (everywhere_neg.mp named).2 (everywhere_neg.mp spaced).2 whole) here
  | bin op lhs rhs ihLeft ihRight =>
    obtain ⟨_, namedLeft, namedRight⟩ := everywhere_bin.mp named
    obtain ⟨_, spacedLeft, spacedRight⟩ := everywhere_bin.mp spaced
    obtain ⟨here, wholeLeft, wholeRight⟩ := everywhere_bin.mp whole
    exact planted_bin (ihLeft namedLeft spacedLeft wholeLeft)
      (ihRight namedRight spacedRight wholeRight) here
  | call fn args ih =>
    obtain ⟨_, named⟩ := everywhere_call.mp named
    obtain ⟨nonempty, spaced⟩ := everywhere_call.mp spaced
    obtain ⟨_, whole⟩ := everywhere_call.mp whole
    exact planted_call nonempty fun arg member =>
      ih arg member (named arg member) (spaced arg member) (whole arg member)
  | select cond thn els ihCond ihThn ihEls =>
    obtain ⟨_, namedCond, namedThn, namedEls⟩ := everywhere_select.mp named
    obtain ⟨_, spacedCond, spacedThn, spacedEls⟩ := everywhere_select.mp spaced
    obtain ⟨_, wholeCond, wholeThn, wholeEls⟩ := everywhere_select.mp whole
    exact planted_select (ihCond namedCond spacedCond wholeCond)
      (ihThn namedThn spacedThn wholeThn) (ihEls namedEls spacedEls wholeEls)

/-- A tree that the tokens are derived as is read from the text. -/
theorem reads_of_derives {e t : Expr} (named : e.Everywhere Named) (spaced : e.Everywhere Spaced)
    (derivation : Derives 1 e.tokens t) : Reads e.text t := by
  unfold Reads
  rwa [(scans_text named spaced).tokens]

/-- A printed expression has one reading. -/
theorem reads_iff {e : Expr} (named : e.Everywhere Named) (spaced : e.Everywhere Spaced)
    (whole : e.Everywhere Whole) (t : Expr) : Reads e.text t ↔ t = e.reading := by
  have reads : Reads e.text e.reading :=
    reads_of_derives named spaced (planted named spaced whole).whole
  constructor
  · intro other
    exact other.unique reads
  · rintro rfl
    exact reads

end Expr

end Offload
