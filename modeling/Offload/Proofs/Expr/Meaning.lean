import Offload.Proofs.Expr.Exact

/-! What a printed expression means. Its text has the value of the expression unless
a bare operand is torn apart or its operators do not regroup. -/

namespace Offload.Expr

open Reading

/-- The value of a text: that of the tree it is read as. -/
def Means (names : String → Int) (text : String) (v : Int) : Prop :=
  ∃ t, Reads text t ∧ t.exact names = some v

/-- The text has the value of the expression under every assignment, and none where
the expression has none. -/
def Faithful (e : Expr) : Prop :=
  ∀ names v, Means names e.text v ↔ e.exact names = some v

/-- Calls have a number of arguments that their function accepts. -/
def Applied : Expr → Prop
  | call fn args => fn.Accepts args.length
  | _ => True

/-- A bare right operand may fall apart: the operators that are read on its left
spine regroup. -/
def Regroupable : Expr → Prop
  | bin op _ rhs =>
    rhs.wrapped op .right = true ∨ ∀ inner ∈ rhs.reading.spine (rank op), op.Regroups inner
  | _ => True

/-- An expression that is printed with the parentheses it needs. -/
structure Intact (e : Expr) : Prop where
  spaced : e.Spaced
  whole : e.Whole
  regroupable : e.Regroupable

instance : DecidablePred Applied
  | call .. => inferInstanceAs (Decidable (Builtin.Accepts _ _))
  | lit _ | var _ | neg _ | bin .. | select .. => inferInstanceAs (Decidable True)

instance : DecidablePred Regroupable
  | bin .. => inferInstanceAs (Decidable (_ ∨ ∀ inner ∈ _, Operator.Regroups _ inner))
  | lit _ | var _ | neg _ | call .. | select .. => inferInstanceAs (Decidable True)

instance : DecidablePred Intact := fun e =>
  decidable_of_iff (e.Spaced ∧ e.Whole ∧ e.Regroupable)
    ⟨fun ⟨spaced, whole, regroupable⟩ => ⟨spaced, whole, regroupable⟩,
      fun intact => ⟨intact.spaced, intact.whole, intact.regroupable⟩⟩

private theorem exact_reading {e : Expr} (names : String → Int) (applied : e.Everywhere Applied)
    (regroupable : e.Everywhere Regroupable) : e.reading.exact names = e.exact names := by
  induction e with
  | lit n =>
    by_cases negative : n < 0
    · have same : -(n.natAbs : Int) = n := by omega
      simp only [reading, negative, ↓reduceIte, exact, Option.map_some, same]
    · simp only [reading, negative, ↓reduceIte]
  | var x => rfl
  | neg arg ih =>
    have inner := ih (everywhere_neg.mp applied).2 (everywhere_neg.mp regroupable).2
    simp only [reading, exact, ← inner]
    split
    · rfl
    · exact exact_plant_neg arg.reading
  | bin op lhs rhs ihLeft ihRight =>
    obtain ⟨_, left, right⟩ := everywhere_bin.mp applied
    obtain ⟨here, regroupLeft, regroupRight⟩ := everywhere_bin.mp regroupable
    simp only [reading, exact, ← ihLeft left regroupLeft, ← ihRight right regroupRight]
    cases wrap : rhs.wrapped op .right with
    | true => rfl
    | false => exact exact_plant lhs.reading (here.resolve_left (by simp [wrap]))
  | call fn args ih =>
    obtain ⟨accepts, applied⟩ := everywhere_call.mp applied
    obtain ⟨_, regroupable⟩ := everywhere_call.mp regroupable
    have same : (args.map reading).map (exact names) = args.map (exact names) := by
      rw [List.map_map]
      exact List.map_congr_left fun arg member =>
        ih arg member (applied arg member) (regroupable arg member)
    have count : fn.Accepts (args.map reading).length := by
      rw [List.length_map]
      exact accepts
    rw [reading, readingAll_eq_map, exact_nest count, exactAll_congr same, exact]
  | select cond thn els ihCond ihThn ihEls =>
    obtain ⟨_, first, second, third⟩ := everywhere_select.mp applied
    obtain ⟨_, regroupCond, regroupThn, regroupEls⟩ := everywhere_select.mp regroupable
    simp only [reading, exact, ihCond first regroupCond, ihThn second regroupThn,
      ihEls third regroupEls]

/-- An expression whose text is read as `t` is printed faithfully if `t` has its value. -/
theorem faithful_iff_of_reads {e t : Expr} (reads : Reads e.text t) :
    e.Faithful ↔ ∀ names, t.exact names = e.exact names := by
  have means (names : String → Int) (v : Int) :
      Means names e.text v ↔ t.exact names = some v := by
    constructor
    · rintro ⟨other, readsOther, value⟩
      rwa [readsOther.unique reads] at value
    · intro value
      exact ⟨t, reads, value⟩
  simp only [Faithful, means]
  constructor
  · intro same names
    exact Option.ext (same names)
  · intro same names v
    rw [same names]

theorem faithful_of_intact {e : Expr} (named : e.Everywhere Named) (applied : e.Everywhere Applied)
    (intact : e.Everywhere Intact) : e.Faithful := by
  have reads := (reads_iff named (intact.imp fun _ inner => inner.self.spaced)
    (intact.imp fun _ inner => inner.self.whole) e.reading).mpr rfl
  rw [faithful_iff_of_reads reads]
  intro names
  exact exact_reading names applied (intact.imp fun _ inner => inner.self.regroupable)

/-- An operand that shows no operators other than those of another one. -/
def Plainer (op : Operator) (side : Operator.Side) (x y : Expr) : Prop :=
  x.reading.topRank = unary ∨
    x.wrapped op side = y.wrapped op side ∧ y.reading.topRank ≤ x.reading.topRank ∧
      x.reading.spine (rank op) ⊆ y.reading.spine (rank op)

/-- An expression with the operator of another one, and with plainer operands. -/
inductive Simplifies : Expr → Expr → Prop where
  | neg {x y : Expr} (guarded : x.guardedUnderMinus = y.guardedUnderMinus)
      (sign : x.tokens.head? = some (.op .sub) → y.tokens.head? = some (.op .sub))
      (top : y.reading.topRank ≤ x.reading.topRank) : Simplifies (neg x) (neg y)
  | bin {op : Operator} {l r x y : Expr} (left : Plainer op .left l x)
      (right : Plainer op .right r y) : Simplifies (bin op l r) (bin op x y)

section Hidden

variable {op inner : Operator}

/-- A call with one argument that hides its operator from the operator around it. -/
private def hiddenLeft (op inner : Operator) : Expr :=
  bin op (call .min [bin inner (var "a") (var "b")]) (var "c")

private def hiddenRight (op inner : Operator) : Expr :=
  bin op (var "a") (call .min [bin inner (var "b") (var "c")])

private def hiddenUnderSign (inner : Operator) : Expr :=
  neg (call .min [bin inner (var "a") (var "b")])

private def assign (x y z : Int) (name : String) : Int :=
  if name = "a" then x else if name = "b" then y else z

private theorem intact_var (x : String) : (var x).Everywhere Intact :=
  fun _ member => List.mem_singleton.mp member ▸ ⟨trivial, trivial, trivial⟩

private theorem intact_hidden (inner : Operator) (x y : String) :
    (call .min [bin inner (var x) (var y)]).Everywhere Intact := by
  have low := Nat.le_of_lt (rank_lt_unary inner)
  have here : (bin inner (var x) (var y)).Intact :=
    ⟨trivial, ⟨.inr low, .inr low⟩, .inr fun _ member => nomatch member⟩
  refine everywhere_call.mpr ⟨⟨List.cons_ne_nil _ _, trivial, trivial⟩, ?_⟩
  intro arg member
  rw [List.mem_singleton.mp member]
  exact everywhere_bin.mpr ⟨here, intact_var x, intact_var y⟩

private theorem exact_min_singleton (names : String → Int) (e : Expr) :
    (call .min [e]).exact names = e.exact names := by
  cases value : e.exact names <;> simp [exact, exactAll, Builtin.exact, value]

private theorem derives_var {k : Nat} (low : k ≤ unary) {x : String} (plain : function? x = none) :
    Derives k [.name x] (var x) :=
  (Derives.name plain).weaken low (Nat.le_refl unary)

private theorem not_faithful_hiddenRight (weaker : rank inner ≤ rank op)
    (fails : ¬ op.Regroups inner) : ¬ (hiddenRight op inner).Faithful := by
  have low := rank_lt_unary op
  have reads : Reads (hiddenRight op inner).text
      (bin inner (bin op (var "a") (var "b")) (var "c")) := by
    apply reads_of_derives (of_decide_eq_true rfl) (of_decide_eq_true rfl)
    have first : Derives (rank op) [.name "a", .op op, .name "b"] (bin op (var "a") (var "b")) :=
      .binary (derives_var (by omega) rfl) (derives_var (by omega) rfl)
    have whole := Derives.binary (first.weaken weaker (by omega))
      (derives_var (x := "c") (by omega) rfl)
    exact whole.weaken (one_le_rank inner) (by omega)
  rw [faithful_iff_of_reads reads]
  intro same
  obtain ⟨x, y, z, different⟩ := Operator.exists_of_not_regroups fails
  have tree : (hiddenRight op inner).exact (assign x y z) =
      op.exact (some x) (inner.exact (some y) (some z)) :=
    congrArg (op.exact (some x)) (exact_min_singleton (assign x y z) _)
  exact different (tree.symm.trans (same (assign x y z)).symm)

private theorem not_faithful_hiddenLeft (weaker : rank inner < rank op) :
    ¬ (hiddenLeft op inner).Faithful := by
  have low := rank_lt_unary op
  have reads : Reads (hiddenLeft op inner).text
      (bin inner (var "a") (bin op (var "b") (var "c"))) := by
    apply reads_of_derives (of_decide_eq_true rfl) (of_decide_eq_true rfl)
    have second : Derives (rank op) [.name "b", .op op, .name "c"] (bin op (var "b") (var "c")) :=
      .binary (derives_var (by omega) rfl) (derives_var (by omega) rfl)
    have whole := Derives.binary (derives_var (x := "a") (by omega) rfl)
      (second.weaken weaker (by omega))
    exact whole.weaken (one_le_rank inner) (by omega)
  have fails : ¬ inner.Regroups op := fun regroups =>
    Nat.ne_of_lt weaker (Operator.rank_eq_of_regroups regroups)
  rw [faithful_iff_of_reads reads]
  intro same
  obtain ⟨x, y, z, different⟩ := Operator.exists_of_not_regroups fails
  have tree : (hiddenLeft op inner).exact (assign x y z) =
      op.exact (inner.exact (some x) (some y)) (some z) :=
    congrArg (op.exact · (some z)) (exact_min_singleton (assign x y z) _)
  exact different ((same (assign x y z)).trans tree)

private theorem sign_differs (weaker : rank inner < 6) :
    ∃ x y : Int, inner.exact (some (-x)) (some y) ≠ (inner.exact (some x) (some y)).map (- ·) := by
  have table : ∃ s ∈ [((1 : Int), (1 : Int)), (1, 0)],
      inner.exact (some (-s.1)) (some s.2) ≠ (inner.exact (some s.1) (some s.2)).map (- ·) := by
    revert weaker
    cases inner <;> decide
  obtain ⟨s, _, different⟩ := table
  exact ⟨s.1, s.2, different⟩

private theorem not_faithful_hiddenUnderSign (weaker : rank inner < 6) :
    ¬ (hiddenUnderSign inner).Faithful := by
  have reads : Reads (hiddenUnderSign inner).text (bin inner (neg (var "a")) (var "b")) := by
    apply reads_of_derives (of_decide_eq_true rfl) (of_decide_eq_true rfl)
    have low := rank_lt_unary inner
    have first : Derives unary [.op .sub, .name "a"] (neg (var "a")) :=
      .negation (derives_var (by omega) rfl)
    have whole := Derives.binary (first.weaken (Nat.le_of_lt low) (Nat.le_refl unary))
      (derives_var (x := "b") (by omega) rfl)
    exact whole.weaken (one_le_rank inner) (by omega)
  rw [faithful_iff_of_reads reads]
  intro same
  obtain ⟨x, y, different⟩ := sign_differs weaker
  have tree : (hiddenUnderSign inner).exact (assign x y 0) =
      (inner.exact (some x) (some y)).map (- ·) :=
    congrArg (Option.map (- ·)) (exact_min_singleton (assign x y 0) _)
  exact different ((same (assign x y 0)).trans tree)

/-- Two signs in a row are one token, which no expression of C begins with here. -/
private theorem not_faithful_doubleSign : ¬ (neg (call .min [neg (var "a")])).Faithful := by
  intro faithful
  obtain ⟨t, reads, _⟩ := (faithful (fun _ => 0) 0).mpr rfl
  have stuck : parse? (Reading.tokens "--a") = none := by decide
  cases stuck.symm.trans (parse?_of_derives reads)

end Hidden

private theorem topRank_le_unary (e : Expr) : e.topRank ≤ unary := by
  cases e with
  | bin op lhs rhs => exact Nat.le_of_lt (rank_lt_unary op)
  | _ => exact Nat.le_refl unary

private theorem exists_rank_eq {e : Expr} (below : e.topRank < unary) :
    ∃ op, rank op = e.topRank := by
  cases e with
  | bin op lhs rhs => exact ⟨op, rfl⟩
  | _ => exact absurd below (Nat.lt_irrefl unary)

theorem Plainer.whole {op : Operator} {side : Operator.Side} {x y : Expr}
    (plainer : Plainer op side x y)
    (whole : y.wrapped op side = true ∨ rank op ≤ y.reading.topRank) :
    x.wrapped op side = true ∨ rank op ≤ x.reading.topRank := by
  rcases plainer with atom | ⟨same, top, _⟩
  · exact .inr (atom ▸ Nat.le_of_lt (rank_lt_unary op))
  · rw [same]
    exact whole.imp_right fun bound => Nat.le_trans bound top

/-- What has the operator of an intact expression, and plainer operands, is intact. -/
theorem Intact.of_simplifies {o s : Expr} (simplifies : Simplifies o s) (intact : s.Intact) :
    o.Intact := by
  obtain ⟨spaced, whole, regroupable⟩ := intact
  cases simplifies with
  | neg guarded sign top =>
    refine ⟨?_, ?_, trivial⟩
    · exact spaced.imp guarded.trans fun apart both => apart (sign both)
    · exact whole.imp guarded.trans fun bound => Nat.le_trans bound top
  | @bin op l r x y left right =>
    refine ⟨trivial, ⟨left.whole whole.1, right.whole whole.2⟩, ?_⟩
    rcases right with atom | ⟨same, _, spine⟩
    · right
      have below := rank_lt_unary op
      rw [spine_of_ne (by omega)]
      exact fun _ member => nomatch member
    · rcases regroupable with wrap | regroups
      · exact .inl (same.trans wrap)
      · exact .inr fun inner member => regroups inner (spine member)

private theorem everywhere_of_children {o s : Expr} (simplifies : Simplifies o s)
    (intact : s.Intact) (inside : ∀ x ∈ o.children, x.Everywhere Intact) :
    o.Everywhere Intact := by
  have here := Intact.of_simplifies simplifies intact
  cases simplifies with
  | neg => exact everywhere_neg.mpr ⟨here, inside _ (by simp [children])⟩
  | bin =>
    exact everywhere_bin.mpr
      ⟨here, inside _ (by simp [children]), inside _ (by simp [children])⟩

section Exposed

/-- An expression of names that simplifies another one and is not printed faithfully. -/
private structure Exposes (o s : Expr) : Prop where
  simplifies : Simplifies o s
  named : o.Everywhere Named
  applied : o.Everywhere Applied
  inside : ∀ x ∈ o.children, x.Everywhere Intact
  unfaithful : ¬ o.Faithful

private theorem exposed_neg {arg : Expr} (torn : ¬ (neg arg).Intact) :
    ∃ o, Exposes o (neg arg) := by
  cases guarded : arg.guardedUnderMinus with
  | true => exact absurd ⟨.inl guarded, .inl guarded, trivial⟩ torn
  | false =>
    by_cases sign : arg.tokens.head? = some (.op .sub)
    · have simplifies : Simplifies (neg (call .min [neg (var "a")])) (neg arg) :=
        .neg guarded.symm (fun _ => sign) (topRank_le_unary _)
      exact ⟨_, simplifies, by decide, by decide, by decide, not_faithful_doubleSign⟩
    · have weaker : arg.reading.topRank < 6 := by
        apply Nat.lt_of_not_le
        intro product
        exact torn ⟨.inr sign, .inr product, trivial⟩
      obtain ⟨inner, same⟩ := exists_rank_eq (Nat.lt_trans weaker six_lt_unary)
      have simplifies : Simplifies (hiddenUnderSign inner) (neg arg) :=
        .neg guarded.symm (fun token => nomatch token) (Nat.le_of_eq same.symm)
      refine ⟨_, simplifies, of_decide_eq_true rfl, of_decide_eq_true rfl, ?_,
        not_faithful_hiddenUnderSign (same ▸ weaker)⟩
      simpa [hiddenUnderSign, children] using intact_hidden inner "a" "b"

private theorem plainer_hidden {op inner : Operator} {side : Operator.Side} {e : Expr}
    (x y : String) (bare : e.wrapped op side = false) (top : e.reading.topRank = rank inner)
    (chained : rank inner = rank op → inner ∈ e.reading.spine (rank op)) :
    Plainer op side (call .min [bin inner (var x) (var y)]) e := by
  refine .inr ⟨bare.symm, Nat.le_of_eq top, ?_⟩
  intro other member
  have shown : other ∈ (bin inner (var x) (var y)).spine (rank op) := member
  by_cases same : rank inner = rank op
  · obtain rfl : other = inner := by simpa [spine, same] using shown
    exact chained same
  · simp [spine, same] at shown

private theorem exposed_left {op : Operator} {lhs : Expr} (rhs : Expr)
    (bare : lhs.wrapped op .left = false) (weaker : lhs.reading.topRank < rank op) :
    ∃ o, Exposes o (bin op lhs rhs) := by
  obtain ⟨inner, same⟩ := exists_rank_eq (Nat.lt_trans weaker (rank_lt_unary op))
  have simplifies : Simplifies (hiddenLeft op inner) (bin op lhs rhs) :=
    .bin (plainer_hidden "a" "b" bare same.symm (by omega)) (.inl rfl)
  refine ⟨_, simplifies, of_decide_eq_true rfl, of_decide_eq_true rfl, ?_,
    not_faithful_hiddenLeft (same ▸ weaker)⟩
  simpa [hiddenLeft, children] using ⟨intact_hidden inner "a" "b", intact_var "c"⟩

private theorem exposed_right {op inner : Operator} (lhs : Expr) {rhs : Expr}
    (bare : rhs.wrapped op .right = false) (weaker : rank inner ≤ rank op)
    (fails : ¬ op.Regroups inner) (top : rhs.reading.topRank = rank inner)
    (chained : rank inner = rank op → inner ∈ rhs.reading.spine (rank op)) :
    ∃ o, Exposes o (bin op lhs rhs) := by
  have simplifies : Simplifies (hiddenRight op inner) (bin op lhs rhs) :=
    .bin (.inl rfl) (plainer_hidden "b" "c" bare top chained)
  refine ⟨_, simplifies, of_decide_eq_true rfl, of_decide_eq_true rfl, ?_,
    not_faithful_hiddenRight weaker fails⟩
  simpa [hiddenRight, children] using ⟨intact_var "a", intact_hidden inner "b" "c"⟩

private theorem exposed_bin {op : Operator} {lhs rhs : Expr} (torn : ¬ (bin op lhs rhs).Intact) :
    ∃ o, Exposes o (bin op lhs rhs) := by
  by_cases left : lhs.wrapped op .left = true ∨ rank op ≤ lhs.reading.topRank
  · by_cases right : rhs.wrapped op .right = true ∨ rank op ≤ rhs.reading.topRank
    · have chained : ¬ (bin op lhs rhs).Regroupable := fun regroupable =>
        torn ⟨trivial, ⟨left, right⟩, regroupable⟩
      simp only [Regroupable, not_or, Classical.not_forall] at chained
      obtain ⟨bare, inner, member, fails⟩ := chained
      have same := rank_of_mem_spine member
      have top : rhs.reading.topRank = rank op := by
        apply Decidable.byContradiction
        intro other
        simp [spine_of_ne other] at member
      exact exposed_right lhs (by simpa using bare) (Nat.le_of_eq same) fails
        (top.trans same.symm) fun _ => member
    · simp only [not_or, Nat.not_le] at right
      obtain ⟨bare, weaker⟩ := right
      obtain ⟨inner, same⟩ := exists_rank_eq (Nat.lt_trans weaker (rank_lt_unary op))
      have below : rank inner < rank op := same ▸ weaker
      have fails : ¬ op.Regroups inner := fun regroups =>
        Nat.ne_of_gt below (Operator.rank_eq_of_regroups regroups)
      exact exposed_right lhs (by simpa using bare) (Nat.le_of_lt below) fails same.symm (by omega)
  · simp only [not_or, Nat.not_le] at left
    exact exposed_left rhs (by simpa using left.1) left.2

private theorem exposed_of_not_intact {s : Expr} (applied : s.Applied) (torn : ¬ s.Intact) :
    ∃ o, Exposes o s := by
  cases s with
  | neg arg => exact exposed_neg torn
  | bin op lhs rhs => exact exposed_bin torn
  | call fn args =>
    have nonempty : args ≠ [] := by
      rintro rfl
      cases fn <;> cases applied
    exact absurd ⟨nonempty, trivial, trivial⟩ torn
  | lit | var | select => exact absurd ⟨trivial, trivial, trivial⟩ torn

end Exposed

/-- The text of an expression has its value if every subterm is intact. The condition is
exact for the shape of a subterm, not for the expression at hand: a subterm is intact if and
only if every expression with its operator, and with plainer and intact operands, is printed
faithfully, and an expression with other subterms may still have the value of its text. -/
theorem faithful_where_intact {e : Expr} (named : e.Everywhere Named)
    (applied : e.Everywhere Applied) :
    (e.Everywhere Intact → e.Faithful) ∧
      ∀ s ∈ e.subterms, (s.Intact ↔ ∀ o, Simplifies o s → o.Everywhere Named →
        o.Everywhere Applied → (∀ x ∈ o.children, x.Everywhere Intact) → o.Faithful) := by
  refine ⟨faithful_of_intact named applied, ?_⟩
  intro s member
  constructor
  · intro intact o simplifies namedOther appliedOther inside
    exact faithful_of_intact namedOther appliedOther
      (everywhere_of_children simplifies intact inside)
  · intro all
    apply Decidable.byContradiction
    intro torn
    obtain ⟨o, exposes⟩ := exposed_of_not_intact (applied s member) torn
    exact exposes.unfaithful
      (all o exposes.simplifies exposes.named exposes.applied exposes.inside)

/-- The text `n + 2 * i * j - k % -3 + -min(min(i, j), 7)` of a sum that is grouped
from the right. -/
theorem faithful_nested_sum :
    let e := bin .add (var "n") (bin .add
      (bin .sub (bin .mul (lit 2) (bin .mul (var "i") (var "j"))) (bin .rem (var "k") (lit (-3))))
      (neg (call .min [var "i", var "j", lit 7])))
    e.Everywhere Intact ∧ e.Faithful := by
  intro e
  have intact : e.Everywhere Intact := by decide
  exact ⟨intact, (faithful_where_intact (by decide) (by decide)).1 intact⟩

/-- The text `2 * 1 / 2 * 1` has the value one, and the product that it is printed
for has the value zero. -/
theorem unfaithful_product_of_quotient :
    let e := bin .mul (lit 2) (bin .mul (bin .div (lit 1) (lit 2)) (lit 1))
    e.Everywhere Named ∧ e.Everywhere Applied ∧ ¬ e.Faithful := by
  intro e
  have named : e.Everywhere Named := by decide
  have reads := (reads_iff named (by decide) (by decide) e.reading).mpr rfl
  refine ⟨named, by decide, ?_⟩
  rw [faithful_iff_of_reads reads]
  intro same
  exact absurd (same fun _ => 0) (by decide)

end Offload.Expr
