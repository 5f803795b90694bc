import Offload.Expr.Value
import Offload.Proofs.Expr.Reading

namespace Offload

open Reading

namespace Operator

/-- The value of an operator that needs both of its operands. -/
def apply : Operator → Int → Int → Option Int
  | .add, l, r => some (l + r)
  | .sub, l, r => some (l - r)
  | .mul, l, r => some (l * r)
  | .div, l, r => if r = 0 then none else some (l.tdiv r)
  | .rem, l, r => if r = 0 then none else some (l.tmod r)
  | .eq, l, r => some (truth (l == r))
  | .ne, l, r => some (truth (l != r))
  | .le, l, r => some (truth (l ≤ r))
  | .ge, l, r => some (truth (r ≤ l))
  | .lt, l, r => some (truth (l < r))
  | .gt, l, r => some (truth (r < l))
  | .and, l, r => some (truth (l != 0 && r != 0))
  | .or, l, r => some (truth (l != 0 || r != 0))

/-- The value that the left operand decides alone. -/
def shortcut? : Operator → Int → Option Int
  | .and, l => if l = 0 then some 0 else none
  | .or, l => if l = 0 then none else some 1
  | _, _ => none

/-- The value of an operator over the integers. The right operand may be undefined
where the left one decides. -/
def exact (op : Operator) (lhs rhs : Option Int) : Option Int :=
  lhs.bind fun l => (op.shortcut? l).or (rhs.bind (op.apply l))

/-- An operand may move into a chain: `x op (y inner z)` is `(x op y) inner z`. -/
def Regroups (op inner : Operator) : Prop :=
  ∀ x y z : Option Int, op.exact x (inner.exact y z) = inner.exact (op.exact x y) z

/-- Operands that tell apart the two groupings of any two operators that do not
regroup. -/
private def samples : List (Int × Int × Int) :=
  [(-1, -3, -1), (-3, -3, 2), (1, 2, 2), (0, -3, 1), (-3, 0, 0), (-2, -3, 0)]

private theorem samples_refute (op inner : Operator) :
    (op = .add ∧ inner = .sub ∨ op = inner ∧ op ∈ [.add, .mul, .and, .or]) ∨
      ∃ s ∈ samples, op.exact (some s.1) (inner.exact (some s.2.1) (some s.2.2)) ≠
        inner.exact (op.exact (some s.1) (some s.2.1)) (some s.2.2) := by
  cases op <;> cases inner <;> decide

theorem regroups_add {inner : Operator} (sum : inner ∈ [add, sub]) : add.Regroups inner := by
  intro x y z
  simp only [List.mem_cons, List.not_mem_nil, or_false] at sum
  rcases sum with rfl | rfl <;> cases x <;> cases y <;> cases z <;>
    simp [exact, shortcut?, apply] <;> omega

theorem regroups_mul : mul.Regroups mul := by
  intro x y z
  cases x <;> cases y <;> cases z <;> simp [exact, shortcut?, apply, Int.mul_assoc]

private theorem exact_and (x y : Option Int) :
    and.exact x y = x.bind fun l => if l = 0 then some 0 else y.map fun r => truth (r != 0) := by
  cases x with
  | none => rfl
  | some l =>
    by_cases zero : l = 0
    · simp [exact, shortcut?, zero]
    · have nonzero : (l != 0) = true := bne_iff_ne.mpr zero
      cases y <;> simp [exact, shortcut?, apply, zero, nonzero]

private theorem exact_or (x y : Option Int) :
    or.exact x y = x.bind fun l => if l = 0 then y.map fun r => truth (r != 0) else some 1 := by
  cases x with
  | none => rfl
  | some l => by_cases zero : l = 0 <;> cases y <;> simp [exact, shortcut?, apply, zero]

theorem regroups_and : and.Regroups and := by
  intro x y z
  cases x with
  | none => rfl
  | some l =>
    by_cases zero : l = 0
    · simp [exact_and, zero]
    · cases y with
      | none => simp [exact_and, zero]
      | some r => by_cases none : r = 0 <;> cases z <;> simp [exact_and, zero, none, truth]

theorem regroups_or : or.Regroups or := by
  intro x y z
  cases x with
  | none => rfl
  | some l =>
    by_cases zero : l = 0
    · cases y with
      | none => simp [exact_or, zero]
      | some r => by_cases none : r = 0 <;> cases z <;> simp [exact_or, zero, none, truth]
    · simp [exact_or, zero]

/-- The operators that regroup. -/
theorem regroups_iff {op inner : Operator} :
    op.Regroups inner ↔
      op = .add ∧ inner = .sub ∨ op = inner ∧ op ∈ [.add, .mul, .and, .or] := by
  constructor
  · intro regroups
    rcases samples_refute op inner with known | ⟨s, _, different⟩
    · exact known
    · exact absurd (regroups _ _ _) different
  · rintro (⟨rfl, rfl⟩ | ⟨rfl, member⟩)
    · exact regroups_add (by simp)
    · simp only [List.mem_cons, List.not_mem_nil, or_false] at member
      rcases member with rfl | rfl | rfl | rfl
      · exact regroups_add (by simp)
      · exact regroups_mul
      · exact regroups_and
      · exact regroups_or

/-- Integers tell the two groupings apart where the operators do not regroup. -/
theorem exists_of_not_regroups {op inner : Operator} (fails : ¬ op.Regroups inner) :
    ∃ x y z : Int, op.exact (some x) (inner.exact (some y) (some z)) ≠
      inner.exact (op.exact (some x) (some y)) (some z) := by
  rcases samples_refute op inner with known | ⟨s, _, different⟩
  · exact absurd (regroups_iff.mpr known) fails
  · exact ⟨_, _, _, different⟩

theorem rank_eq_of_regroups {op inner : Operator} (regroups : op.Regroups inner) :
    rank op = rank inner := by
  rcases regroups_iff.mp regroups with ⟨rfl, rfl⟩ | ⟨rfl, _⟩ <;> rfl

instance (op inner : Operator) : Decidable (op.Regroups inner) :=
  decidable_of_iff _ regroups_iff.symm

/-- A sign may move into a chain of products, quotients and remainders. -/
theorem exact_map_neg {op : Operator} (product : rank op = 6) (x y : Option Int) :
    op.exact (x.map (- ·)) y = (op.exact x y).map (- ·) := by
  have known : op = mul ∨ op = div ∨ op = rem := by
    cases op <;> simp [rank] at product ⊢
  cases x with
  | none => rfl
  | some l =>
    cases y with
    | none => rcases known with rfl | rfl | rfl <;> rfl
    | some r =>
      rcases known with rfl | rfl | rfl
      · exact congrArg some (Int.neg_mul l r)
      · by_cases zero : r = 0 <;> simp [exact, shortcut?, apply, zero, Int.neg_tdiv]
      · by_cases zero : r = 0 <;> simp [exact, shortcut?, apply, zero, Int.neg_tmod]

end Operator

/-- The value of a built-in function over the integers. -/
def Builtin.exact : Builtin → List Int → Option Int
  | .min, v :: rest => some (rest.foldl Min.min v)
  | .max, v :: rest => some (rest.foldl Max.max v)
  | .floorDiv, [n, d] => if d = 0 then none else some (n.fdiv d)
  | _, _ => none

/-- The numbers of arguments that a function has a value for. -/
def Builtin.Accepts : Builtin → Nat → Prop
  | .min, n | .max, n => 0 < n
  | .floorDiv, n => n = 2

instance : (fn : Builtin) → (n : Nat) → Decidable (fn.Accepts n)
  | .min, n | .max, n => inferInstanceAs (Decidable (0 < n))
  | .floorDiv, n => inferInstanceAs (Decidable (n = 2))

/-- The least and the greatest of many values are found two at a time. -/
theorem Builtin.exact_pair {fn : Builtin} (folds : fn ≠ .floorDiv) (v w : Int) (rest : List Int) :
    (fn.exact [v, w]).bind (fun u => fn.exact (u :: rest)) = fn.exact (v :: w :: rest) := by
  cases fn with
  | min | max => rfl
  | floorDiv => exact absurd rfl folds

namespace Expr

mutual

/-- The value of an expression over the integers. The operators `&&` and `||` and
conditionals leave out the operands that they do not need. -/
def exact (names : String → Int) : Expr → Option Int
  | lit n => some n
  | var x => some (names x)
  | neg arg => (arg.exact names).map (- ·)
  | bin op lhs rhs => op.exact (lhs.exact names) (rhs.exact names)
  | call fn args => (exactAll names args).bind fn.exact
  | select cond thn els =>
    (cond.exact names).bind fun c => if c ≠ 0 then thn.exact names else els.exact names

def exactAll (names : String → Int) : List Expr → Option (List Int)
  | [] => some []
  | e :: rest => (e.exact names).bind fun v => (exactAll names rest).map (v :: ·)

end

theorem exactAll_cons {names : String → Int} {e : Expr} {rest : List Expr} {found : List Int} :
    exactAll names (e :: rest) = some found ↔
      ∃ n tail, found = n :: tail ∧ e.exact names = some n ∧ exactAll names rest = some tail := by
  rw [exactAll]
  constructor
  · intro known
    obtain ⟨n, head, others⟩ := Option.bind_eq_some_iff.mp known
    obtain ⟨tail, inside, rfl⟩ := Option.map_eq_some_iff.mp others
    exact ⟨n, tail, rfl, head, inside⟩
  · rintro ⟨n, tail, rfl, head, inside⟩
    rw [head, Option.bind_some, inside, Option.map_some]

theorem length_of_exactAll {names : String → Int} {args : List Expr} {found : List Int}
    (known : exactAll names args = some found) : found.length = args.length := by
  induction args generalizing found with
  | nil =>
    cases known
    rfl
  | cons e rest ih =>
    obtain ⟨n, tail, rfl, -, inside⟩ := exactAll_cons.mp known
    exact congrArg (· + 1) (ih inside)

/-- The operators of rank `k` on the left spine, from the top. -/
def spine (k : Nat) : Expr → List Operator
  | bin op lhs _ => if rank op = k then op :: lhs.spine k else []
  | _ => []

theorem spine_of_ne {k : Nat} {e : Expr} (other : e.topRank ≠ k) : e.spine k = [] := by
  cases e with
  | bin op lhs rhs =>
    have different : rank op ≠ k := other
    simp [spine, different]
  | _ => rfl

theorem rank_of_mem_spine {k : Nat} {e : Expr} {inner : Operator} (member : inner ∈ e.spine k) :
    rank inner = k := by
  induction e with
  | bin op lhs rhs ihLeft _ =>
    by_cases same : rank op = k
    · simp only [spine, same, ↓reduceIte, List.mem_cons] at member
      rcases member with rfl | member
      · exact same
      · exact ihLeft member
    · simp [spine, same] at member
  | _ => cases member

section Exact

variable {names : String → Int}

theorem exactAll_congr {args others : List Expr}
    (same : args.map (exact names) = others.map (exact names)) :
    exactAll names args = exactAll names others := by
  induction args generalizing others with
  | nil =>
    cases others with
    | nil => rfl
    | cons => cases same
  | cons first rest ih =>
    cases others with
    | nil => cases same
    | cons other others =>
      obtain ⟨head, tail⟩ := List.cons.inj same
      simp only [exactAll, head, ih tail]

/-- An operand that is planted into a spine keeps the value where its operator
regroups with those on the spine. -/
theorem exact_plant {op : Operator} (lhs : Expr) {e : Expr}
    (regroups : ∀ inner ∈ e.spine (rank op), op.Regroups inner) :
    (plant (rank op) (bin op lhs) e).exact names =
      op.exact (lhs.exact names) (e.exact names) := by
  induction e with
  | bin inner l r ihLeft _ =>
    by_cases same : rank inner = rank op
    · have chain : ∀ other ∈ inner :: l.spine (rank op), op.Regroups other := by
        simpa only [spine, same, ↓reduceIte] using regroups
      have rest := ihLeft fun other member => chain other (List.mem_cons_of_mem inner member)
      rw [plant_bin same, exact, exact, rest]
      exact (chain inner List.mem_cons_self _ _ _).symm
    · have other : (bin inner l r).topRank ≠ rank op := same
      rw [plant_of_ne other]
      rfl
  | _ => rfl

theorem exact_plant_neg (e : Expr) :
    (plant 6 neg e).exact names = (e.exact names).map (- ·) := by
  induction e with
  | bin inner l r ihLeft _ =>
    by_cases product : rank inner = 6
    · rw [plant_bin product, exact, exact, ihLeft, Operator.exact_map_neg product]
    · have other : (bin inner l r).topRank ≠ 6 := product
      rw [plant_of_ne other]
      rfl
  | _ => rfl

private theorem exact_nest_folds {fn : Builtin} (folds : fn ≠ .floorDiv) (first : Expr)
    (rest : List Expr) :
    (nest fn (first :: rest)).exact names = (exactAll names (first :: rest)).bind fn.exact := by
  induction rest generalizing first with
  | nil =>
    cases fn with
    | min | max => cases value : first.exact names <;> simp [nest, exactAll, Builtin.exact, value]
    | floorDiv => exact absurd rfl folds
  | cons second rest ih =>
    calc (nest fn (first :: second :: rest)).exact names
        = (exactAll names (call fn [first, second] :: rest)).bind fn.exact :=
          ih (call fn [first, second])
      _ = (exactAll names (first :: second :: rest)).bind fn.exact := by
          simp only [exactAll, exact]
          cases first.exact names with
          | none => rfl
          | some v =>
            cases second.exact names with
            | none => rfl
            | some w =>
              cases exactAll names rest with
              | none => cases value : fn.exact [v, w] <;> simp [value]
              | some values =>
                refine Eq.trans ?_ (Builtin.exact_pair folds v w values)
                cases value : fn.exact [v, w] <;> simp [value]

/-- Nested calls have the value of the one call. -/
theorem exact_nest {fn : Builtin} {args : List Expr} (accepts : fn.Accepts args.length) :
    (nest fn args).exact names = (exactAll names args).bind fn.exact := by
  by_cases folds : fn = .floorDiv
  · subst folds
    match args, accepts with
    | [n, d], _ => rfl
  · cases args with
    | nil => cases fn <;> cases accepts
    | cons first rest => exact exact_nest_folds folds first rest

end Exact

end Expr

end Offload
