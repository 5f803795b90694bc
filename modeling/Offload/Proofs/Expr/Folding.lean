import Offload.Expr.Value
import Offload.Proofs.Expr.Subterms

namespace Offload

theorem truth_ne_zero {b : Bool} : truth b ≠ 0 ↔ b = true := by
  cases b <;> simp [truth]

namespace Expr

section More

variable {names more : String → Option Int}
  (extended : ∀ x n, names x = some n → more x = some n)

private theorem values_of_more {args : List Expr}
    (each : ∀ arg ∈ args, ∀ n, arg.value names = some n → arg.value more = some n)
    {found : List Int} (known : values names args = some found) :
    values more args = some found := by
  induction args generalizing found with
  | nil => exact known
  | cons arg rest ih =>
    obtain ⟨n, head, others⟩ := Option.bind_eq_some_iff.mp known
    obtain ⟨tail, inside, rfl⟩ := Option.map_eq_some_iff.mp others
    have tailKnown := ih (fun other member => each other (List.mem_cons_of_mem arg member)) inside
    simp [values, each arg List.mem_cons_self n head, tailKnown]

include extended

/-- More names never change a value that is there. -/
theorem value_of_more {e : Expr} {n : Int} (known : e.value names = some n) :
    e.value more = some n := by
  induction e generalizing n with
  | lit => exact known
  | var x => exact extended x n known
  | neg arg ih =>
    obtain ⟨inner, found, range⟩ := Option.bind_eq_some_iff.mp known
    simpa [value, ih found] using range
  | bin op lhs rhs ihLeft ihRight =>
    obtain ⟨l, left, rest⟩ := Option.bind_eq_some_iff.mp known
    obtain ⟨r, right, result⟩ := Option.bind_eq_some_iff.mp rest
    simpa [value, ihLeft left, ihRight right] using result
  | call fn args ih =>
    obtain ⟨found, inside, result⟩ := Option.bind_eq_some_iff.mp known
    have kept := values_of_more (fun arg member _ => ih arg member) inside
    simpa [value, kept] using result
  | select cond thn els ihCond ihThn ihEls =>
    obtain ⟨c, test, chosen⟩ := Option.bind_eq_some_iff.mp known
    simp only [value, ihCond test, Option.bind_some]
    split at chosen
    · rename_i nonzero
      rw [if_pos nonzero, ihThn chosen]
    · rename_i zero
      rw [if_neg zero, ihEls chosen]

end More

/-- A constant is the value under every assignment. -/
theorem value_of_constant? {e : Expr} {n : Int} (folded : e.constant? = some n)
    (names : String → Option Int) : e.value names = some n := by
  refine value_of_more ?_ folded
  intro x m unnamed
  cases unnamed

theorem map_value_of_values {names : String → Option Int} {args : List Expr}
    {found : List Int} (known : values names args = some found) :
    args.map (value names) = found.map some := by
  induction args generalizing found with
  | nil =>
    cases known
    rfl
  | cons arg rest ih =>
    obtain ⟨n, head, others⟩ := Option.bind_eq_some_iff.mp known
    obtain ⟨tail, inside, rfl⟩ := Option.map_eq_some_iff.mp others
    rw [List.map_cons, List.map_cons, head, ih inside]

/-- The constraint has a value, which is not zero. -/
def Holds (names : String → Option Int) (e : Expr) : Prop :=
  ∃ n, e.value names = some n ∧ n ≠ 0

instance (names : String → Option Int) (e : Expr) : Decidable (e.Holds names) :=
  decidable_of_iff ((e.value names).any (· != 0) = true) (by simp [Holds, Option.any_eq_true])

/-- The expression has a value, which is not zero exactly where `p` is true. -/
def Decides (names : String → Option Int) (e : Expr) (p : Prop) : Prop :=
  ∃ n, e.value names = some n ∧ (n ≠ 0 ↔ p)

section Decides

variable {names : String → Option Int} {a b : Expr} {p q : Prop}

theorem decides_holds (valued : (a.value names).isSome) : a.Decides names (a.Holds names) := by
  obtain ⟨n, found⟩ := Option.isSome_iff_exists.mp valued
  exact ⟨n, found, fun nonzero => ⟨n, found, nonzero⟩, fun ⟨m, same, nonzero⟩ =>
    Option.some.inj (same.symm.trans found) ▸ nonzero⟩

theorem Decides.holds_iff (decides : a.Decides names p) : a.Holds names ↔ p := by
  obtain ⟨n, found, meaning⟩ := decides
  constructor
  · rintro ⟨m, same, nonzero⟩
    exact meaning.mp (Option.some.inj (same.symm.trans found) ▸ nonzero)
  · intro true
    exact ⟨n, found, meaning.mpr true⟩

theorem Decides.congr (decides : a.Decides names p) (same : p ↔ q) : a.Decides names q := by
  obtain ⟨n, found, meaning⟩ := decides
  exact ⟨n, found, meaning.trans same⟩

theorem Decides.and (left : a.Decides names p) (right : b.Decides names q) :
    (bin .and a b).Decides names (p ∧ q) := by
  obtain ⟨l, foundLeft, meansLeft⟩ := left
  obtain ⟨r, foundRight, meansRight⟩ := right
  refine ⟨truth (l != 0 && r != 0), by simp [value, foundLeft, foundRight, Operator.value], ?_⟩
  rw [truth_ne_zero, Bool.and_eq_true, bne_iff_ne, bne_iff_ne, meansLeft, meansRight]

theorem Decides.or (left : a.Decides names p) (right : b.Decides names q) :
    (bin .or a b).Decides names (p ∨ q) := by
  obtain ⟨l, foundLeft, meansLeft⟩ := left
  obtain ⟨r, foundRight, meansRight⟩ := right
  refine ⟨truth (l != 0 || r != 0), by simp [value, foundLeft, foundRight, Operator.value], ?_⟩
  rw [truth_ne_zero, Bool.or_eq_true, bne_iff_ne, bne_iff_ne, meansLeft, meansRight]

end Decides

end Expr

end Offload
