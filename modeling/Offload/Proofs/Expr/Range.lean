import Offload.Proofs.Expr.Exact

namespace Offload

theorem Operator.exact_of_value {op : Operator} {l r n : Int} (found : op.value l r = some n) :
    op.exact (some l) (some r) = some n := by
  have fits {m : Int} (inRange : word m = some n) : some m = some n :=
    congrArg some (word_eq_some_iff.mp inRange).1
  cases op with
  | add | sub | mul => exact fits found
  | div =>
    simp only [value] at found
    split at found
    · cases found
    · rename_i nonzero
      simp only [exact, shortcut?, apply, nonzero, Option.bind_some, Option.none_or, ↓reduceIte]
      exact fits found
  | rem =>
    simp only [value] at found
    split at found
    · cases found
    · rename_i defined
      have nonzero : r ≠ 0 := fun zero => defined (.inl zero)
      simpa only [exact, shortcut?, apply, nonzero, Option.bind_some, Option.none_or, ↓reduceIte]
        using found
  | eq | ne | le | ge | lt | gt => exact found
  | and | or =>
    rw [← found]
    by_cases zero : l = 0 <;> simp [exact, shortcut?, apply, value, zero, truth]

/-- Rounding down lowers the quotient with a nonnegative remainder where a negative divisor
leaves a remainder. -/
theorem fdiv_eq_lowered (n d : Int) :
    n.fdiv d = if d < 0 ∧ n % d ≠ 0 then n / d - 1 else n / d := by
  have keeps : (0 ≤ d ∨ d ∣ n) ↔ ¬ (d < 0 ∧ n % d ≠ 0) := by
    rw [Int.dvd_iff_emod_eq_zero]
    omega
  rw [Int.fdiv_eq_ediv]
  by_cases lowers : d < 0 ∧ n % d ≠ 0
  · rw [if_pos lowers, if_neg (mt keeps.mp (not_not_intro lowers))]
  · rw [if_neg lowers, if_pos (keeps.mpr lowers), Int.sub_zero]

private theorem exact_of_floorQuotient {n d q : Int} (found : floorQuotient n d = some q) :
    d ≠ 0 ∧ n.fdiv d = q := by
  unfold floorQuotient at found
  split at found
  · cases found
  · rename_i nonzero
    obtain ⟨m, inRange, rfl⟩ := Option.map_eq_some_iff.mp found
    obtain ⟨rfl, _⟩ := word_eq_some_iff.mp inRange
    exact ⟨nonzero, fdiv_eq_lowered n d⟩

theorem Builtin.exact_of_value {fn : Builtin} {args : List Int} {n : Int}
    (found : fn.value args = some n) : fn.exact args = some n := by
  unfold value at found
  split at found
  · exact found
  · exact found
  · obtain ⟨nonzero, same⟩ := exact_of_floorQuotient found
    rw [exact, if_neg nonzero, same]
  · cases found

namespace Expr

variable {names : String → Int}

private theorem exactAll_of_each {args : List Expr}
    (each : ∀ arg ∈ args, ∀ n, arg.value (fun x => some (names x)) = some n →
      arg.exact names = some n)
    {found : List Int} (known : values (fun x => some (names x)) args = some found) :
    exactAll names args = some found := by
  induction args generalizing found with
  | nil => exact known
  | cons arg rest ih =>
    obtain ⟨n, head, others⟩ := Option.bind_eq_some_iff.mp known
    obtain ⟨tail, inside, rfl⟩ := Option.map_eq_some_iff.mp others
    have restExact := ih (fun other member => each other (List.mem_cons_of_mem arg member)) inside
    simp [exactAll, each arg List.mem_cons_self n head, restExact]

/-- A value within the range is the exact one. -/
theorem exact_of_value {e : Expr} {n : Int}
    (found : e.value (fun x => some (names x)) = some n) : e.exact names = some n := by
  induction e generalizing n with
  | lit m => exact congrArg some (word_eq_some_iff.mp found).1
  | var x => exact found
  | neg arg ih =>
    obtain ⟨m, inner, inRange⟩ := Option.bind_eq_some_iff.mp found
    simp [exact, ih inner, (word_eq_some_iff.mp inRange).1]
  | bin op lhs rhs ihLeft ihRight =>
    obtain ⟨l, left, rest⟩ := Option.bind_eq_some_iff.mp found
    obtain ⟨r, right, result⟩ := Option.bind_eq_some_iff.mp rest
    rw [exact, ihLeft left, ihRight right, Operator.exact_of_value result]
  | call fn args ih =>
    obtain ⟨inner, inside, result⟩ := Option.bind_eq_some_iff.mp found
    rw [exact, exactAll_of_each (fun arg member _ => ih arg member) inside]
    exact Builtin.exact_of_value result
  | select cond thn els ihCond ihThn ihEls =>
    obtain ⟨c, test, chosen⟩ := Option.bind_eq_some_iff.mp found
    rw [exact, ihCond test, Option.bind_some]
    split at chosen
    · rename_i nonzero
      rw [if_pos nonzero, ihThn chosen]
    · rename_i zero
      rw [if_neg zero, ihEls chosen]

theorem exactAll_of_values {args : List Expr} {found : List Int}
    (known : values (fun x => some (names x)) args = some found) :
    exactAll names args = some found :=
  exactAll_of_each (fun _ _ _ => exact_of_value) known

end Expr

end Offload
