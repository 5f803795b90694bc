import Offload.Proofs.Expr.Subterms

namespace Offload.Expr

/-- A call of the function stands somewhere in the expressions. -/
def CalledIn (fn : Builtin) (es : List Expr) : Prop :=
  ∃ e ∈ es, ∃ args, call fn args ∈ e.subterms

section CalledIn

variable {fn : Builtin}

theorem calledIn_append {first second : List Expr} :
    CalledIn fn (first ++ second) ↔ CalledIn fn first ∨ CalledIn fn second := by
  simp only [CalledIn, List.mem_append, or_and_right, exists_or]

theorem CalledIn.mono {some more : List Expr} (called : CalledIn fn some)
    (inside : ∀ e ∈ some, e ∈ more) : CalledIn fn more := by
  obtain ⟨e, member, args, found⟩ := called
  exact ⟨e, inside e member, args, found⟩

theorem anyCalls_eq_any (es : List Expr) : anyCalls fn es = es.any (calls fn) := by
  induction es with
  | nil => rfl
  | cons e rest ih => rw [anyCalls, ih, List.any_cons]

theorem calls_iff_mem_subterms {e : Expr} :
    e.calls fn = true ↔ ∃ args, call fn args ∈ e.subterms := by
  induction e with
  | lit n => simp [calls, subterms]
  | var x => simp [calls, subterms]
  | neg arg ih => simpa [calls, subterms] using ih
  | bin op lhs rhs ihLeft ihRight => simp [calls, subterms, ihLeft, ihRight, exists_or]
  | call g args ih =>
    simp only [calls, subterms, anyCalls_eq_any, Bool.or_eq_true, beq_iff_eq, List.any_eq_true,
      List.mem_cons, call.injEq, mem_subtermsOf, exists_or]
    constructor
    · rintro (rfl | ⟨arg, member, found⟩)
      · exact .inl ⟨args, rfl, rfl⟩
      · obtain ⟨inner, deeper⟩ := (ih arg member).mp found
        exact .inr ⟨inner, arg, member, deeper⟩
    · rintro (⟨_, same, _⟩ | ⟨inner, arg, member, deeper⟩)
      · exact .inl same.symm
      · exact .inr ⟨arg, member, (ih arg member).mpr ⟨inner, deeper⟩⟩
  | select cond thn els ihCond ihThn ihEls =>
    simp [calls, subterms, ihCond, ihThn, ihEls, exists_or, or_assoc]

theorem anyCalls_iff_calledIn {es : List Expr} : anyCalls fn es = true ↔ CalledIn fn es := by
  simp only [anyCalls_eq_any, List.any_eq_true, calls_iff_mem_subterms, CalledIn]

theorem calledIn_singleton {e : Expr} : CalledIn fn [e] ↔ e.calls fn = true := by
  rw [← anyCalls_iff_calledIn, anyCalls_eq_any, List.any_cons, List.any_nil, Bool.or_false]

end CalledIn

end Offload.Expr
