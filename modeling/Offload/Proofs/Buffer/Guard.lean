import Offload.Proofs.Code.Resolution
import Offload.Proofs.Generation
import Offload.Proofs.Region.Meaning

namespace Offload

open Code

namespace ArrayDecl

/-- Every extent of the array has a value. -/
def Sized (names : String → Option Int) (array : ArrayDecl) : Prop :=
  ∀ extent ∈ array.extents, (extent.value names).isSome

/-- Every extent of the array is at least one. -/
def HasElements (names : String → Option Int) (array : ArrayDecl) : Prop :=
  ∀ extent ∈ array.extents, ∃ n, extent.value names = some n ∧ 1 ≤ n

section Extent

variable {names : String → Option Int} {extent : Expr} {n : Int}

/-- The condition on an extent is left out only where it is at least one. -/
theorem one_le_of_extentGuard_eq_none (found : extent.value names = some n)
    (unguarded : extentGuard extent = none) : 1 ≤ n := by
  cases extent with
  | lit m =>
    obtain ⟨rfl, _⟩ := word_eq_some_iff.mp found
    by_cases positive : 0 < m
    · exact positive
    · simp [extentGuard, Expr.literal?, positive] at unguarded
  | _ => cases unguarded

/-- The condition on an extent decides whether it is at least one. -/
theorem decides_of_extentGuard_eq_some (found : extent.value names = some n) {guard : Expr}
    (guarded : extentGuard extent = some guard) : guard.Decides names (1 ≤ n) := by
  have compared : (Expr.bin .ge extent (.lit 1)).Decides names (1 ≤ n) := by
    refine ⟨truth (1 ≤ n), ?_, by simp [truth_ne_zero]⟩
    simp [Expr.value, found, word, Operator.value]
  cases extent with
  | lit m =>
    obtain ⟨rfl, _⟩ := word_eq_some_iff.mp found
    by_cases positive : 0 < m
    · simp [extentGuard, Expr.literal?, positive] at guarded
    · obtain rfl : Expr.lit 0 = guard := by
        simpa [extentGuard, Expr.literal?, positive] using guarded
      exact ⟨0, rfl, by omega⟩
  | _ =>
    cases guarded
    exact compared

end Extent

section Guard

variable {names : String → Option Int} {array : ArrayDecl}

theorem mem_sizeGuard {piece : Piece} (listed : piece ∈ array.sizeGuard.pieces) {guard : Expr} :
    guard ∈ piece ↔ ∃ extent ∈ array.extents, extentGuard extent = some guard := by
  rw [List.mem_singleton.mp listed, List.mem_eraseDups, List.mem_filterMap]

private theorem valued_sizeGuard (sized : array.Sized names) : array.sizeGuard.Valued names := by
  intro piece listed guard member
  obtain ⟨extent, inside, guarded⟩ := (mem_sizeGuard listed).mp member
  obtain ⟨n, found⟩ := Option.isSome_iff_exists.mp (sized extent inside)
  obtain ⟨m, value, _⟩ := decides_of_extentGuard_eq_some found guarded
  exact Option.isSome_iff_exists.mpr ⟨m, value⟩

/-- The guard of an array holds exactly where the array has elements. -/
theorem holds_sizeGuard_iff (sized : array.Sized names) :
    array.sizeGuard.Holds names ↔ array.HasElements names := by
  constructor
  · rintro ⟨piece, listed, holds⟩ extent member
    obtain ⟨n, found⟩ := Option.isSome_iff_exists.mp (sized extent member)
    refine ⟨n, found, ?_⟩
    cases guarded : extentGuard extent with
    | none => exact one_le_of_extentGuard_eq_none found guarded
    | some guard =>
      have inside := (mem_sizeGuard listed).mpr ⟨extent, member, guarded⟩
      exact (decides_of_extentGuard_eq_some found guarded).holds_iff.mp (holds guard inside)
  · intro elements
    refine ⟨_, List.mem_singleton_self _, fun guard inside => ?_⟩
    obtain ⟨extent, member, guarded⟩ := (mem_sizeGuard (List.mem_singleton_self _)).mp inside
    obtain ⟨n, found, positive⟩ := elements extent member
    exact (decides_of_extentGuard_eq_some found guarded).holds_iff.mpr positive

end Guard

section Extents

variable {names : String → Option Int} {array : ArrayDecl} {extents : List Int}
  (known : Expr.values names array.extents = some extents)

include known

theorem sized_of_values : array.Sized names := by
  intro extent member
  have found : extent.value names ∈ extents.map some :=
    Expr.map_value_of_values known ▸ List.mem_map_of_mem member
  obtain ⟨n, _, same⟩ := List.mem_map.mp found
  rw [← same]
  rfl

theorem hasElements_iff_of_values : array.HasElements names ↔ ∀ n ∈ extents, 1 ≤ n := by
  have same := Expr.map_value_of_values known
  constructor
  · intro elements n member
    have found : some n ∈ array.extents.map (Expr.value names) :=
      same ▸ List.mem_map_of_mem member
    obtain ⟨extent, listed, value⟩ := List.mem_map.mp found
    obtain ⟨m, valued, positive⟩ := elements extent listed
    exact Option.some.inj (valued.symm.trans value) ▸ positive
  · intro each extent member
    have found : extent.value names ∈ extents.map some :=
      same ▸ List.mem_map_of_mem member
    obtain ⟨n, listed, value⟩ := List.mem_map.mp found
    exact ⟨n, value.symm, each n listed⟩

end Extents

end ArrayDecl

namespace Buffer

variable {job : Job} {array : ArrayDecl} {names : String → Option Int} {path : List Stmt}

/-- A buffer is read back at most once, whatever the names stand for. -/
theorem path_copyBack (run : Executes (resolvedOf names [copyBack job array]) path) :
    path = [] ∨ path = [readBack job array] := by
  have once {part : List Stmt} (inside : Executes [readBack job array] part) :
      part = [readBack job array] := inside.eq_of_isSimple rfl
  rcases copyBack_cases job array with same | ⟨cond, same⟩
  · rw [same] at run
    exact .inr (once run)
  · rw [same] at run
    simp only [resolvedOf, Stmt.resolved, List.append_nil] at run
    split at run
    · split at run
      · exact .inr (once run)
      · cases run
        exact .inl rfl
    · cases run with
      | simple impossible => cases impossible
      | positive inside next =>
        cases next
        rw [List.append_nil]
        exact .inr (once inside)
      | negative inside next =>
        cases inside
        cases next
        exact .inl rfl

/-- Where the context holds, a buffer is read back exactly if the array has elements. -/
theorem path_copyBack_iff (plain : job.algebra = .syntactic)
    (known : job.program.context.Holds names) (sized : array.Sized names)
    (run : Executes (resolvedOf names [copyBack job array]) path) :
    path = [readBack job array] ↔ array.HasElements names := by
  have meaning : (array.sizeGuard.gist job.program.context).Holds names ↔
      array.HasElements names :=
    (Region.holds_gist_iff known).trans (ArrayDecl.holds_sizeGuard_iff sized)
  have decides := Region.decides_condition
    ((ArrayDecl.valued_sizeGuard sized).gist job.program.context)
  simp only [copyBack, plain, Algebra.syntactic] at run
  split at run
  · rename_i full
    have read : path = [readBack job array] := run.eq_of_isSimple rfl
    exact iff_of_true read (meaning.mp (Region.holds_of_isTrivial full))
  · obtain ⟨reads, skips⟩ := resolvedOf_branch (decides.congr meaning) [readBack job array] []
    by_cases elements : array.HasElements names
    · rw [reads elements] at run
      exact iff_of_true (run.eq_of_isSimple rfl) elements
    · rw [skips elements] at run
      cases run
      exact iff_of_false (by simp) elements

end Buffer

end Offload
