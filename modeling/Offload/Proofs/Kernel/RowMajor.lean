import Mathlib.Algebra.BigOperators.Intervals
import Mathlib.Data.List.Forall2
import Mathlib.Data.Set.Function
import Offload.Proofs.Buffer.Size

/-! The row-major order of array elements. The index that a kernel computes is the place of
the element, and the places of the elements number the array without gaps or repetition. -/

namespace Offload

/-- The positions inside of these extents. -/
def Box (extents : List Int) : Set (List Int) :=
  {position | List.Forall₂ (fun i n => 0 ≤ i ∧ i < n) position extents}

/-- The numbers below the number of elements. -/
def places (extents : List Int) : Set Int := {place | 0 ≤ place ∧ place < product extents}

/-- The place of a position in row-major order: every index counts blocks as large as the
extents after it. -/
def rowMajor (extents position : List Int) : Int :=
  ∑ k ∈ Finset.range position.length, position.getD k 0 * product (extents.drop (k + 1))

/-- The position with a place. -/
def positionAt : List Int → Int → List Int
  | [], _ => []
  | _ :: extents, place => place / product extents :: positionAt extents (place % product extents)

theorem mem_box_append {extents others point : List Int} :
    point ∈ Box (extents ++ others) ↔
      ∃ first ∈ Box extents, ∃ second ∈ Box others, point = first ++ second := by
  constructor
  · intro inside
    exact ⟨point.take extents.length, List.forall₂_take_append point extents others inside,
      point.drop extents.length, List.forall₂_drop_append point extents others inside,
      (List.take_append_drop _ _).symm⟩
  · rintro ⟨first, inside, second, beside, rfl⟩
    exact List.rel_append inside beside

theorem box_nil : Box [] = {[]} := by
  ext point
  exact List.forall₂_nil_right_iff

theorem length_of_mem_box {extents point : List Int} (inside : point ∈ Box extents) :
    point.length = extents.length :=
  List.Forall₂.length_eq inside

@[simp] theorem rowMajor_nil (extents : List Int) : rowMajor extents [] = 0 := rfl

@[simp] theorem rowMajor_cons (n i : Int) (extents position : List Int) :
    rowMajor (n :: extents) (i :: position) = i * product extents + rowMajor extents position := by
  rw [rowMajor, List.length_cons, Finset.sum_range_succ', add_comm]
  rfl

theorem rowMajor_mem {extents position : List Int} (inside : position ∈ Box extents) :
    rowMajor extents position ∈ places extents := by
  induction inside with
  | nil => exact ⟨Int.le_refl 0, Int.one_pos⟩
  | @cons i n position extents bounds inside ih =>
    obtain ⟨least, most⟩ := ih
    obtain ⟨nonneg, below⟩ := bounds
    have positive : 0 ≤ product extents := Int.le_trans least (Int.le_of_lt most)
    have blocks : 0 ≤ i * product extents := Int.mul_nonneg nonneg positive
    have whole : (i + 1) * product extents ≤ n * product extents :=
      Int.mul_le_mul_of_nonneg_right below positive
    rw [Int.add_mul, Int.one_mul] at whole
    rw [rowMajor_cons]
    refine ⟨by omega, ?_⟩
    rw [product]
    omega

theorem positionAt_rowMajor {extents position : List Int} (inside : position ∈ Box extents) :
    positionAt extents (rowMajor extents position) = position := by
  induction inside with
  | nil => rfl
  | @cons i n position extents bounds inside ih =>
    obtain ⟨least, most⟩ := rowMajor_mem inside
    have positive : 0 < product extents := Int.lt_of_le_of_lt least most
    obtain ⟨block, rest⟩ := (Int.ediv_emod_unique positive).mpr
      ⟨Int.add_comm (rowMajor extents position) (product extents * i), least, most⟩
    rw [rowMajor_cons, Int.mul_comm, positionAt, block, rest, ih]

section Positive

variable {extents : List Int}

theorem product_pos (each : ∀ n ∈ extents, 0 < n) : 0 < product extents := one_le_product each

theorem emod_mem_places (positive : 0 < product extents) (n : Int) :
    n % product extents ∈ places extents :=
  ⟨Int.emod_nonneg n (Int.ne_of_gt positive), Int.emod_lt_of_pos n positive⟩

private theorem positionAt_mem (each : ∀ n ∈ extents, 0 < n) {place : Int}
    (inside : place ∈ places extents) : positionAt extents place ∈ Box extents := by
  induction extents generalizing place with
  | nil => exact .nil
  | cons n extents ih =>
    obtain ⟨head, tail⟩ := List.forall_mem_cons.mp each
    have positive := product_pos tail
    refine .cons ⟨?_, ?_⟩ (ih tail (emod_mem_places positive place))
    · exact Int.ediv_nonneg inside.1 (Int.le_of_lt positive)
    · exact Int.ediv_lt_of_lt_mul positive inside.2

theorem rowMajor_positionAt (each : ∀ n ∈ extents, 0 < n) {place : Int}
    (inside : place ∈ places extents) :
    rowMajor extents (positionAt extents place) = place := by
  induction extents generalizing place with
  | nil =>
    obtain ⟨least, most⟩ := inside
    rw [product] at most
    rw [positionAt, rowMajor_nil]
    omega
  | cons n extents ih =>
    obtain ⟨head, tail⟩ := List.forall_mem_cons.mp each
    have positive := product_pos tail
    rw [positionAt, rowMajor_cons, ih tail (emod_mem_places positive place), Int.mul_comm]
    exact Int.mul_ediv_add_emod place (product extents)

theorem bijOn_rowMajor (each : ∀ n ∈ extents, 0 < n) :
    Set.BijOn (rowMajor extents) (Box extents) (places extents) :=
  Set.InvOn.bijOn ⟨fun _ inside => positionAt_rowMajor inside,
    fun _ inside => rowMajor_positionAt each inside⟩
    (fun _ inside => rowMajor_mem inside) fun _ inside => positionAt_mem each inside

end Positive

section Index

variable {names : String → Int}

/-- Every further dimension scales the place so far by its extent and adds its index. -/
private theorem exact_foldl {indices extents : List Expr} {position sizes : List Int}
    (same : indices.length = extents.length) (found : Expr.exactAll names indices = some position)
    (known : Expr.exactAll names extents = some sizes) {outer : Expr} {place : Int}
    (start : outer.exact names = some place) :
    ((indices.zip extents).foldl
      (fun outer (index, extent) => .bin .add (.bin .mul outer extent) index) outer).exact names =
      some (place * product sizes + rowMajor sizes position) := by
  induction indices generalizing extents position sizes outer place with
  | nil =>
    cases extents with
    | nil =>
      cases found
      cases known
      rw [rowMajor_nil, product, Int.mul_one, Int.add_zero]
      exact start
    | cons extent extents => cases same
  | cons index indices ih =>
    cases extents with
    | nil => cases same
    | cons extent extents =>
      obtain ⟨i, position, rfl, first, found⟩ := Expr.exactAll_cons.mp found
      obtain ⟨n, sizes, rfl, size, known⟩ := Expr.exactAll_cons.mp known
      have next : (Expr.bin .add (.bin .mul outer extent) index).exact names =
          some (place * n + i) := by
        rw [Expr.exact, Expr.exact, start, size, first]
        rfl
      rw [List.zip_cons_cons, List.foldl_cons, ih (Nat.succ.inj same) found known next,
        rowMajor_cons, product, Int.add_mul, Int.mul_assoc, Int.add_assoc]

private theorem ArrayDecl.exact_linearIndex {array : ArrayDecl} {extents : List Int}
    (known : Expr.exactAll names array.extents = some extents) {indices : List Expr}
    {position : List Int} (full : indices.length = array.rank)
    (found : Expr.exactAll names indices = some position) :
    (array.linearIndex indices).exact names = some (rowMajor extents position) := by
  unfold linearIndex
  unfold rank at full
  generalize array.extents = sizes at known full
  cases indices with
  | nil =>
    cases found
    rfl
  | cons index indices =>
    cases sizes with
    | nil => cases full
    | cons size sizes =>
      obtain ⟨i, position, rfl, first, found⟩ := Expr.exactAll_cons.mp found
      obtain ⟨n, extents, rfl, -, known⟩ := Expr.exactAll_cons.mp known
      rw [List.zip_cons_cons, rowMajor_cons]
      exact exact_foldl (Nat.succ.inj full) found known first

end Index

/-- Row-major linearisation is exact and one to one: the index that is computed for a
position is its place, and the places of the positions inside of positive extents are the
numbers below the number of elements, each of them once. -/
theorem ArrayDecl.row_major_bijective (array : ArrayDecl) (names : String → Int)
    (extents : List Int) (known : Expr.exactAll names array.extents = some extents) :
    (∀ indices position, indices.length = array.rank →
      Expr.exactAll names indices = some position →
        (array.linearIndex indices).exact names = some (rowMajor extents position)) ∧
      ((∀ n ∈ extents, 0 < n) →
        Set.BijOn (rowMajor extents) (Box extents) (places extents)) :=
  ⟨fun _ _ full found => exact_linearIndex known full found, bijOn_rowMajor⟩

/-- The last element of a cuboid with a named extent. -/
theorem ArrayDecl.row_major_in_cuboid :
    let array := ArrayDecl.declare "A" "float" [.lit 2, .var "N", .lit 4] ["N"]
    let indices := [.lit 1, .bin .sub (.var "N") (.lit 1), .lit 3]
    (array.linearIndex indices).exact (fun _ => 3) = some 23 ∧
      Set.BijOn (rowMajor [2, 3, 4]) (Box [2, 3, 4]) {place | 0 ≤ place ∧ place < 24} := by
  intro array indices
  obtain ⟨placed, numbered⟩ := row_major_bijective array (fun _ => 3) [2, 3, 4] rfl
  exact ⟨placed indices [1, 2, 3] rfl rfl, numbered (by decide)⟩

end Offload
