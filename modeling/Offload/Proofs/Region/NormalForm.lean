import Mathlib.Data.List.Basic
import Offload.Region.Algebra

/-! The normal form of regions. What the syntactic algebra returns has no constraint left
that folds to a constant, so its answers can be read off the pieces, and neither a second
simplification nor another grouping of intersections changes them. -/

namespace Offload

theorem Space.compatible_iff {a b : Space} :
    a.compatible b = true ↔ a.tuple = b.tuple ∧ a.dims.length = b.dims.length := by
  rw [compatible, Bool.and_eq_true, beq_iff_eq, beq_iff_eq]

theorem Space.compatible_comm (a b : Space) : a.compatible b = b.compatible a := by
  rw [Bool.eq_iff_iff, compatible_iff, compatible_iff, eq_comm, @eq_comm Nat]

/-- Compatible spaces are compatible with the same spaces. -/
theorem Space.compatible_congr {a b : Space} (same : a.compatible b = true) (c : Space) :
    a.compatible c = b.compatible c := by
  obtain ⟨tuple, dims⟩ := compatible_iff.mp same
  rw [Bool.eq_iff_iff, compatible_iff, compatible_iff, tuple, dims]

/-- A constraint folds to no constant if it is neither settled as false nor as true. -/
theorem Expr.constant?_eq_none_iff {e : Expr} :
    e.constant? = none ↔ e.neverHolds = false ∧ e.alwaysHolds = false := by
  unfold neverHolds alwaysHolds
  cases e.constant? with
  | none => simp
  | some n => by_cases zero : n = 0 <;> simp [zero]

namespace Piece

/-- No constraint folds to a constant. -/
def Normal (piece : Piece) : Prop := ∀ constraint ∈ piece, constraint.constant? = none

private theorem simplify_of_possible {piece : Piece}
    (possible : piece.any Expr.neverHolds = false) :
    piece.simplify = some (piece.filter (!Expr.alwaysHolds ·)) := by
  simp [simplify, possible]

theorem simplify_eq_none_iff {piece : Piece} :
    piece.simplify = none ↔ piece.any Expr.neverHolds = true := by
  unfold simplify
  split <;> simp_all

theorem normal_of_simplify {piece simple : Piece} (form : piece.simplify = some simple) :
    simple.Normal := by
  intro constraint member
  unfold simplify at form
  split at form
  · cases form
  · rename_i possible
    cases form
    obtain ⟨inside, undecided⟩ := List.mem_filter.mp member
    rw [List.any_eq_true] at possible
    have never : constraint.neverHolds = false := by
      cases decided : constraint.neverHolds with
      | false => rfl
      | true => exact absurd ⟨constraint, inside, decided⟩ possible
    exact Expr.constant?_eq_none_iff.mpr ⟨never, by simpa using undecided⟩

theorem Normal.simplify {piece : Piece} (normal : piece.Normal) :
    piece.simplify = some piece := by
  have possible : piece.any Expr.neverHolds = false := by
    rw [List.any_eq_false]
    intro constraint member
    simp [(Expr.constant?_eq_none_iff.mp (normal constraint member)).1]
  rw [simplify_of_possible possible, List.filter_eq_self.mpr]
  intro constraint member
  simp [(Expr.constant?_eq_none_iff.mp (normal constraint member)).2]

/-- A joined piece is simplified part by part, and has a form if both parts have one. -/
theorem simplify_append (first second : Piece) :
    simplify (first ++ second) =
      first.simplify.bind fun p => second.simplify.map fun q => p ++ q := by
  cases left : first.any Expr.neverHolds with
  | true => simp [simplify, left]
  | false =>
    cases right : second.any Expr.neverHolds with
    | true => simp [simplify, left, right]
    | false => simp [simplify, left, right]

/-- Simplifying the first part beforehand changes nothing. -/
theorem simplify_bind_append (first second : Piece) :
    (first.simplify.bind fun p => simplify (p ++ second)) = simplify (first ++ second) := by
  rw [simplify_append]
  cases form : first.simplify with
  | none => rfl
  | some p => simp [simplify_append, (normal_of_simplify form).simplify]

/-- Simplifying the second part beforehand changes nothing. -/
theorem simplify_append_bind (first second : Piece) :
    (second.simplify.bind fun q => simplify (first ++ q)) = simplify (first ++ second) := by
  rw [simplify_append]
  cases form : second.simplify with
  | none => simp
  | some q => simp [simplify_append, (normal_of_simplify form).simplify]

end Piece

namespace Region

attribute [ext] Region

/-- No constraint of the region folds to a constant. -/
def Normal (region : Region) : Prop := ∀ piece ∈ region.pieces, Piece.Normal piece

theorem normal_intersect (a b : Region) : (a.intersect b).Normal := by
  intro simple member
  unfold intersect at member
  split at member
  · obtain ⟨p, _, rest⟩ := List.mem_flatMap.mp member
    obtain ⟨q, _, form⟩ := List.mem_filterMap.mp rest
    exact Piece.normal_of_simplify form
  · cases member

theorem normal_gist (region context : Region) : (region.gist context).Normal := by
  intro simple member
  obtain ⟨piece, _, form⟩ := List.mem_filterMap.mp member
  exact Piece.normal_of_simplify form

section Normal

variable {region : Region} (normal : region.Normal)

include normal

theorem Normal.isRefuted_iff : region.isRefuted = true ↔ region.pieces = [] := by
  constructor
  · intro refuted
    apply List.eq_nil_iff_forall_not_mem.mpr
    intro piece member
    obtain ⟨constraint, inside, never⟩ :=
      List.any_eq_true.mp (List.all_eq_true.mp refuted piece member)
    have undecided := Expr.constant?_eq_none_iff.mp (normal piece member constraint inside)
    exact Bool.false_ne_true (undecided.1.symm.trans never)
  · intro none
    simp [isRefuted, none]

theorem Normal.isTrivial_iff : region.isTrivial = true ↔ [] ∈ region.pieces := by
  constructor
  · intro trivial
    obtain ⟨piece, member, always⟩ := List.any_eq_true.mp trivial
    have empty : piece = [] := by
      apply List.eq_nil_iff_forall_not_mem.mpr
      intro constraint inside
      have undecided := Expr.constant?_eq_none_iff.mp (normal piece member constraint inside)
      exact Bool.false_ne_true (undecided.2.symm.trans (List.all_eq_true.mp always _ inside))
    exact empty ▸ member
  · intro member
    exact List.any_eq_true.mpr ⟨[], member, rfl⟩

/-- Simplifying the pieces of a normal region finds nothing to drop. -/
theorem Normal.filterMap_simplify : region.pieces.filterMap Piece.simplify = region.pieces := by
  refine (List.filterMap_congr fun piece member => ?_).trans List.filterMap_some
  exact (normal piece member).simplify

end Normal

@[simp] theorem space_intersect (a b : Region) : (a.intersect b).space = a.space := by
  unfold intersect
  split <;> rfl

theorem intersect_of_compatible {a b : Region} (same : a.space.compatible b.space = true) :
    a.intersect b = ⟨a.space, a.pieces.flatMap fun p =>
      b.pieces.flatMap fun q => (Piece.simplify (p ++ q)).toList⟩ := by
  simp only [intersect, same, ↓reduceIte, List.filterMap_eq_flatMap_toList]

theorem intersect_of_incompatible {a b : Region} (different : a.space.compatible b.space = false) :
    a.intersect b = empty a.space := by
  simp [intersect, different]

section Full

variable {space : Space} {region : Region}

/-- A full region leaves of another one what simplifying its pieces leaves. -/
theorem full_intersect_pieces (same : space.compatible region.space = true) :
    ((full space).intersect region).pieces = region.pieces.filterMap Piece.simplify := by
  rw [intersect_of_compatible (show (full space).space.compatible region.space = true from same)]
  simp only [full, List.flatMap_singleton, List.nil_append, ← List.filterMap_eq_flatMap_toList]

private theorem intersect_full_pieces (same : region.space.compatible space = true) :
    (region.intersect (full space)).pieces = region.pieces.filterMap Piece.simplify := by
  rw [intersect_of_compatible (show region.space.compatible (full space).space = true from same)]
  simp only [full, List.flatMap_singleton, List.append_nil, ← List.filterMap_eq_flatMap_toList]

end Full

@[simp] theorem empty_intersect (space : Space) (region : Region) :
    (empty space).intersect region = empty space := by
  unfold intersect
  split <;> rfl

@[simp] theorem intersect_empty (region : Region) (space : Space) :
    region.intersect (empty space) = empty region.space := by
  unfold intersect
  split <;> simp [empty]

/-- The pieces of three compatible regions, joined and simplified in one go. -/
def commonPieces (a b c : Region) : List Piece :=
  a.pieces.flatMap fun p => b.pieces.flatMap fun q => c.pieces.flatMap fun r =>
    (Piece.simplify (p ++ q ++ r)).toList

section Common

variable {a b c : Region} (first : a.space.compatible b.space = true)
  (second : b.space.compatible c.space = true)

include first second

private theorem intersect_intersect_pieces :
    ((a.intersect b).intersect c).pieces = commonPieces a b c := by
  have outer : (a.intersect b).space.compatible c.space = true := by
    rw [space_intersect, Space.compatible_congr first, second]
  rw [intersect_of_compatible outer, intersect_of_compatible first]
  simp only [List.flatMap_assoc, commonPieces]
  refine List.flatMap_congr fun p _ => List.flatMap_congr fun q _ => ?_
  simp only [← Piece.simplify_bind_append (p ++ q)]
  cases Piece.simplify (p ++ q) <;> simp

private theorem intersect_pieces_intersect :
    (a.intersect (b.intersect c)).pieces = commonPieces a b c := by
  have outer : a.space.compatible (b.intersect c).space = true := by rw [space_intersect, first]
  rw [intersect_of_compatible outer, intersect_of_compatible second]
  simp only [List.flatMap_assoc, commonPieces]
  refine List.flatMap_congr fun p _ => List.flatMap_congr fun q _ =>
    List.flatMap_congr fun r _ => ?_
  rw [List.append_assoc, ← Piece.simplify_append_bind p (q ++ r)]
  cases Piece.simplify (q ++ r) <;> simp

end Common

/-- Grouping does not matter, whatever the spaces are. -/
theorem intersect_assoc (a b c : Region) :
    (a.intersect b).intersect c = a.intersect (b.intersect c) := by
  cases first : a.space.compatible b.space with
  | false =>
    have outer : a.space.compatible (b.intersect c).space = false := by rw [space_intersect, first]
    rw [intersect_of_incompatible first, intersect_of_incompatible outer, empty_intersect]
  | true =>
    cases second : b.space.compatible c.space with
    | false =>
      have outer : (a.intersect b).space.compatible c.space = false := by
        rw [space_intersect, Space.compatible_congr first, second]
      rw [intersect_of_incompatible outer, intersect_of_incompatible second, intersect_empty,
        space_intersect]
    | true =>
      apply Region.ext
      · simp only [space_intersect]
      · rw [intersect_intersect_pieces first second, intersect_pieces_intersect first second]

/-- What is left of a region under a context is not implied by the context. -/
theorem not_implies_of_mem_gist {region context : Region} {simple : Piece} {constraint : Expr}
    (member : simple ∈ (region.gist context).pieces) (inside : constraint ∈ simple) :
    context.implies constraint = false := by
  obtain ⟨piece, _, form⟩ := List.mem_filterMap.mp member
  unfold Piece.simplify at form
  split at form
  · cases form
  · cases form
    simpa using (List.mem_filter.mp (List.mem_filter.mp inside).1).2

/-- A second simplification under the same context finds nothing to drop. -/
theorem gist_gist (region context : Region) :
    (region.gist context).gist context = region.gist context := by
  have kept : ∀ simple ∈ (region.gist context).pieces,
      Piece.simplify (simple.filter (!context.implies ·)) = some simple := by
    intro simple member
    have unimplied : simple.filter (!context.implies ·) = simple := by
      apply List.filter_eq_self.mpr
      intro constraint inside
      rw [not_implies_of_mem_gist member inside, Bool.not_false]
    rw [unimplied, (normal_gist region context simple member).simplify]
  exact Region.ext rfl ((List.filterMap_congr kept).trans List.filterMap_some)

/-- The region is in normal form, and the algebra answers as its pieces show: it is empty
if it has none, full if one of them is, and unchanged by a full region. -/
structure Normalized (algebra : Algebra) (region : Region) : Prop where
  undecided : ∀ piece ∈ region.pieces, ∀ constraint ∈ piece, constraint.constant? = none
  isEmpty : algebra.isEmpty region = true ↔ region.pieces = []
  isFull : algebra.isFull region = true ↔ [] ∈ region.pieces
  intersect_full : ∀ space, region.space.compatible space = true →
    (algebra.intersect region (full space)).pieces = region.pieces
  full_intersect : ∀ space, region.space.compatible space = true →
    (algebra.intersect (full space) region).pieces = region.pieces

theorem Normal.normalized {region : Region} (normal : region.Normal) :
    region.Normalized .syntactic where
  undecided := normal
  isEmpty := normal.isRefuted_iff
  isFull := normal.isTrivial_iff
  intersect_full _ same := (intersect_full_pieces same).trans normal.filterMap_simplify
  full_intersect space same :=
    (full_intersect_pieces ((Space.compatible_comm space region.space).trans same)).trans
      normal.filterMap_simplify

end Region

/-- What the syntactic algebra returns is in normal form. Simplifying it again under the
same context changes nothing, and intersections may be grouped in any way. -/
theorem syntactic_normalizes :
    (∀ a b : Region, (Algebra.syntactic.intersect a b).Normalized .syntactic) ∧
      (∀ region context : Region,
        (Algebra.syntactic.gist region context).Normalized .syntactic) ∧
      (∀ region context : Region,
        Algebra.syntactic.gist (Algebra.syntactic.gist region context) context =
          Algebra.syntactic.gist region context) ∧
      ∀ a b c : Region,
        Algebra.syntactic.intersect (Algebra.syntactic.intersect a b) c =
          Algebra.syntactic.intersect a (Algebra.syntactic.intersect b c) :=
  ⟨fun a b => (Region.normal_intersect a b).normalized,
    fun region context => (Region.normal_gist region context).normalized,
    Region.gist_gist, Region.intersect_assoc⟩

end Offload
