import Offload.Proofs.Expr.Folding
import Offload.Region.Algebra

namespace Offload

/-- A constraint that folds to zero holds nowhere. -/
theorem Expr.not_holds_of_neverHolds {e : Expr} (never : e.neverHolds = true)
    (names : String → Option Int) : ¬ e.Holds names := by
  rintro ⟨n, found, nonzero⟩
  have zero := value_of_constant? (beq_iff_eq.mp never) names
  exact nonzero (Option.some.inj (found.symm.trans zero))

/-- A constraint that folds to another constant holds everywhere. -/
theorem Expr.holds_of_alwaysHolds {e : Expr} (always : e.alwaysHolds = true)
    (names : String → Option Int) : e.Holds names := by
  obtain ⟨n, folded, nonzero⟩ := (Option.any_eq_true _ _).mp always
  exact ⟨n, value_of_constant? folded names, bne_iff_ne.mp nonzero⟩

/-- All constraints of the piece hold. -/
def Piece.Holds (names : String → Option Int) (piece : Piece) : Prop :=
  ∀ constraint ∈ piece, constraint.Holds names

instance (names : String → Option Int) (piece : Piece) : Decidable (piece.Holds names) :=
  inferInstanceAs (Decidable (∀ constraint ∈ piece, constraint.Holds names))

namespace Region

/-- Some piece of the region holds. -/
def Holds (names : String → Option Int) (region : Region) : Prop :=
  ∃ piece ∈ region.pieces, Piece.Holds names piece

instance (names : String → Option Int) (region : Region) : Decidable (region.Holds names) :=
  inferInstanceAs (Decidable (∃ piece ∈ region.pieces, Piece.Holds names piece))

/-- Every constraint of the region has a value. -/
def Valued (names : String → Option Int) (region : Region) : Prop :=
  ∀ piece ∈ region.pieces, ∀ constraint ∈ piece, (constraint.value names).isSome

instance (names : String → Option Int) (region : Region) : Decidable (region.Valued names) :=
  inferInstanceAs (Decidable
    (∀ piece ∈ region.pieces, ∀ constraint ∈ piece, (constraint.value names).isSome))

end Region

section Pieces

variable {names : String → Option Int}

theorem Piece.holds_append {first second : Piece} :
    Piece.Holds names (first ++ second) ↔ first.Holds names ∧ second.Holds names := by
  simp [Holds, or_imp, forall_and]

/-- A piece holds where its simplified form does, and nowhere if it has none. -/
theorem Piece.holds_iff_simplify (piece : Piece) :
    piece.Holds names ↔ ∃ simple, piece.simplify = some simple ∧ simple.Holds names := by
  by_cases never : piece.any Expr.neverHolds = true
  · obtain ⟨constraint, member, zero⟩ := List.any_eq_true.mp never
    constructor
    · intro holds
      exact absurd (holds constraint member) (Expr.not_holds_of_neverHolds zero names)
    · simp [simplify, never]
  · have form : piece.simplify = some (piece.filter (!Expr.alwaysHolds ·)) := by
      simp [simplify, never]
    constructor
    · intro holds
      exact ⟨_, form, fun constraint member => holds constraint (List.mem_filter.mp member).1⟩
    · rintro ⟨simple, same, holds⟩ constraint member
      obtain rfl := Option.some.inj (form.symm.trans same)
      by_cases always : constraint.alwaysHolds = true
      · exact Expr.holds_of_alwaysHolds always names
      · exact holds constraint (List.mem_filter.mpr ⟨member, by simpa using always⟩)

end Pieces

namespace Region

variable {names : String → Option Int}

private theorem not_holds_of_isRefuted {region : Region} (refuted : region.isRefuted = true) :
    ¬ region.Holds names := by
  rintro ⟨piece, member, holds⟩
  obtain ⟨constraint, inside, never⟩ := List.any_eq_true.mp (List.all_eq_true.mp refuted _ member)
  exact Expr.not_holds_of_neverHolds never names (holds constraint inside)

theorem holds_of_isTrivial {region : Region} (trivial : region.isTrivial = true) :
    region.Holds names := by
  obtain ⟨piece, member, always⟩ := List.any_eq_true.mp trivial
  exact ⟨piece, member, fun constraint inside =>
    Expr.holds_of_alwaysHolds (List.all_eq_true.mp always constraint inside) names⟩

theorem holds_union_iff {a b : Region} :
    (a.union b).Holds names ↔ a.Holds names ∨ b.Holds names := by
  simp [Holds, union, or_and_right, exists_or]

theorem holds_intersect_iff {a b : Region} :
    (a.intersect b).Holds names ↔
      a.space.compatible b.space = true ∧ a.Holds names ∧ b.Holds names := by
  unfold intersect
  split
  · rename_i same
    constructor
    · rintro ⟨piece, member, holds⟩
      obtain ⟨p, left, rest⟩ := List.mem_flatMap.mp member
      obtain ⟨q, right, form⟩ := List.mem_filterMap.mp rest
      obtain ⟨first, second⟩ :=
        Piece.holds_append.mp ((Piece.holds_iff_simplify (p ++ q)).mpr ⟨piece, form, holds⟩)
      exact ⟨same, ⟨p, left, first⟩, ⟨q, right, second⟩⟩
    · rintro ⟨_, ⟨p, left, first⟩, ⟨q, right, second⟩⟩
      obtain ⟨piece, form, holds⟩ :=
        (Piece.holds_iff_simplify (p ++ q)).mp (Piece.holds_append.mpr ⟨first, second⟩)
      exact ⟨piece, List.mem_flatMap.mpr ⟨p, left, List.mem_filterMap.mpr ⟨q, right, form⟩⟩, holds⟩
  · rename_i different
    constructor
    · rintro ⟨piece, member, _⟩
      cases member
    · rintro ⟨same, _⟩
      exact absurd same different

/-- What every piece of a context says holds where the context does. -/
theorem holds_of_implies {context : Region} {constraint : Expr}
    (implied : context.implies constraint = true) (known : context.Holds names) :
    constraint.Holds names := by
  obtain ⟨piece, member, holds⟩ := known
  have everywhere := (Bool.and_eq_true _ _ ▸ implied).2
  exact holds constraint (List.contains_iff_mem.mp (List.all_eq_true.mp everywhere piece member))

theorem holds_gist_iff {region context : Region} (known : context.Holds names) :
    (region.gist context).Holds names ↔ region.Holds names := by
  -- Leaving out what the context implies changes no piece where the context holds.
  have kept (piece : Piece) :
      Piece.Holds names (piece.filter (!context.implies ·)) ↔ piece.Holds names := by
    constructor
    · intro holds constraint member
      by_cases implied : context.implies constraint = true
      · exact holds_of_implies implied known
      · exact holds constraint (List.mem_filter.mpr ⟨member, by simpa using implied⟩)
    · exact fun holds constraint member => holds constraint (List.mem_filter.mp member).1
  constructor
  · rintro ⟨simple, member, holds⟩
    obtain ⟨piece, inside, form⟩ := List.mem_filterMap.mp member
    exact ⟨piece, inside, (kept piece).mp ((Piece.holds_iff_simplify _).mpr ⟨simple, form, holds⟩)⟩
  · rintro ⟨piece, inside, holds⟩
    obtain ⟨simple, form, inner⟩ := (Piece.holds_iff_simplify _).mp ((kept piece).mpr holds)
    exact ⟨simple, List.mem_filterMap.mpr ⟨piece, inside, form⟩, inner⟩

/-- Simplifying under a context leaves no constraint that was not there. -/
theorem exists_of_mem_gist {region context : Region} {simple : Piece} {constraint : Expr}
    (member : simple ∈ (region.gist context).pieces) (inside : constraint ∈ simple) :
    ∃ piece ∈ region.pieces, constraint ∈ piece := by
  obtain ⟨piece, listed, form⟩ := List.mem_filterMap.mp member
  unfold Piece.simplify at form
  split at form
  · cases form
  · cases form
    exact ⟨piece, listed, (List.mem_filter.mp (List.mem_filter.mp inside).1).1⟩

theorem Valued.gist {region : Region} (valued : region.Valued names) (context : Region) :
    (region.gist context).Valued names := by
  intro simple member constraint inside
  obtain ⟨piece, listed, kept⟩ := exists_of_mem_gist member inside
  exact valued piece listed constraint kept

private theorem holds_foldl_union_iff {start : Region} {regions : List Region} :
    (regions.foldl union start).Holds names ↔
      start.Holds names ∨ ∃ region ∈ regions, region.Holds names := by
  induction regions generalizing start with
  | nil => simp
  | cons region rest ih => simp [ih, holds_union_iff, or_assoc]

/-- A chain of one operator decides what the operator makes of the parts. -/
theorem decides_foldl {op : Operator} {combine : Prop → Prop → Prop}
    (combines : ∀ {a b : Expr} {p q : Prop}, a.Decides names p → b.Decides names q →
      (Expr.bin op a b).Decides names (combine p q))
    {meaning : Expr → Prop} {parts : List Expr}
    (each : ∀ part ∈ parts, part.Decides names (meaning part)) {first : Expr} {p : Prop}
    (start : first.Decides names p) :
    (parts.foldl (.bin op) first).Decides names
      (parts.foldl (fun q part => combine q (meaning part)) p) := by
  induction parts generalizing first p with
  | nil => exact start
  | cons part rest ih =>
    have here := combines start (each part List.mem_cons_self)
    exact ih (fun other member => each other (List.mem_cons_of_mem part member)) here

private theorem foldl_and_iff {parts : List Expr} {meaning : Expr → Prop} {p : Prop} :
    parts.foldl (fun q part => q ∧ meaning part) p ↔ p ∧ ∀ part ∈ parts, meaning part := by
  induction parts generalizing p with
  | nil => simp
  | cons part rest ih => simp [ih, and_assoc]

private theorem foldl_or_iff {parts : List Expr} {meaning : Expr → Prop} {p : Prop} :
    parts.foldl (fun q part => q ∨ meaning part) p ↔ p ∨ ∃ part ∈ parts, meaning part := by
  induction parts generalizing p with
  | nil => simp
  | cons part rest ih => simp [ih, or_assoc]

private theorem decides_joined_and {parts : List Expr} {meaning : Expr → Prop}
    (each : ∀ part ∈ parts, part.Decides names (meaning part)) :
    (joined .and 1 parts).Decides names (∀ part ∈ parts, meaning part) := by
  cases parts with
  | nil => exact ⟨1, rfl, by simp⟩
  | cons first rest =>
    obtain ⟨head, tail⟩ := List.forall_mem_cons.mp each
    exact (decides_foldl Expr.Decides.and tail head).congr
      (foldl_and_iff.trans List.forall_mem_cons.symm)

private theorem decides_joined_or {parts : List Expr} {meaning : Expr → Prop}
    (each : ∀ part ∈ parts, part.Decides names (meaning part)) :
    (joined .or 0 parts).Decides names (∃ part ∈ parts, meaning part) := by
  cases parts with
  | nil => exact ⟨0, rfl, by simp⟩
  | cons first rest =>
    obtain ⟨head, tail⟩ := List.forall_mem_cons.mp each
    exact (decides_foldl Expr.Decides.or tail head).congr (foldl_or_iff.trans (by simp))

/-- The condition of a region says whether the region holds. -/
theorem decides_condition {region : Region} (valued : region.Valued names) :
    region.condition.Decides names (region.Holds names) := by
  have each : ∀ piece ∈ region.pieces,
      (joined .and 1 piece).Decides names (Piece.Holds names piece) := fun piece member =>
    decides_joined_and fun constraint inside =>
      Expr.decides_holds (valued piece member constraint inside)
  have conjunctions : ∀ part ∈ region.pieces.map (joined .and 1),
      part.Decides names (part.Holds names) := by
    intro part member
    obtain ⟨piece, inside, rfl⟩ := List.mem_map.mp member
    exact (each piece inside).congr (each piece inside).holds_iff.symm
  refine (decides_joined_or conjunctions).congr ?_
  constructor
  · rintro ⟨part, member, holds⟩
    obtain ⟨piece, inside, rfl⟩ := List.mem_map.mp member
    exact ⟨piece, inside, (each piece inside).holds_iff.mp holds⟩
  · rintro ⟨piece, inside, holds⟩
    exact ⟨_, List.mem_map_of_mem inside, (each piece inside).holds_iff.mpr holds⟩

end Region

theorem Footprint.holds_extract_iff {names : String → Option Int} {footprint : Footprint}
    {space : Space} :
    (footprint.extract space).Holds names ↔
      ∃ region ∈ footprint.regions, space.compatible region.space = true ∧ region.Holds names := by
  rw [extract, Region.holds_foldl_union_iff]
  simp [Region.Holds, Region.empty, and_assoc]

/-- The answers of the algebra are right where the names have these values. -/
structure Algebra.Sound (algebra : Algebra) (names : String → Option Int) : Prop where
  isEmpty : ∀ region, algebra.isEmpty region = true → ¬ region.Holds names
  isFull : ∀ region, algebra.isFull region = true → region.Holds names
  intersect : ∀ a b, (algebra.intersect a b).Holds names ↔
    a.space.compatible b.space = true ∧ a.Holds names ∧ b.Holds names
  gist : ∀ region context, context.Holds names →
    ((algebra.gist region context).Holds names ↔ region.Holds names)

/-- Whatever values the names have, the algebra answers rightly, unions and the parts
of a footprint hold where they should, and the condition of a region decides it. -/
theorem syntactic_sound (names : String → Option Int) :
    Algebra.syntactic.Sound names ∧
      (∀ a b : Region, (a.union b).Holds names ↔ a.Holds names ∨ b.Holds names) ∧
      (∀ (footprint : Footprint) (space : Space), (footprint.extract space).Holds names ↔
        ∃ region ∈ footprint.regions,
          space.compatible region.space = true ∧ region.Holds names) ∧
      ∀ region : Region, region.Valued names →
        ∃ n, region.condition.value names = some n ∧ (n ≠ 0 ↔ region.Holds names) := by
  refine ⟨?_, fun _ _ => Region.holds_union_iff, fun _ _ => Footprint.holds_extract_iff,
    fun _ => Region.decides_condition⟩
  exact {
    isEmpty := fun _ => Region.not_holds_of_isRefuted
    isFull := fun _ => Region.holds_of_isTrivial
    intersect := fun _ _ => Region.holds_intersect_iff
    gist := fun _ _ => Region.holds_gist_iff }

namespace Sample

/-- Two pieces, one of which has a constraint that always holds. -/
def region : Region :=
  ⟨.ofParams ["N"], [[.bin .ge (.var "N") (.lit 1), .bin .lt (.lit 1) (.lit 2)],
    [.bin .lt (.var "N") (.lit 0)]]⟩

/-- Two pieces with one constraint in common. -/
def context : Region :=
  ⟨.ofParams ["N"], [[.bin .ge (.var "N") (.lit 1)],
    [.bin .lt (.var "N") (.lit 9), .bin .ge (.var "N") (.lit 1)]]⟩

/-- The length of the sample's array has a value, and no other name. -/
def namesAt (n : Int) : String → Option Int := fun x => if x = "N" then some n else none

end Sample

/-- The sample region at four: its first piece is settled under the context, and its
condition is not zero. -/
theorem syntactic_sound_at_four :
    Sample.context.Holds (Sample.namesAt 4) ∧
      (Sample.region.gist Sample.context).pieces = [[], [.bin .lt (.var "N") (.lit 0)]] ∧
      Sample.region.Holds (Sample.namesAt 4) ∧
      ∃ n, Sample.region.condition.value (Sample.namesAt 4) = some n ∧ n ≠ 0 := by
  obtain ⟨sound, _, _, conditions⟩ := syntactic_sound (Sample.namesAt 4)
  have known : Sample.context.Holds (Sample.namesAt 4) := by decide
  have simplified : (Sample.region.gist Sample.context).isTrivial = true := by decide
  have holds : Sample.region.Holds (Sample.namesAt 4) :=
    (sound.gist Sample.region Sample.context known).mp (sound.isFull _ simplified)
  obtain ⟨n, found, meaning⟩ := conditions Sample.region (by decide)
  exact ⟨known, by decide, holds, n, found, meaning.mpr holds⟩

end Offload
