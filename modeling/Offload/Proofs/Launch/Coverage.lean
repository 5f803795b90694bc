import Offload.Proofs.Launch.WorkItem

/-! Which launches run their schedule. A launch is right for all sizes if its shape is: the
points of the schedule are then the indices of the work-items. -/

namespace Offload

open Code

/-- The launch is valid, and the indices that its work-items have at the start of the kernel
are the points of the schedule, each of them once. -/
structure Kernel.Covered (job : Job) (kernel : Kernel) (grid : List Int) (range : List Dimension) :
    Prop where
  valid : ∀ dim ∈ range, dim.Valid
  once : Set.BijOn (fun item : WorkItem => item.bound (kernel.prologue job)) (workItems range)
    ((fun point => some (kernel.indexNames.zip point)) '' Box (grid ++ kernel.blockSize))

private theorem Kernel.length_indexNames (kernel : Kernel) :
    kernel.indexNames.length = kernel.gridSize.length + kernel.blockSize.length := by
  simp [indexNames]

/-- Points with as many indices as there are names are told apart by the named indices. -/
theorem Kernel.zip_indexNames_inj {kernel : Kernel} {point other : List Int}
    (full : point.length = kernel.gridSize.length + kernel.blockSize.length)
    (alike : other.length = kernel.gridSize.length + kernel.blockSize.length)
    (same : some (kernel.indexNames.zip point) = some (kernel.indexNames.zip other)) :
    point = other := by
  rw [← kernel.length_indexNames] at full alike
  rw [← List.map_snd_zip (Nat.le_of_eq full), Option.some.inj same,
    List.map_snd_zip (Nat.le_of_eq alike)]

theorem Kernel.length_of_mem_schedule {kernel : Kernel} {grid point : List Int}
    (sized : grid.length = kernel.gridSize.length)
    (inside : point ∈ Box (grid ++ kernel.blockSize)) :
    point.length = kernel.gridSize.length + kernel.blockSize.length := by
  rw [length_of_mem_box inside, List.length_append, sized]

theorem Kernel.bijOn_bound {job : Job} {kernel : Kernel} {grid : List Int}
    {range : List Dimension} (sized : grid.length = kernel.gridSize.length)
    (indices : Set.BijOn
      (fun item : WorkItem => item.indices kernel.gridSize.length kernel.blockSize.length)
      (workItems range) (Box (grid ++ kernel.blockSize))) :
    Set.BijOn (fun item : WorkItem => item.bound (kernel.prologue job)) (workItems range)
      ((fun point => some (kernel.indexNames.zip point)) '' Box (grid ++ kernel.blockSize)) := by
  have distinct : Set.InjOn (fun point => some (kernel.indexNames.zip point))
      (Box (grid ++ kernel.blockSize)) := fun point inside other beside same =>
    zip_indexNames_inj (length_of_mem_schedule sized inside) (length_of_mem_schedule sized beside)
      same
  exact (distinct.bijOn_image.comp indices).congr fun item _ =>
    (item.bound_prologue job kernel).symm

section Range

variable {names : String → Int} {gridSize : List Expr} {grid block : List Int}

private theorem map_group_dimensions (grid block : List Int) :
    (dimensions grid block).map Dimension.group = block := by
  induction block generalizing grid with
  | nil => cases grid <;> rfl
  | cons t block ih => cases grid <;> exact congrArg (t :: ·) (ih _)

private theorem map_global_dimensions (block : List Int) :
    (dimensions [] block).map Dimension.global = block := by
  induction block with
  | nil => rfl
  | cons t block ih => exact congrArg (t :: ·) ih

private theorem workSizes_globalSizes (known : Expr.exactAll names gridSize = some grid)
    (fits : gridSize.length ≤ block.length) :
    (Geometry.globalSizes gridSize block).mapM (Term.workSize names) =
      some ((dimensions grid block).map Dimension.global) := by
  induction gridSize generalizing grid block with
  | nil =>
    cases known
    rw [Geometry.globalSizes, List.mapM_map, map_global_dimensions]
    exact List.mapM_pure.trans (congrArg some (List.map_id block))
  | cons g gridSize ih =>
    cases block with
    | nil => cases fits
    | cons t block =>
      obtain ⟨n, tail, rfl, size, inside⟩ := Expr.exactAll_cons.mp known
      rw [Geometry.globalSizes, List.mapM_cons, ih inside (Nat.le_of_succ_le_succ fits),
        Term.workSize, size]
      rfl

private theorem map_range_dimensions (range : List Dimension) :
    (List.range range.length).map (fun i => (⟨(range.map Dimension.global).getD i 0,
      (range.map Dimension.group).getD i 0⟩ : Dimension)) = range := by
  induction range with
  | nil => rfl
  | cons dim range ih =>
    rw [List.length_cons, List.range_succ_eq_map, List.map_cons, List.map_map]
    exact congrArg (dim :: ·) ih

private theorem Geometry.range?_ofSizes (known : Expr.exactAll names gridSize = some grid)
    (nonempty : gridSize ≠ []) (fits : gridSize.length ≤ block.length) :
    (ofSizes gridSize block).range? names = some (dimensions grid block) := by
  have length : (dimensions grid block).length = block.length := by
    rw [← List.length_map Dimension.group, map_group_dimensions]
  have whole := map_range_dimensions (dimensions grid block)
  rw [map_group_dimensions, length] at whole
  have present : block ≠ [] := by
    rintro rfl
    exact nonempty (List.eq_nil_of_length_eq_zero (Nat.le_zero.mp fits))
  have count : max 1 block.length = block.length :=
    Nat.max_eq_right (List.length_pos_iff.mpr present)
  simp only [range?, ofSizes, List.isEmpty_iff, nonempty, present, Bool.or_eq_true, or_self,
    ↓reduceIte, workSizes_globalSizes known fits, Option.map_some, count, whole]

private theorem valid_of_mem_dimensions (positive : ∀ g ∈ grid, 0 < g) (each : ∀ t ∈ block, 0 < t) :
    ∀ dim ∈ dimensions grid block, dim.Valid := by
  induction block generalizing grid with
  | nil => cases grid <;> exact nofun
  | cons t block ih =>
    obtain ⟨here, others⟩ := List.forall_mem_cons.mp each
    cases grid with
    | nil => exact List.forall_mem_cons.mpr ⟨⟨here, Int.dvd_refl t⟩, ih nofun others⟩
    | cons g grid =>
      obtain ⟨scale, later⟩ := List.forall_mem_cons.mp positive
      exact List.forall_mem_cons.mpr
        ⟨⟨Int.mul_pos scale here, Int.dvd_mul_left g t⟩, ih later others⟩

theorem Geometry.range?_without_block (gridSize : List Expr) :
    (ofSizes gridSize []).range? names = some [⟨1, 1⟩] := by
  cases gridSize <;> rfl

/-- Without a grid the first dimension has a single work-item, whatever its group. -/
theorem Geometry.mem_range_without_grid {t : Int} {range : List Dimension}
    (found : (ofSizes [] (t :: block)).range? names = some range) : ⟨1, t⟩ ∈ range := by
  obtain ⟨sizes, known, rfl⟩ := Option.map_eq_some_iff.mp found
  cases known
  have first : 0 < (ofSizes [] (t :: block)).workDim := Nat.le_max_left 1 _
  exact List.mem_map.mpr ⟨0, List.mem_range.mpr first, rfl⟩

/-- Beyond the dimensions of the block, all work-items are in the first group. -/
theorem group_beyond_block {range : List Dimension} {item : WorkItem} {i : Nat}
    (found : (Geometry.ofSizes gridSize block).range? names = some range)
    (member : item ∈ workItems range) (beyond : block.length ≤ i) : (item.place i).group = 0 := by
  by_cases outside : item.length ≤ i
  · rw [WorkItem.place, List.getD_eq_getElem?_getD, List.getElem?_eq_none outside]
    rfl
  have length : item.length = max 1 block.length := by
    obtain ⟨sizes, -, rfl⟩ := Option.map_eq_some_iff.mp found
    rw [List.Forall₂.length_eq member, List.length_map, List.length_range, Geometry.ofSizes]
  obtain ⟨empty, rfl⟩ : block.length = 0 ∧ i = 0 := by omega
  cases List.eq_nil_of_length_eq_zero empty
  rw [Geometry.range?_without_block] at found
  cases found
  rw [workItems_unit, Set.mem_singleton_iff] at member
  rw [member]
  rfl

end Range

section Covering

variable {job : Job} {kernel : Kernel} {names : String → Int} {grid : List Int}

private theorem Kernel.covered_of_length_le
    (known : Expr.exactAll names kernel.gridSize = some grid) (nonempty : kernel.gridSize ≠ [])
    (fits : kernel.gridSize.length ≤ kernel.blockSize.length) (positive : ∀ g ∈ grid, 0 < g)
    (each : ∀ t ∈ kernel.blockSize, 0 < t) :
    ∃ range, (Geometry.ofSizes kernel.gridSize kernel.blockSize).range? names = some range ∧
      kernel.Covered job grid range := by
  have sized := Expr.length_of_exactAll known
  have indices := bijOn_indices (sized ▸ fits) each
  rw [sized] at indices
  exact ⟨dimensions grid kernel.blockSize, Geometry.range?_ofSizes known nonempty fits,
    valid_of_mem_dimensions positive each, bijOn_bound sized indices⟩

private theorem Kernel.covered_of_empty (noGrid : kernel.gridSize = [])
    (noBlock : kernel.blockSize = []) : kernel.Covered job [] [⟨1, 1⟩] := by
  refine ⟨List.forall_mem_singleton.mpr (by decide), bijOn_bound (noGrid ▸ rfl) ?_⟩
  rw [noGrid, noBlock, workItems_unit, List.append_nil, box_nil]
  exact Set.bijOn_singleton.mpr rfl

/-- Where the schedule is covered, its grid does not extend beyond the block. -/
theorem Kernel.Covered.index_beyond_block {range : List Dimension}
    (found : (Geometry.ofSizes kernel.gridSize kernel.blockSize).range? names = some range)
    (covered : kernel.Covered job grid range) (sized : grid.length = kernel.gridSize.length)
    {point : List Int} (inside : point ∈ Box (grid ++ kernel.blockSize)) {i : Nat}
    (index : i < kernel.gridSize.length) (beyond : kernel.blockSize.length ≤ i) :
    point.getD i 0 = 0 := by
  obtain ⟨item, member, same⟩ := covered.once.surjOn (Set.mem_image_of_mem _ inside)
  have points := zip_indexNames_inj (item.length_indices _ _)
    (length_of_mem_schedule sized inside) ((item.bound_prologue job kernel).symm.trans same)
  have read : (item.indices kernel.gridSize.length kernel.blockSize.length).getD i 0 =
      (item.place i).group := by
    simp [WorkItem.indices, List.getElem?_append, index]
  rw [← points, read]
  exact group_beyond_block found member beyond

end Covering

namespace Kernel

/-- Two groups of two work-items in every dimension. -/
private def ofTwos (gridDims blockDims : Nat) : Kernel :=
  { (default : Kernel) with
    gridSize := List.replicate gridDims (.lit 2)
    blockSize := List.replicate blockDims 2 }

private theorem exactAll_replicate (names : String → Int) (n : Int) (count : Nat) :
    Expr.exactAll names (List.replicate count (.lit n)) = some (List.replicate count n) := by
  induction count with
  | zero => rfl
  | succ count ih => exact Expr.exactAll_cons.mpr ⟨n, _, rfl, rfl, ih⟩

private theorem ones_mem_box (count : Nat) :
    List.replicate count 1 ∈ Box (List.replicate count 2) := by
  induction count with
  | zero => exact .nil
  | succ count ih => exact .cons (by decide) ih

section Twos

variable {job : Job} {names : String → Int} {gridDims blockDims : Nat} {range : List Dimension}

private theorem grid_le_block_of_covered
    (found : (Geometry.ofSizes (ofTwos gridDims blockDims).gridSize
      (ofTwos gridDims blockDims).blockSize).range? names = some range)
    (covered : (ofTwos gridDims blockDims).Covered job (List.replicate gridDims 2) range) :
    gridDims ≤ blockDims := by
  refine Nat.le_of_not_lt fun more => ?_
  -- The last index of the grid is one somewhere in the schedule, but zero in all work-items.
  have inside : List.replicate (gridDims + blockDims) 1 ∈
      Box (List.replicate gridDims 2 ++ (ofTwos gridDims blockDims).blockSize) := by
    rw [ofTwos, List.replicate_append_replicate]
    exact ones_mem_box _
  have zero : (List.replicate (gridDims + blockDims) (1 : Int)).getD (gridDims - 1) 0 = 0 :=
    covered.index_beyond_block found (by simp [ofTwos]) inside (by simp [ofTwos]; omega)
      (by simp [ofTwos]; omega)
  have one : (List.replicate (gridDims + blockDims) (1 : Int)).getD (gridDims - 1) 0 = 1 := by
    rw [List.getD_eq_getElem?_getD, List.getElem?_replicate_of_lt (by omega)]
    rfl
  rw [one] at zero
  cases zero

private theorem block_empty_of_covered
    (found : (Geometry.ofSizes (ofTwos 0 blockDims).gridSize
      (ofTwos 0 blockDims).blockSize).range? names = some range)
    (covered : (ofTwos 0 blockDims).Covered job [] range) : blockDims = 0 := by
  cases blockDims with
  | zero => rfl
  | succ count =>
    have valid := covered.valid _ (Geometry.mem_range_without_grid found)
    exact absurd valid (by decide)

end Twos

end Kernel

/-- For which shapes a launch is right whatever the sizes: it is valid and runs every point of
the schedule once if the grid has a dimension and no more of them than the block, or if there
are no dimensions at all. With any other shape, some sizes go wrong. -/
theorem launch_covers_iff (job : Job) (names : String → Int) (gridDims blockDims : Nat) :
    (∀ (kernel : Kernel) (grid : List Int), kernel.gridSize.length = gridDims →
      kernel.blockSize.length = blockDims → Expr.exactAll names kernel.gridSize = some grid →
        (∀ g ∈ grid, 0 < g) → (∀ t ∈ kernel.blockSize, 0 < t) →
          ∃ range, (Geometry.ofSizes kernel.gridSize kernel.blockSize).range? names = some range ∧
            kernel.Covered job grid range) ↔
      (1 ≤ gridDims ∧ gridDims ≤ blockDims) ∨ (gridDims = 0 ∧ blockDims = 0) := by
  constructor
  · intro holds
    have positive (count : Nat) : ∀ n ∈ List.replicate count (2 : Int), 0 < n :=
      List.forall_mem_replicate.mpr (.inr (by decide))
    obtain ⟨range, found, covered⟩ := holds (Kernel.ofTwos gridDims blockDims) _
      List.length_replicate List.length_replicate (Kernel.exactAll_replicate names 2 gridDims)
      (positive gridDims) (positive blockDims)
    have fits := Kernel.grid_le_block_of_covered found covered
    rcases Nat.eq_zero_or_pos gridDims with rfl | nonempty
    · exact .inr ⟨rfl, Kernel.block_empty_of_covered found covered⟩
    · exact .inl ⟨nonempty, fits⟩
  · rintro (⟨nonempty, fits⟩ | ⟨noGrid, noBlock⟩) kernel grid rfl rfl known positive each
    · exact Kernel.covered_of_length_le known (List.length_pos_iff.mp nonempty) fits positive each
    · have gridless := List.eq_nil_of_length_eq_zero noGrid
      have blockless := List.eq_nil_of_length_eq_zero noBlock
      rw [gridless] at known ⊢
      cases known
      rw [blockless]
      exact ⟨[⟨1, 1⟩], Geometry.range?_without_block [], Kernel.covered_of_empty gridless blockless⟩

end Offload
