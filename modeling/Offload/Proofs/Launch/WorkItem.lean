import Offload.Launch.Geometry
import Offload.Proofs.Kernel.RowMajor

namespace Offload

open Code

/-- The value of a work size, if names have these values. -/
def Code.Term.workSize (names : String → Int) : Term → Option Int
  | int n => some n
  | symbolic e => e.exact names
  | workItems g b => (g.exact names).map (· * b)
  | _ => none

/-- One dimension of a launch: its work-items, and how many of them form a group. -/
structure Dimension where
  global : Int
  group : Int

/-- There are work-items, and every group of them is full. -/
def Dimension.Valid (dim : Dimension) : Prop := 0 < dim.global ∧ dim.group ∣ dim.global

instance (dim : Dimension) : Decidable dim.Valid := inferInstanceAs (Decidable (_ ∧ _))

/-- Where a work-item stands in one dimension: its group, and its place in the group. -/
structure Place where
  group : Int
  item : Int

def Place.In (place : Place) (dim : Dimension) : Prop :=
  (0 ≤ place.group ∧ place.group < dim.global / dim.group) ∧
    (0 ≤ place.item ∧ place.item < dim.group)

/-- The dimensions of a launch. A global size that is missing counts as zero. -/
def Geometry.range? (names : String → Int) (geometry : Geometry) : Option (List Dimension) :=
  (geometry.global.mapM (Term.workSize names)).map fun sizes =>
    (List.range geometry.workDim).map fun i => ⟨sizes.getD i 0, geometry.group.getD i 0⟩

/-- A work-item stands in every dimension of the launch. -/
abbrev WorkItem := List Place

def workItems (range : List Dimension) : Set WorkItem :=
  {item | List.Forall₂ Place.In item range}

/-- The names that a kernel gives to its indices. -/
def Kernel.indexNames (kernel : Kernel) : List String :=
  (List.range kernel.gridSize.length).map ("b" ++ toString ·) ++
    (List.range kernel.blockSize.length).map ("t" ++ toString ·)

namespace WorkItem

/-- In a dimension that the launch does not have, all indices are zero. -/
def place (item : WorkItem) (i : Nat) : Place := item.getD i ⟨0, 0⟩

/-- What a work-item finds out about itself. -/
def query (item : WorkItem) : Term → Option Int
  | .call fn [.int i] =>
    if fn = "get_group_id" then some (item.place i.toNat).group
    else if fn = "get_local_id" then some (item.place i.toNat).item
    else none
  | _ => none

def define (item : WorkItem) (definition : String × Term) : Option (String × Int) :=
  (item.query definition.2).map (definition.1, ·)

/-- The names that statements define, with their values in a work-item. -/
def bound (item : WorkItem) : List Stmt → Option (List (String × Int))
  | [] => some []
  | .define _ defs :: rest =>
    (defs.mapM item.define).bind fun here => (item.bound rest).map (here ++ ·)
  | _ :: _ => none

/-- The indices of the groups in as many dimensions as the grid has, then the indices inside
of the groups in those of the block. -/
def indices (item : WorkItem) (grid block : Nat) : List Int :=
  (List.range grid).map (fun i => (item.place i).group) ++
    (List.range block).map fun i => (item.place i).item

theorem length_indices (item : WorkItem) (grid block : Nat) :
    (item.indices grid block).length = grid + block := by
  simp [indices]

section Bound

variable {item : WorkItem} {fn : String} {index : Place → Int}

private theorem mapM_define
    (reads : ∀ i : Nat, item.query (.call fn [.int i]) = some (index (item.place i)))
    (letter : String) (count : Nat) :
    (Kernel.indexDefs letter fn count).mapM item.define =
      some (((List.range count).map (letter ++ toString ·)).zip
        ((List.range count).map fun i => index (item.place i))) := by
  have each : item.define ∘ (fun i : Nat => (letter ++ toString i, Term.call fn [.int i])) =
      fun i : Nat => some (letter ++ toString i, index (item.place i)) := by
    funext i
    rw [Function.comp_apply, define, reads]
    rfl
  rw [Kernel.indexDefs, List.mapM_map, each, List.zip_map']
  exact List.mapM_pure

/-- Whether or not there is a statement, the names of its indices are bound. -/
private theorem bound_define
    (reads : ∀ i : Nat, item.query (.call fn [.int i]) = some (index (item.place i)))
    (letter : String) (count : Nat) (type : Ty) (rest : List Stmt) :
    item.bound ((if count = 0 then [] else [.define type (Kernel.indexDefs letter fn count)]) ++
      rest) = (item.bound rest).map ((((List.range count).map (letter ++ toString ·)).zip
        ((List.range count).map fun i => index (item.place i))) ++ ·) := by
  by_cases none : count = 0
  · subst none
    exact Option.map_id'.symm
  · rw [if_neg none, List.singleton_append, bound, mapM_define reads]
    rfl

end Bound

theorem bound_prologue (item : WorkItem) (job : Job) (kernel : Kernel) :
    item.bound (kernel.prologue job) = some (kernel.indexNames.zip
      (item.indices kernel.gridSize.length kernel.blockSize.length)) := by
  have groups (i : Nat) :
      item.query (.call "get_group_id" [.int i]) = some (item.place i).group := rfl
  have items (i : Nat) :
      item.query (.call "get_local_id" [.int i]) = some (item.place i).item := rfl
  have later := bound_define items "t" kernel.blockSize.length job.iteratorType []
  rw [List.append_nil] at later
  rw [Kernel.prologue, bound_define groups, later, Kernel.indexNames, indices,
    List.zip_append (by simp)]
  simp [bound]

/-- The work-item with these indices. It stands in the first group of a dimension that only
the block has. -/
def ofIndices : List Int → List Int → WorkItem
  | _, [] => []
  | [], t :: block => ⟨0, t⟩ :: ofIndices [] block
  | b :: grid, t :: block => ⟨b, t⟩ :: ofIndices grid block

private theorem groups_ofIndices {grid block : List Int} (fits : grid.length ≤ block.length) :
    (List.range grid.length).map (fun i => ((ofIndices grid block).place i).group) = grid := by
  induction grid generalizing block with
  | nil => rfl
  | cons b grid ih =>
    cases block with
    | nil => cases fits
    | cons t block =>
      rw [List.length_cons, List.range_succ_eq_map, List.map_cons, List.map_map]
      exact congrArg (b :: ·) (ih (Nat.le_of_succ_le_succ fits))

private theorem items_ofIndices (grid block : List Int) :
    (List.range block.length).map (fun i => ((ofIndices grid block).place i).item) = block := by
  induction block generalizing grid with
  | nil => rfl
  | cons t block ih =>
    rw [List.length_cons, List.range_succ_eq_map, List.map_cons, List.map_map]
    cases grid with
    | nil => exact congrArg (t :: ·) (ih [])
    | cons b grid => exact congrArg (t :: ·) (ih grid)

private theorem indices_ofIndices {grid block : List Int} (fits : grid.length ≤ block.length) :
    (ofIndices grid block).indices grid.length block.length = grid ++ block := by
  rw [indices, groups_ofIndices fits, items_ofIndices]

end WorkItem

/-- The dimensions of a launch where the grid has no more of them than the block. -/
def dimensions : List Int → List Int → List Dimension
  | _, [] => []
  | [], t :: block => ⟨t, t⟩ :: dimensions [] block
  | g :: grid, t :: block => ⟨g * t, t⟩ :: dimensions grid block

theorem Place.in_scaled {place : Place} {g t : Int} (positive : 0 < t) :
    place.In ⟨g * t, t⟩ ↔
      (0 ≤ place.group ∧ place.group < g) ∧ (0 ≤ place.item ∧ place.item < t) := by
  rw [In, Int.mul_ediv_cancel g (Int.ne_of_gt positive)]

theorem Place.in_single {place : Place} {t : Int} (positive : 0 < t) :
    place.In ⟨t, t⟩ ↔ place.group = 0 ∧ (0 ≤ place.item ∧ place.item < t) := by
  have scaled : place.In ⟨1 * t, t⟩ ↔ _ := in_scaled positive
  rw [Int.one_mul] at scaled
  rw [scaled]
  omega

theorem workItems_unit : workItems [⟨1, 1⟩] = {[⟨0, 0⟩]} := by
  have unit (place : Place) : place.In ⟨1, 1⟩ ↔ place = ⟨0, 0⟩ := by
    obtain ⟨group, item⟩ := place
    have least : (0 ≤ item ∧ item < 1) ↔ item = 0 := by omega
    rw [Place.in_single Int.one_pos, Place.mk.injEq]
    exact and_congr_right fun _ => least
  ext item
  constructor
  · intro member
    cases member with
    | cons here later =>
      cases later
      exact congrArg (· :: []) ((unit _).mp here)
  · rintro rfl
    exact .cons ((unit _).mpr rfl) .nil

/-- The work-items are those with indices in the grid and in the block. -/
theorem mem_workItems_iff {grid block : List Int} (fits : grid.length ≤ block.length)
    (each : ∀ t ∈ block, 0 < t) {item : WorkItem} :
    item ∈ workItems (dimensions grid block) ↔
      ∃ b ∈ Box grid, ∃ t ∈ Box block, item = WorkItem.ofIndices b t := by
  induction block generalizing grid item with
  | nil =>
    cases List.eq_nil_of_length_eq_zero (Nat.le_zero.mp fits)
    constructor
    · intro member
      cases member
      exact ⟨[], .nil, [], .nil, rfl⟩
    · rintro ⟨b, inGrid, t, inBlock, rfl⟩
      cases inGrid
      cases inBlock
      exact .nil
  | cons t block ih =>
    obtain ⟨positive, others⟩ := List.forall_mem_cons.mp each
    cases grid with
    | nil =>
      -- Past the grid a dimension has one group, so the index of the group says nothing.
      have rest (item : WorkItem) := @ih [] (Nat.zero_le block.length) others item
      constructor
      · intro member
        cases member with
        | @cons place _ item _ here later =>
          obtain ⟨first, bounds⟩ := (Place.in_single positive).mp here
          obtain ⟨_, ⟨⟩, ts, inBlock, rfl⟩ := (rest _).mp later
          refine ⟨[], .nil, place.item :: ts, .cons bounds inBlock, ?_⟩
          rw [WorkItem.ofIndices, ← first]
      · rintro ⟨_, ⟨⟩, _, inBlock, rfl⟩
        cases inBlock with
        | cons bounds later =>
          exact .cons ((Place.in_single positive).mpr ⟨rfl, bounds⟩)
            ((rest _).mpr ⟨[], .nil, _, later, rfl⟩)
    | cons g grid =>
      have rest (item : WorkItem) := @ih grid (Nat.le_of_succ_le_succ fits) others item
      constructor
      · intro member
        cases member with
        | @cons place _ item _ here later =>
          obtain ⟨group, bounds⟩ := (Place.in_scaled positive).mp here
          obtain ⟨bs, inGrid, ts, inBlock, rfl⟩ := (rest _).mp later
          exact ⟨place.group :: bs, .cons group inGrid, place.item :: ts, .cons bounds inBlock, rfl⟩
      · rintro ⟨_, inGrid, _, inBlock, rfl⟩
        cases inGrid with
        | cons group inGrid =>
          cases inBlock with
          | cons bounds inBlock =>
            exact .cons ((Place.in_scaled positive).mpr ⟨group, bounds⟩)
              ((rest _).mpr ⟨_, inGrid, _, inBlock, rfl⟩)

/-- A work-item is known by its indices, and all of them occur. -/
theorem bijOn_indices {grid block : List Int} (fits : grid.length ≤ block.length)
    (each : ∀ t ∈ block, 0 < t) :
    Set.BijOn (fun item : WorkItem => item.indices grid.length block.length)
      (workItems (dimensions grid block)) (Box (grid ++ block)) := by
  have read {b t : List Int} (inGrid : b ∈ Box grid) (inBlock : t ∈ Box block) :
      (WorkItem.ofIndices b t).indices grid.length block.length = b ++ t := by
    rw [← length_of_mem_box inGrid, ← length_of_mem_box inBlock]
    apply WorkItem.indices_ofIndices
    rwa [length_of_mem_box inGrid, length_of_mem_box inBlock]
  refine ⟨fun item member => ?_, fun item member other beside same => ?_, fun point inside => ?_⟩
  · obtain ⟨b, inGrid, t, inBlock, rfl⟩ := (mem_workItems_iff fits each).mp member
    exact mem_box_append.mpr ⟨b, inGrid, t, inBlock, read inGrid inBlock⟩
  · obtain ⟨b, inGrid, t, inBlock, rfl⟩ := (mem_workItems_iff fits each).mp member
    obtain ⟨b', inGrid', t', inBlock', rfl⟩ := (mem_workItems_iff fits each).mp beside
    have points : b ++ t = b' ++ t' := (read inGrid inBlock).symm.trans
      (same.trans (read inGrid' inBlock'))
    obtain ⟨rfl, rfl⟩ := List.append_inj points
      ((length_of_mem_box inGrid).trans (length_of_mem_box inGrid').symm)
    rfl
  · obtain ⟨b, inGrid, t, inBlock, rfl⟩ := mem_box_append.mp inside
    exact ⟨WorkItem.ofIndices b t, (mem_workItems_iff fits each).mpr ⟨b, inGrid, t, inBlock, rfl⟩,
      read inGrid inBlock⟩

end Offload
