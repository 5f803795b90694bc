import Offload.Proofs.Buffer.Usage
import Offload.Proofs.Region.NormalForm

/-! Which arrays a footprint selects. The test that generation makes goes through the
intersection of regions; here it is read off the members of the footprint, and so are the
arguments of a kernel and what the buffers are created with. -/

namespace Offload

open Code

/-- No constraint of the piece folds to zero. -/
def Piece.Possible (piece : Piece) : Prop := ∀ constraint ∈ piece, constraint.constant? ≠ some 0

instance (piece : Piece) : Decidable piece.Possible :=
  inferInstanceAs (Decidable (∀ constraint ∈ piece, constraint.constant? ≠ some 0))

namespace Region

/-- Some piece of the region is possible. -/
def Possible (region : Region) : Prop := ∃ piece ∈ region.pieces, Piece.Possible piece

instance (region : Region) : Decidable region.Possible :=
  inferInstanceAs (Decidable (∃ piece ∈ region.pieces, Piece.Possible piece))

/-- The region has the tuple of the space and as many dimensions. -/
def LivesIn (region : Region) (space : Space) : Prop :=
  region.space.tuple = space.tuple ∧ region.space.dims.length = space.dims.length

instance (region : Region) (space : Space) : Decidable (region.LivesIn space) :=
  inferInstanceAs (Decidable (_ ∧ _))

theorem compatible_iff_livesIn {region : Region} {space : Space} :
    space.compatible region.space = true ↔ region.LivesIn space := by
  rw [Space.compatible_comm, Space.compatible_iff, LivesIn]

end Region

/-- A member of the footprint lives in the space of the array and has a possible piece. -/
def Footprint.Selects (footprint : Footprint) (array : ArrayDecl) : Prop :=
  ∃ region ∈ footprint.regions, region.LivesIn array.space ∧ region.Possible

instance (footprint : Footprint) (array : ArrayDecl) : Decidable (footprint.Selects array) :=
  inferInstanceAs (Decidable (∃ region ∈ footprint.regions, _ ∧ _))

private theorem Piece.possible_iff {piece : Piece} : piece.Possible ↔ piece.simplify ≠ none := by
  rw [ne_eq, simplify_eq_none_iff, Bool.not_eq_true, List.any_eq_false]
  simp only [Possible, Expr.neverHolds, beq_iff_eq, ne_eq]

/-- Intersecting with a full region refutes no possible piece. -/
theorem Region.full_intersect_isRefuted_iff {space : Space} {region : Region}
    (same : space.compatible region.space = true) :
    ((full space).intersect region).isRefuted = true ↔ ¬ region.Possible := by
  rw [(normal_intersect (full space) region).isRefuted_iff, full_intersect_pieces same,
    List.filterMap_eq_nil_iff]
  simp only [Possible, Piece.possible_iff, ne_eq, not_exists, not_and, not_not]

private theorem Region.pieces_foldl_union (start : Region) (regions : List Region) :
    (regions.foldl union start).pieces = start.pieces ++ regions.flatMap pieces := by
  induction regions generalizing start with
  | nil => simp
  | cons region rest ih => simp [ih, union]

private theorem Region.space_foldl_union (start : Region) (regions : List Region) :
    (regions.foldl union start).space = start.space := by
  induction regions generalizing start with
  | nil => rfl
  | cons region rest ih => exact ih (start.union region)

namespace Footprint

variable {footprint : Footprint} {space : Space}

private theorem space_extract : (footprint.extract space).space = space :=
  Region.space_foldl_union (.empty space) _

theorem mem_extract {piece : Piece} : piece ∈ (footprint.extract space).pieces ↔
    ∃ region ∈ footprint.regions, region.LivesIn space ∧ piece ∈ region.pieces := by
  rw [extract, Region.pieces_foldl_union]
  simp only [Region.empty, List.nil_append, List.mem_flatMap, List.mem_filter,
    Region.compatible_iff_livesIn, and_assoc]

/-- What is extracted is possible if a member in the same space is. -/
theorem possible_extract_iff : (footprint.extract space).Possible ↔
    ∃ region ∈ footprint.regions, region.LivesIn space ∧ region.Possible := by
  constructor
  · intro ⟨piece, extracted, possible⟩
    obtain ⟨region, member, lives, inside⟩ := mem_extract.mp extracted
    exact ⟨region, member, lives, piece, inside, possible⟩
  · intro ⟨region, member, lives, piece, inside, possible⟩
    exact ⟨piece, mem_extract.mpr ⟨region, member, lives, inside⟩, possible⟩

end Footprint

namespace Job

variable {job : Job} (plain : job.algebra = .syntactic)

include plain

/-- The test by intersection finds the arrays that a member selects, and no others. -/
theorem touches_iff_selects (footprint : Footprint) (array : ArrayDecl) :
    job.touches footprint array = true ↔ footprint.Selects array := by
  have same : array.space.compatible (footprint.extract array.space).space = true := by
    rw [Footprint.space_extract, Space.compatible_iff]
    exact ⟨rfl, rfl⟩
  have answer : job.touches footprint array =
      !(Region.intersect (.full array.space) (footprint.extract array.space)).isRefuted := by
    rw [touches, plain]
    rfl
  rw [answer, Bool.not_eq_true', ← Bool.not_eq_true, Region.full_intersect_isRefuted_iff same,
    not_not, Footprint.possible_extract_iff, Footprint.Selects]

theorem touches_eq_decide (footprint : Footprint) (array : ArrayDecl) :
    job.touches footprint array = decide (footprint.Selects array) := by
  rw [Bool.eq_iff_iff, touches_iff_selects plain, decide_eq_true_iff]

/-- The order of the members does not matter. -/
theorem touches_of_perm {footprint other : Footprint}
    (same : footprint.regions.Perm other.regions) (array : ArrayDecl) :
    job.touches footprint array = job.touches other array := by
  rw [Bool.eq_iff_iff, touches_iff_selects plain, touches_iff_selects plain]
  simp only [Footprint.Selects, same.mem_iff]

end Job

namespace Kernel

/-- The arrays of the catalogue that the footprint of the kernel selects, in order. -/
def selected (program : Program) (kernel : Kernel) : List ArrayDecl :=
  program.arrays.filter (kernel.footprint.Selects ·)

/-- The selected arrays that a member of the footprint lives in. -/
def selectedFor (program : Program) (kernel : Kernel) (region : Region) : List ArrayDecl :=
  (kernel.selected program).filter (region.LivesIn ·.space)

/-- The arguments are the selected arrays, the parameters of the footprint and the host
iterators. No possible member of the footprint goes without an array, and there is only one
where the spaces tell the arrays apart. -/
structure Receives (job : Job) (kernel : Kernel) (args : List Argument) : Prop where
  args : args = (kernel.selected job.program).map .ofArray ++
    kernel.footprint.params.map (⟨.parameter, ·, .int⟩) ++
    kernel.space.dims.map (⟨.iterator, ·, job.iteratorType⟩)
  covered : ∀ region ∈ kernel.footprint.regions, region.Possible →
    1 ≤ (kernel.selectedFor job.program region).length
  single : job.program.arrays.Pairwise (fun a b => a.space.compatible b.space = false) →
    ∀ region ∈ kernel.footprint.regions, region.Possible →
      (kernel.selectedFor job.program region).length = 1

variable {job : Job} {kernel : Kernel} {args : List Argument}

/-- Where the arguments are found, every member of the footprint lives in some array. -/
theorem exists_array_of_arguments (receives : kernel.arguments job = .ok args) {region : Region}
    (member : region ∈ kernel.footprint.regions) :
    ∃ array ∈ job.program.arrays, region.LivesIn array.space := by
  unfold arguments at receives
  split at receives
  · cases receives
  · rename_i known
    have found := List.find?_eq_none.mp known region member
    rw [Option.isNone_iff_eq_none, Program.arrayIn?, List.find?_eq_none] at found
    simp only [Region.compatible_iff_livesIn] at found
    exact Classical.not_forall_not.mp fun none => found fun array listed lives =>
      none array ⟨listed, lives⟩

theorem selectedFor_ne_nil (receives : kernel.arguments job = .ok args) {region : Region}
    (member : region ∈ kernel.footprint.regions) (possible : region.Possible) :
    kernel.selectedFor job.program region ≠ [] := by
  obtain ⟨array, listed, lives⟩ := exists_array_of_arguments receives member
  have selects : kernel.footprint.Selects array := ⟨region, member, lives, possible⟩
  apply List.ne_nil_of_mem (a := array)
  simp only [selectedFor, selected, List.mem_filter, decide_eq_true_eq]
  exact ⟨⟨listed, selects⟩, lives⟩

/-- Two arrays that one region lives in are not told apart by their spaces. -/
theorem length_selectedFor_le_one {program : Program}
    (distinct : program.arrays.Pairwise fun a b => a.space.compatible b.space = false)
    (region : Region) : (kernel.selectedFor program region).length ≤ 1 := by
  have apart := (distinct.filter (kernel.footprint.Selects ·)).filter (region.LivesIn ·.space)
  change (kernel.selectedFor program region).Pairwise _ at apart
  have inside : ∀ array ∈ kernel.selectedFor program region, region.LivesIn array.space := by
    intro array member
    exact of_decide_eq_true (List.mem_filter.mp member).2
  match arrays : kernel.selectedFor program region with
  | [] | [_] => simp
  | first :: second :: rest =>
    rw [arrays] at apart inside
    have here := Region.compatible_iff_livesIn.mpr (inside first List.mem_cons_self)
    have there := Region.compatible_iff_livesIn.mpr
      (inside second (List.mem_cons_of_mem first List.mem_cons_self))
    have different := (List.pairwise_cons.mp apart).1 second List.mem_cons_self
    rw [Space.compatible_congr here, Space.compatible_comm, there] at different
    cases different

theorem receives_of_arguments (plain : job.algebra = .syntactic)
    (receives : kernel.arguments job = .ok args) : kernel.Receives job args where
  args := by
    have same := funext (Job.touches_eq_decide plain kernel.footprint)
    rw [arguments_eq_ok receives, same]
    rfl
  covered _ member possible :=
    List.length_pos_of_ne_nil (selectedFor_ne_nil receives member possible)
  single distinct region member possible :=
    Nat.le_antisymm (length_selectedFor_le_one distinct region)
      (List.length_pos_of_ne_nil (selectedFor_ne_nil receives member possible))

end Kernel

namespace Buffer

/-- The handle of the buffer that the statement creates, with the flags and the host data. -/
def filling? : Stmt → Option (String × List String × Term)
  | .assign (.var handle) (.call "clCreateBuffer" [_, .flags flags, _, host, _]) =>
    some (handle, flags, host)
  | _ => none

theorem operation?_of_filling? {stmt : Stmt} {found : String × List String × Term}
    (creates : filling? stmt = some found) : operation? stmt = some (.create, found.1) := by
  unfold filling? at creates
  split at creates
  · cases creates
    rfl
  · cases creates

/-- The flags and the host data of a buffer, where it is filled from the host and where
it is not. -/
def filling (job : Job) (array : ArrayDecl) : List String × Term :=
  if job.program.copyIn.Selects array then
    (["CL_MEM_READ_WRITE", "CL_MEM_COPY_HOST_PTR"], hostData job array)
  else (["CL_MEM_READ_WRITE"], .var "NULL")

private theorem fillings_createAll {job : Job} (plain : job.algebra = .syntactic) :
    (leavesOf (createAll job)).filterMap filling? =
      (arrays job).map fun array => (array.bufferName, filling job array) := by
  rw [createAll, leavesOf_map, List.filterMap_flatMap, List.map_eq_flatMap]
  refine List.flatMap_congr fun array _ => ?_
  rw [Job.touches_eq_decide plain, filling]
  by_cases selects : job.program.copyIn.Selects array
  · rw [decide_eq_true selects, if_pos selects]
    rfl
  · rw [decide_eq_false selects, if_neg selects]
    rfl

private theorem fillings_body {job : Job} (plain : job.algebra = .syntactic) {nodes : List Node}
    {code : HostCode} (emits : Emits job nodes code) {kernelPath : String} :
    (leavesOf (HostProgram.body job kernelPath (createAll job) code.stmts)).filterMap filling? =
      (arrays job).map fun array => (array.bufferName, filling job array) := by
  rw [body_eq_segments, leavesOf_append, leavesOf_append, leavesOf_append, leavesOf_append,
    filterMap_segments emits operation?_of_filling? (.inl rfl) (fun _ => id) (fun _ => id)
      (fun _ => id),
    fillings_createAll plain,
    onlyDoes_copyBackAll.filterMap_eq_nil operation?_of_filling? nofun (fun _ => id),
    List.append_nil]

private theorem Part.isSome_filling? {job : Job} {tree : Node} {stmt : Stmt}
    (part : Part job tree stmt) : (filling? stmt).isSome = does .create stmt :=
  isSome_eq_does operation?_of_filling? fun creates => by
    obtain ⟨_, _, _, _, rfl⟩ := part.exists_of_creates creates
    rfl

private theorem host_filling {job : Job} {array : ArrayDecl} :
    (filling job array).2 =
      if job.program.copyIn.Selects array then hostData job array else .var "NULL" := by
  unfold filling
  split <;> rfl

/-- Host data is not the null pointer, unless the array has this name. -/
theorem hostData_ne_null {job : Job} {array : ArrayDecl} (named : array.name ≠ "NULL") :
    hostData job array ≠ .var "NULL" := by
  unfold hostData
  split
  · exact nofun
  · exact fun same => named (Term.var.inj same)

private theorem copyFlag_mem_filling_iff {job : Job} {array : ArrayDecl} :
    "CL_MEM_COPY_HOST_PTR" ∈ (filling job array).1 ↔ job.program.copyIn.Selects array := by
  unfold filling
  split
  · rename_i selects
    exact iff_of_true (List.mem_cons_of_mem _ List.mem_cons_self) selects
  · rename_i other
    exact iff_of_false (by decide) other

private theorem filling_ne_null_iff {job : Job} {array : ArrayDecl} (named : array.name ≠ "NULL") :
    (filling job array).2 ≠ .var "NULL" ↔ job.program.copyIn.Selects array := by
  unfold filling
  split
  · rename_i selects
    exact iff_of_true (hostData_ne_null named) selects
  · rename_i other
    exact iff_of_false (not_not_intro rfl) other

end Buffer

/-- A footprint selects exactly the arrays that a member with a possible piece lives in, in
whatever order the members stand. From this alone follow the arguments of every kernel, and
the buffers that the generated host program fills from the host; it creates buffers in no other
way. A filled buffer refers to the data of its array, which is not the null pointer unless that
is the name of the array, and any other buffer refers to the null pointer. -/
theorem selected_exactly {job : Job} (plain : job.algebra = .syntactic) :
    (∀ footprint array, job.touches footprint array = true ↔ footprint.Selects array) ∧
      (∀ (kernel : Kernel) (args : List Argument),
        kernel.arguments job = .ok args → kernel.Receives job args) ∧
      (∀ kernelPath headerName tree files,
        (job.generate kernelPath headerName tree).result = .ok files →
        (leavesOf files.host.code).filterMap Buffer.filling? = (Buffer.arrays job).map (fun array =>
          (array.bufferName, Buffer.filling job array)) ∧
        ∀ stmt ∈ leavesOf files.host.code, Buffer.Recognised tree stmt ∧
          (Buffer.filling? stmt).isSome = Buffer.does .create stmt) ∧
      (∀ array,
        ("CL_MEM_COPY_HOST_PTR" ∈ (Buffer.filling job array).1 ↔
          job.program.copyIn.Selects array) ∧
        (Buffer.filling job array).2 =
          (if job.program.copyIn.Selects array then Buffer.hostData job array else .var "NULL") ∧
        (array.name ≠ "NULL" → ((Buffer.filling job array).2 ≠ .var "NULL" ↔
          job.program.copyIn.Selects array))) ∧
      ∀ footprint other : Footprint, footprint.regions.Perm other.regions →
        ∀ array, job.touches footprint array = job.touches other array := by
  refine ⟨Job.touches_iff_selects plain, fun _ _ => Kernel.receives_of_arguments plain, ?_, ?_,
    fun _ _ => Job.touches_of_perm plain⟩
  · intro kernelPath headerName tree files generated
    obtain ⟨code, emits, host, _⟩ := Job.exists_emits_of_generate generated
    rw [host]
    refine ⟨Buffer.fillings_body plain emits, fun stmt leaf => ?_⟩
    have part := Buffer.part_of_body emits leaf
    exact ⟨part.recognised, part.isSome_filling?⟩
  · intro array
    exact ⟨Buffer.copyFlag_mem_filling_iff, Buffer.host_filling, Buffer.filling_ne_null_iff⟩

/-- In the sample, a kernel receives the array and the read-only scalar, each for one member
of its footprint, and only the array is filled from the host. -/
theorem selected_in_sample :
    ∃ args files, Sample.scale.arguments Sample.job = .ok args ∧
      (Sample.job.generate "code.cl" "code.h" Sample.tree).result = .ok files ∧
      args.map Argument.name = ["A", "alpha", "N", "t"] ∧
      (∀ region ∈ Sample.scale.footprint.regions,
        (Sample.scale.selectedFor Sample.program region).length = 1) ∧
      (leavesOf files.host.code).filterMap Buffer.filling? =
        [("dev_A", ["CL_MEM_READ_WRITE", "CL_MEM_COPY_HOST_PTR"], .var "A"),
          ("dev_sum", ["CL_MEM_READ_WRITE"], .var "NULL")] := by
  obtain ⟨files, generated⟩ := Sample.exists_files
  obtain ⟨args, receives⟩ : ∃ args, Sample.scale.arguments Sample.job = .ok args := ⟨_, rfl⟩
  obtain ⟨_, arguments, buffers, _, _⟩ := @selected_exactly Sample.job rfl
  have received := arguments _ _ receives
  refine ⟨args, files, receives, generated, ?_, ?_, (buffers _ _ _ _ generated).1⟩
  · rw [received.args]
    decide
  · intro region member
    exact received.single (by decide) region member (by revert region; decide)

end Offload
