import Offload.Proofs.Buffer.Statements

namespace Offload.Buffer

open Code

/-- The operations on one buffer along a path, in order. -/
def operationsOn (handle : String) (trace : List Stmt) : List Operation :=
  ((trace.filterMap operation?).filter (·.2 == handle)).map (·.1)

/-- Declared, created, used any number of times, and released. -/
def Complete (operations : List Operation) : Prop :=
  ∃ uses, operations = .declare :: .create :: (uses ++ [.release]) ∧
    ∀ use ∈ uses, use = .bind ∨ use = .read

/-- What a path of the host program does to buffers and to the device. -/
structure Lifecycle (program : Program) (tree : Node) (trace : List Stmt) : Prop where
  /-- Nothing is done to buffers or to the device in any other way. -/
  known : ∀ stmt ∈ trace, Recognised tree stmt
  complete : ∀ array ∈ program.arrays, array.readOnlyScalar = false →
    Complete (operationsOn array.bufferName trace)
  catalogued : ∀ operation handle, (operation, handle) ∈ trace.filterMap operation? →
    ∃ array ∈ program.arrays, array.readOnlyScalar = false ∧ handle = array.bufferName
  untouched : ∀ array ∈ program.arrays, array.readOnlyScalar = true →
    operationsOn array.bufferName trace = []
  last : ∃ before after, trace = before ++ after ∧ before.filterMap givenBack? = [] ∧
    after.filterMap operation? = [] ∧ after.filterMap givenBack? =
      [("clReleaseCommandQueue", "queue"), ("clReleaseProgram", "program"),
        ("clReleaseContext", "context")]

section Segments

variable {job : Job} {trace : List Stmt}

private theorem operations_declareAll :
    (declareAll job).filterMap operation? =
      (arrays job).map fun array => (Operation.declare, array.bufferName) := by
  rw [declareAll, List.filterMap_map]
  exact congrFun List.filterMap_eq_map (arrays job)

private theorem operations_createAll (run : Executes (createAll job) trace) :
    trace.filterMap operation? =
      (arrays job).map fun array => (Operation.create, array.bufferName) := by
  rw [List.map_eq_flatMap]
  apply run.filterMap_map
  intro array path inside
  rw [inside.eq_body_of_scope rfl]
  rfl

private theorem operations_releaseAll (run : Executes (releaseAll job) trace) :
    trace.filterMap operation? =
      (arrays job).map fun array => (Operation.release, array.bufferName) := by
  rw [List.map_eq_flatMap]
  apply run.filterMap_map
  intro array path inside
  rw [inside.eq_body_of_scope rfl]
  rfl

/-- Launches bind the buffers of arrays, and do nothing else to buffers. -/
theorem operation_of_launch {kernel : Kernel} {args : List Argument}
    (receives : kernel.arguments job = .ok args) {geometry : Geometry} {stmt : Stmt}
    (member : stmt ∈ HostCode.launchBody kernel args geometry) {operation : Operation}
    {handle : String} (acts : operation? stmt = some (operation, handle)) :
    operation = .bind ∧ ∃ array ∈ arrays job, handle = array.bufferName := by
  rcases HostCode.launchBody_cases member with
    ⟨arg, listed, position, rfl⟩ | rfl | rfl | rfl | rfl | rfl | rfl | rfl
  · rw [operation?_bind] at acts
    split at acts
    · rename_i buffer
      cases acts
      obtain ⟨array, owned, same⟩ := exists_array_of_buffer receives listed buffer
      exact ⟨rfl, array, owned, congrArg ("dev_" ++ ·) same⟩
    · cases acts
  all_goals cases acts

theorem operation_of_emitted {nodes : List Node} {code : HostCode} (emits : Emits job nodes code)
    {stmt : Stmt} (leaf : stmt ∈ leavesOf code.stmts) {operation : Operation} {handle : String}
    (acts : operation? stmt = some (operation, handle)) :
    operation = .bind ∧ ∃ array ∈ arrays job, handle = array.bufferName := by
  rcases emits.leaf_cases leaf with ⟨_, _, _, rfl⟩ | ⟨kernel, args, receives, member⟩
  · cases acts
  · exact operation_of_launch receives member acts

/-- The operations of a path: each kind for all arrays, with the uses in between. -/
theorem operations_body {nodes : List Node} {code : HostCode} (emits : Emits job nodes code)
    {kernelPath : String}
    (run : Executes (HostProgram.body job kernelPath (createAll job) code.stmts) trace) :
    ∃ uses : List (Operation × String),
      trace.filterMap operation? =
        (arrays job).map (fun array => (Operation.declare, array.bufferName)) ++
          (arrays job).map (fun array => (Operation.create, array.bufferName)) ++ uses ++
          (arrays job).map (fun array => (Operation.release, array.bufferName)) ∧
      ∀ use ∈ uses, (use.1 = .bind ∨ use.1 = .read) ∧
        ∃ array ∈ arrays job, use.2 = array.bufferName := by
  obtain ⟨created, launched, copied, released, creating, launching, copying, releasing, rfl⟩ :=
    HostProgram.executes_body run
  have setUp : (HostProgram.setUp job.options kernelPath).filterMap operation? = [] := rfl
  have blank : [Stmt.blank].filterMap operation? = [] := rfl
  have release : HostProgram.release.filterMap operation? = [] := rfl
  refine ⟨launched.filterMap operation? ++ copied.filterMap operation?, ?_, ?_⟩
  · simp only [List.filterMap_append, operations_declareAll, operations_createAll creating,
      operations_releaseAll releasing, setUp, blank, release, List.nil_append, List.append_nil,
      List.append_assoc]
  · intro use member
    rcases List.mem_append.mp member with bound | read
    · obtain ⟨stmt, inside, acts⟩ := List.mem_filterMap.mp bound
      obtain ⟨kind, array⟩ := operation_of_emitted emits (launching.mem_leaves stmt inside) acts
      exact ⟨.inl kind, array⟩
    · obtain ⟨stmt, inside, acts⟩ := List.mem_filterMap.mp read
      obtain ⟨array, listed, rfl⟩ := leaf_of_copyBackAll (copying.mem_leaves stmt inside)
      cases acts
      exact ⟨.inr rfl, array, listed, rfl⟩

/-- Nothing but the end of the host program gives back the device. -/
theorem givenBack?_of_emitted {nodes : List Node} {code : HostCode} (emits : Emits job nodes code)
    {stmt : Stmt} (leaf : stmt ∈ leavesOf code.stmts) : givenBack? stmt = none := by
  rcases emits.leaf_cases leaf with ⟨_, _, _, rfl⟩ | ⟨kernel, args, _, member⟩
  · rfl
  · rcases HostCode.launchBody_cases member with
      ⟨arg, _, position, rfl⟩ | rfl | rfl | rfl | rfl | rfl | rfl | rfl
    · rcases arg with ⟨kind, _, _⟩
      cases kind <;> rfl
    all_goals rfl

end Segments

section Distinct

variable {job : Job} (distinct : (job.program.arrays.map ArrayDecl.name).Nodup)

include distinct

theorem nodup_bufferNames : (job.program.arrays.map ArrayDecl.bufferName).Nodup := by
  apply List.pairwise_map.mpr
  apply (List.pairwise_map.mp distinct).imp
  intro first second different same
  exact different ((String.append_right_inj "dev_").mp same)

private theorem eq_of_bufferName {first second : ArrayDecl} (listed : first ∈ job.program.arrays)
    (other : second ∈ job.program.arrays) (same : first.bufferName = second.bufferName) :
    first = second := by
  have found : first ∈ job.program.arrays.filter (·.bufferName == second.bufferName) :=
    List.mem_filter.mpr ⟨listed, beq_iff_eq.mpr same⟩
  rw [filter_key (nodup_bufferNames distinct) other] at found
  exact List.mem_singleton.mp found

/-- Of an operation on all arrays, one is on the buffer of a given array. -/
theorem filter_operation {array : ArrayDecl} (member : array ∈ arrays job)
    (operation : Operation) :
    ((arrays job).map fun other => (operation, other.bufferName)).filter
      (·.2 == array.bufferName) = [(operation, array.bufferName)] := by
  have names : ((arrays job).map ArrayDecl.bufferName).Nodup :=
    (nodup_bufferNames distinct).sublist ((List.filter_sublist).map _)
  rw [List.filter_map]
  exact congrArg (List.map fun other => (operation, other.bufferName)) (filter_key names member)

end Distinct

theorem mem_arrays {job : Job} {array : ArrayDecl} :
    array ∈ arrays job ↔ array ∈ job.program.arrays ∧ array.readOnlyScalar = false := by
  simp [arrays, ArrayDecl.hasBuffer]

theorem Part.not_readOnlyScalar {job : Job} {tree : Node} {stmt : Stmt}
    (part : Part job tree stmt) (distinct : (job.program.arrays.map ArrayDecl.name).Nodup)
    {array : ArrayDecl} (listed : array ∈ job.program.arrays)
    (scalar : array.readOnlyScalar = true) {operation : Operation} :
    operation? stmt ≠ some (operation, array.bufferName) := by
  intro acts
  obtain ⟨other, member, same, _⟩ := part.operation_cases acts
  obtain ⟨otherListed, writable⟩ := mem_arrays.mp member
  rw [eq_of_bufferName distinct listed otherListed same, writable] at scalar
  cases scalar

section Run

variable {job : Job} {tree : Node} {code : HostCode} {kernelPath : String}
  {trace : List Stmt} (emits : Emits job [tree] code)
  (run : Executes (HostProgram.body job kernelPath (createAll job) code.stmts) trace)

include emits run

private theorem complete_of_run (distinct : (job.program.arrays.map ArrayDecl.name).Nodup)
    {array : ArrayDecl} (member : array ∈ arrays job) :
    Complete (operationsOn array.bufferName trace) := by
  obtain ⟨uses, operations, kinds⟩ := operations_body emits run
  refine ⟨(uses.filter (·.2 == array.bufferName)).map (·.1), ?_, ?_⟩
  · simp only [operationsOn, operations, List.filter_append, filter_operation distinct member,
      List.map_append]
    rfl
  · intro use included
    obtain ⟨pair, inside, rfl⟩ := List.mem_map.mp included
    exact (kinds pair (List.mem_filter.mp inside).1).1

private theorem last_of_run :
    ∃ before after, trace = before ++ after ∧ before.filterMap givenBack? = [] ∧
      after.filterMap operation? = [] ∧ after.filterMap givenBack? =
        [("clReleaseCommandQueue", "queue"), ("clReleaseProgram", "program"),
          ("clReleaseContext", "context")] := by
  obtain ⟨created, launched, copied, released, creating, launching, copying, releasing, rfl⟩ :=
    HostProgram.executes_body run
  refine ⟨_, HostProgram.release, rfl, ?_, rfl, rfl⟩
  have declares : (declareAll job).filterMap givenBack? = [] := by
    simp [declareAll, givenBack?]
  have setUp : (HostProgram.setUp job.options kernelPath).filterMap givenBack? = [] := rfl
  have blank : [Stmt.blank].filterMap givenBack? = [] := rfl
  have creates : created.filterMap givenBack? = (arrays job).flatMap fun _ => [] := by
    apply creating.filterMap_map
    intro array path inside
    rw [inside.eq_body_of_scope rfl]
    rfl
  have launches : launched.filterMap givenBack? = [] :=
    List.filterMap_eq_nil_iff.mpr fun stmt member =>
      givenBack?_of_emitted emits (launching.mem_leaves stmt member)
  have copies : copied.filterMap givenBack? = [] := by
    apply List.filterMap_eq_nil_iff.mpr
    intro stmt member
    obtain ⟨array, _, rfl⟩ := leaf_of_copyBackAll (copying.mem_leaves stmt member)
    rfl
  have releases : released.filterMap givenBack? = (arrays job).flatMap fun _ => [] := by
    apply releasing.filterMap_map
    intro array path inside
    rw [inside.eq_body_of_scope rfl]
    rfl
  simp only [List.filterMap_append, declares, setUp, blank, creates, launches, copies, releases,
    List.append_nil]
  simp

theorem part_of_run {stmt : Stmt} (member : stmt ∈ trace) : Part job tree stmt :=
  part_of_body emits (run.mem_leaves stmt member)

theorem lifecycle_of_run (distinct : (job.program.arrays.map ArrayDecl.name).Nodup) :
    Lifecycle job.program tree trace where
  known _ member := (part_of_run emits run member).recognised
  complete array listed writable :=
    complete_of_run emits run distinct (mem_arrays.mpr ⟨listed, writable⟩)
  catalogued operation handle acts := by
    obtain ⟨stmt, member, found⟩ := List.mem_filterMap.mp acts
    obtain ⟨array, owned, same, _⟩ := (part_of_run emits run member).operation_cases found
    exact ⟨array, (mem_arrays.mp owned).1, (mem_arrays.mp owned).2, same⟩
  untouched array listed scalar := by
    have none : (trace.filterMap operation?).filter (·.2 == array.bufferName) = [] := by
      apply List.filter_eq_nil_iff.mpr
      rintro ⟨operation, handle⟩ acts same
      obtain ⟨stmt, member, found⟩ := List.mem_filterMap.mp acts
      cases beq_iff_eq.mp same
      exact (part_of_run emits run member).not_readOnlyScalar distinct listed scalar found
    rw [operationsOn, none, List.map_nil]
  last := last_of_run emits run

end Run

/-- Along every path of the host program, each array that is not a read-only scalar
has one buffer from its declaration to its release, with all uses in between, and the
device is given back at the end. For read-only scalars no such statement is there. In the
whole text of the program, nothing is done to buffers or to the device in any other way. -/
theorem lifecycle_of_generate {job : Job} {kernelPath headerName : String} {tree : Node}
    {files : Files} (distinct : (job.program.arrays.map ArrayDecl.name).Nodup)
    (generated : (job.generate kernelPath headerName tree).result = .ok files) :
    (∀ trace, Executes files.host.code trace → Lifecycle job.program tree trace) ∧
      ∀ stmt ∈ leavesOf files.host.code, Recognised tree stmt ∧
        ∀ array ∈ job.program.arrays, array.readOnlyScalar = true →
          ∀ operation, operation? stmt ≠ some (operation, array.bufferName) := by
  obtain ⟨code, emits, host, _⟩ := Job.exists_emits_of_generate generated
  rw [host]
  refine ⟨fun trace run => lifecycle_of_run emits run distinct, fun stmt leaf => ?_⟩
  have part := part_of_body emits leaf
  exact ⟨part.recognised, fun array listed scalar operation =>
    part.not_readOnlyScalar distinct listed scalar⟩

/-- The buffers of the sample, with uses inside a loop and under a branch. -/
theorem lifecycle_in_sample :
    ∃ files, (Sample.job.generate "code.cl" "code.h" Sample.tree).result = .ok files ∧
      (∃ trace, Executes files.host.code trace) ∧
      ∀ trace, Executes files.host.code trace →
        Complete (operationsOn "dev_A" trace) ∧ Complete (operationsOn "dev_sum" trace) ∧
          operationsOn "dev_alpha" trace = [] := by
  obtain ⟨files, generated⟩ := Sample.exists_files
  have life := (lifecycle_of_generate (by decide) generated).1
  refine ⟨files, generated, Executes.exists_trace _, ?_⟩
  intro trace run
  exact ⟨(life trace run).complete _ List.mem_cons_self rfl,
    (life trace run).complete _ (List.mem_cons_of_mem _ List.mem_cons_self) rfl,
    (life trace run).untouched _ (List.mem_cons_of_mem _ (List.mem_cons_of_mem _
      List.mem_cons_self)) rfl⟩

end Offload.Buffer
