import Offload.Proofs.Buffer.Guard
import Offload.Proofs.Buffer.Lifecycle

namespace Offload.Buffer

open Code

/-- The handle and the size of the buffer that the statement creates. -/
def creation? : Stmt → Option (String × Term)
  | .assign (.var handle) (.call "clCreateBuffer" [_, _, size, _, _]) => some (handle, size)
  | _ => none

/-- The handle of the buffer that the statement reads back, and the number of bytes. -/
def reading? : Stmt → Option (String × Term)
  | .check (.call "clEnqueueReadBuffer" (_ :: .var handle :: _ :: _ :: bytes :: _)) =>
    some (handle, bytes)
  | _ => none

/-- The use of one buffer: its size, and the numbers of bytes that are read back. -/
structure Usage where
  array : ArrayDecl
  size : Term
  reads : List Term

/-- The creation and the reading of buffers show in the form of the statement, with the
sizes and the numbers of bytes. -/
structure Seen (tree : Node) (stmt : Stmt) : Prop where
  known : Recognised tree stmt
  creates : (creation? stmt).isSome = does .create stmt
  reads : (reading? stmt).isSome = does .read stmt

/-- The usages are those of the arrays with a buffer, in order, and make up all that
the path creates and reads back. -/
structure Accounts (job : Job) (tree : Node) (trace : List Stmt) (usages : List Usage) :
    Prop where
  seen : ∀ stmt ∈ trace, Seen tree stmt
  arrays : usages.map Usage.array = arrays job
  creations : trace.filterMap creation? =
    usages.map fun usage => (usage.array.bufferName, usage.size)
  readings : trace.filterMap reading? =
    usages.flatMap fun usage => usage.reads.map (usage.array.bufferName, ·)

/-- A buffer that is not copied out is never read back. Any other one is read back as
a whole, at most once, and where the context holds exactly if its array has elements. -/
structure Usage.CopiedOut (job : Job) (names : String → Option Int) (usage : Usage) : Prop where
  unselected : job.touches job.program.copyOut usage.array = false → usage.reads = []
  once : usage.reads = [] ∨ usage.reads = [byteSize usage.array]
  selected : job.touches job.program.copyOut usage.array = true →
    job.program.context.Holds names → usage.array.Sized names →
    (usage.reads = [byteSize usage.array] ↔ usage.array.HasElements names)

theorem operation?_of_creation? {stmt : Stmt} {found : String × Term}
    (creates : creation? stmt = some found) : operation? stmt = some (.create, found.1) := by
  unfold creation? at creates
  split at creates
  · cases creates
    rfl
  · cases creates

theorem operation?_of_reading? {stmt : Stmt} {found : String × Term}
    (reads : reading? stmt = some found) : operation? stmt = some (.read, found.1) := by
  unfold reading? at reads
  split at reads
  · cases reads
    rfl
  · cases reads

theorem Part.seen {job : Job} {tree : Node} {stmt : Stmt} (part : Part job tree stmt) :
    Seen tree stmt where
  known := part.recognised
  creates := isSome_eq_does operation?_of_creation? fun creates => by
    obtain ⟨_, _, _, _, rfl⟩ := part.exists_of_creates creates
    rfl
  reads := isSome_eq_does operation?_of_reading? fun reads => by
    obtain ⟨_, rfl⟩ := part.exists_of_reads reads
    rfl

/-- The code does nothing else to buffers. -/
def OnlyDoes (kind : Operation) (stmts : List Stmt) : Prop :=
  ∀ stmt ∈ leavesOf stmts, ∀ operation handle,
    operation? stmt = some (operation, handle) → operation = kind

section Segments

variable {job : Job} {names : String → Option Int} {kind : Operation}

theorem OnlyDoes.append {first second : List Stmt} (head : OnlyDoes kind first)
    (tail : OnlyDoes kind second) : OnlyDoes kind (first ++ second) := by
  intro stmt member
  rw [leavesOf_append] at member
  exact (List.mem_append.mp member).elim (head stmt) (tail stmt)

theorem onlyDoes_of_silent {stmts : List Stmt}
    (silent : (leavesOf stmts).filterMap operation? = []) : OnlyDoes kind stmts := by
  intro stmt member operation handle acts
  rw [List.filterMap_eq_nil_iff.mp silent stmt member] at acts
  cases acts

theorem onlyDoes_map {α : Type} {emit : α → Stmt} {handle : α → String}
    (each : ∀ x, (emit x).leaves.filterMap operation? = [(kind, handle x)]) (xs : List α) :
    OnlyDoes kind (xs.map emit) := by
  intro stmt member operation other acts
  rw [leavesOf_map] at member
  obtain ⟨x, _, inside⟩ := List.mem_flatMap.mp member
  have found : (operation, other) ∈ (emit x).leaves.filterMap operation? :=
    List.mem_filterMap.mpr ⟨stmt, inside, acts⟩
  rw [each x] at found
  exact congrArg Prod.fst (List.mem_singleton.mp found)

/-- What looks at another kind of operation sees nothing in the code. -/
theorem OnlyDoes.filterMap_eq_nil {stmts trace : List Stmt} (only : OnlyDoes kind stmts)
    {β : Type} {observe : Stmt → Option (String × β)} {other : Operation}
    (sees : ∀ {stmt found}, observe stmt = some found → operation? stmt = some (other, found.1))
    (different : other ≠ kind) (inside : ∀ stmt ∈ trace, stmt ∈ leavesOf stmts) :
    trace.filterMap observe = [] := by
  apply List.filterMap_eq_nil_iff.mpr
  intro stmt member
  cases seen : observe stmt with
  | none => rfl
  | some found => exact absurd (only stmt (inside stmt member) _ _ (sees seen)) different

/-- The host program before the first buffer is created. -/
def opening (job : Job) (kernelPath : String) : List Stmt :=
  declareAll job ++ HostProgram.setUp job.options kernelPath ++ [.blank]

/-- The host program after the last buffer is read back. -/
def closing (job : Job) : List Stmt :=
  [.blank] ++ releaseAll job ++ HostProgram.release

private theorem onlyDoes_opening (kernelPath : String) :
    OnlyDoes .declare (opening job kernelPath) :=
  ((onlyDoes_map (fun _ => rfl) (arrays job)).append (onlyDoes_of_silent rfl)).append
    (onlyDoes_of_silent rfl)

private theorem onlyDoes_createAll : OnlyDoes .create (createAll job) :=
  onlyDoes_map (fun _ => rfl) (arrays job)

private theorem onlyDoes_middle {nodes : List Node} {code : HostCode}
    (emits : Emits job nodes code) : OnlyDoes .bind ([.blank] ++ code.stmts ++ [.blank]) := by
  refine ((onlyDoes_of_silent rfl).append ?_).append (onlyDoes_of_silent rfl)
  intro stmt leaf operation handle acts
  exact (operation_of_emitted emits leaf acts).1

theorem onlyDoes_copyBackAll : OnlyDoes .read (copyBackAll job) := by
  intro stmt leaf operation handle acts
  obtain ⟨array, _, rfl⟩ := leaf_of_copyBackAll leaf
  cases acts
  rfl

private theorem onlyDoes_closing : OnlyDoes .release (closing job) :=
  ((onlyDoes_of_silent rfl).append (onlyDoes_map (fun _ => rfl) (arrays job))).append
    (onlyDoes_of_silent rfl)

theorem body_eq_segments (kernelPath : String) (stmts : List Stmt) :
    HostProgram.body job kernelPath (createAll job) stmts =
      opening job kernelPath ++ createAll job ++ ([.blank] ++ stmts ++ [.blank]) ++
        copyBackAll job ++ closing job := by
  simp [HostProgram.body, opening, closing]

/-- Of the five parts of the host program, only the second and the fourth create buffers
or read them back. -/
theorem filterMap_segments {nodes : List Node} {code : HostCode} (emits : Emits job nodes code)
    {kernelPath : String} {β : Type} {observe : Stmt → Option (String × β)} {other : Operation}
    (sees : ∀ {stmt found}, observe stmt = some found → operation? stmt = some (other, found.1))
    (moves : other = .create ∨ other = .read) {first second third fourth fifth : List Stmt}
    (opens : ∀ stmt ∈ first, stmt ∈ leavesOf (opening job kernelPath))
    (launches : ∀ stmt ∈ third, stmt ∈ leavesOf ([.blank] ++ code.stmts ++ [.blank]))
    (closes : ∀ stmt ∈ fifth, stmt ∈ leavesOf (closing job)) :
    (first ++ second ++ third ++ fourth ++ fifth).filterMap observe =
      second.filterMap observe ++ fourth.filterMap observe := by
  have elsewhere : other ≠ .declare ∧ other ≠ .bind ∧ other ≠ .release := by
    rcases moves with rfl | rfl <;> exact ⟨nofun, nofun, nofun⟩
  simp only [List.filterMap_append,
    (onlyDoes_opening kernelPath).filterMap_eq_nil sees elsewhere.1 opens,
    (onlyDoes_middle emits).filterMap_eq_nil sees elsewhere.2.1 launches,
    onlyDoes_closing.filterMap_eq_nil sees elsewhere.2.2 closes,
    List.nil_append, List.append_nil]

end Segments

section Run

variable {job : Job} {names : String → Option Int} {trace : List Stmt}

/-- The statement that reads the buffer of an array back, if it is copied out. -/
def copiedBack (job : Job) (array : ArrayDecl) : List Stmt :=
  if job.touches job.program.copyOut array then [copyBack job array] else []

private theorem copyBackAll_eq_flatMap :
    copyBackAll job = (arrays job).flatMap (copiedBack job) := by
  unfold copyBackAll
  induction arrays job with
  | nil => rfl
  | cons array rest ih =>
    cases selected : job.touches job.program.copyOut array <;> simp [copiedBack, selected, ih]

private theorem creations_createAll (run : Executes (resolvedOf names (createAll job)) trace) :
    trace.filterMap creation? =
      (arrays job).map fun array => (array.bufferName, allocationSize job array) := by
  have same : resolvedOf names (createAll job) = createAll job := by
    unfold createAll
    induction arrays job with
    | nil => rfl
    | cons array rest ih => exact congrArg (create job array _ :: ·) ih
  rw [same] at run
  rw [List.map_eq_flatMap]
  apply run.filterMap_map
  intro array path inside
  rw [inside.eq_body_of_scope rfl]
  rfl

/-- Whatever is read back for an array is its whole buffer. -/
theorem readings_copiedBack {array : ArrayDecl} {path : List Stmt}
    (run : Executes (resolvedOf names (copiedBack job array)) path) :
    path.filterMap reading? = path.map fun _ => (array.bufferName, byteSize array) := by
  unfold copiedBack at run
  split at run
  · rcases path_copyBack run with rfl | rfl <;> rfl
  · cases run
    rfl

/-- Along a path, each buffer is created with its size, and read back on the part of
the path that belongs to it. -/
theorem exists_usages {tree : Node} {code : HostCode} (emits : Emits job [tree] code)
    {kernelPath : String} (run : Executes
      (resolvedOf names (HostProgram.body job kernelPath (createAll job) code.stmts)) trace) :
    ∃ usages, Accounts job tree trace usages ∧ ∀ usage ∈ usages,
      usage.size = allocationSize job usage.array ∧
      ∃ path, Executes (resolvedOf names (copiedBack job usage.array)) path ∧
        usage.reads = path.map fun _ => byteSize usage.array := by
  have seen : ∀ stmt ∈ trace, Seen tree stmt := fun stmt member =>
    (part_of_body emits (run.mem_leaves_of_resolvedOf stmt member)).seen
  rw [body_eq_segments] at run
  obtain ⟨_, fifth, rfl, run, atBack⟩ := run.append_of_resolvedOf
  obtain ⟨_, fourth, rfl, run, copying⟩ := run.append_of_resolvedOf
  obtain ⟨_, third, rfl, run, between⟩ := run.append_of_resolvedOf
  obtain ⟨first, second, rfl, atFront, creating⟩ := run.append_of_resolvedOf
  have opens := atFront.mem_leaves_of_resolvedOf
  have launches := between.mem_leaves_of_resolvedOf
  have closes := atBack.mem_leaves_of_resolvedOf
  have created : (first ++ second ++ third ++ fourth ++ fifth).filterMap creation? =
      (arrays job).map fun array => (array.bufferName, allocationSize job array) := by
    rw [filterMap_segments emits operation?_of_creation? (.inl rfl) opens launches closes,
      creations_createAll creating, onlyDoes_copyBackAll.filterMap_eq_nil operation?_of_creation?
        nofun copying.mem_leaves_of_resolvedOf, List.append_nil]
  have read : (first ++ second ++ third ++ fourth ++ fifth).filterMap reading? =
      fourth.filterMap reading? := by
    rw [filterMap_segments emits operation?_of_reading? (.inr rfl) opens launches closes,
      onlyDoes_createAll.filterMap_eq_nil operation?_of_reading? nofun
        creating.mem_leaves_of_resolvedOf, List.nil_append]
  rw [copyBackAll_eq_flatMap, resolvedOf_flatMap] at copying
  obtain ⟨parts, owners, rfl, each⟩ := copying.exists_parts
  refine ⟨parts.map fun (array, path) =>
    ⟨array, allocationSize job array, path.map fun _ => byteSize array⟩, ⟨seen, ?_, ?_, ?_⟩, ?_⟩
  · rw [List.map_map]
    exact owners
  · rw [created, ← owners, List.map_map, List.map_map]
    rfl
  · rw [read, List.filterMap_flatMap, List.flatMap_map, List.flatMap_def, List.flatMap_def]
    refine congrArg List.flatten (List.map_congr_left fun part member => ?_)
    rw [readings_copiedBack (each part member), List.map_map]
    rfl
  · intro usage member
    obtain ⟨⟨array, path⟩, listed, rfl⟩ := List.mem_map.mp member
    exact ⟨rfl, path, each _ listed, rfl⟩

/-- The text of the host program reads back the arrays that are copied out, and no
others. -/
theorem readings_body {nodes : List Node} {code : HostCode} (emits : Emits job nodes code)
    {kernelPath : String} :
    (leavesOf (HostProgram.body job kernelPath (createAll job) code.stmts)).filterMap reading? =
      ((arrays job).filter (job.touches job.program.copyOut)).map fun array =>
        (array.bufferName, byteSize array) := by
  rw [body_eq_segments, leavesOf_append, leavesOf_append, leavesOf_append, leavesOf_append,
    filterMap_segments emits operation?_of_reading? (.inr rfl) (fun _ => id) (fun _ => id)
      (fun _ => id),
    onlyDoes_createAll.filterMap_eq_nil operation?_of_reading? nofun (fun _ => id),
    List.nil_append]
  rw [copyBackAll, leavesOf_map, List.filterMap_flatMap, List.map_eq_flatMap,
    List.flatMap_def, List.flatMap_def]
  refine congrArg List.flatten (List.map_congr_left fun array _ => ?_)
  rcases copyBack_cases job array with same | ⟨cond, same⟩ <;> rw [same] <;> rfl

theorem Usage.copiedOut {usage : Usage} (plain : job.algebra = .syntactic) {path : List Stmt}
    (run : Executes (resolvedOf names (copiedBack job usage.array)) path)
    (reads : usage.reads = path.map fun _ => byteSize usage.array) :
    usage.CopiedOut job names := by
  unfold copiedBack at run
  cases selected : job.touches job.program.copyOut usage.array with
  | false =>
    simp only [selected] at run
    cases run
    exact {
      unselected := fun _ => reads
      once := .inl reads
      selected := fun other => absurd (selected.symm.trans other) nofun }
  | true =>
    simp only [selected, ↓reduceIte] at run
    have paths := path_copyBack run
    exact {
      unselected := fun other => absurd (selected.symm.trans other) nofun
      once := by rcases paths with rfl | rfl <;> simp [reads]
      selected := fun _ known sized => by
        rw [← path_copyBack_iff plain known sized run, reads]
        rcases paths with rfl | rfl <;> simp }

end Run

/-- Whatever the names stand for, there is a path through the host program, and along
every one of them each array that is copied out is read back exactly where it has
elements, if the context holds there. The text of the program reads back no other one, in
whatever form. -/
theorem copiedOut_of_generate {job : Job} (plain : job.algebra = .syntactic)
    {kernelPath headerName : String} {tree : Node} {files : Files}
    (generated : (job.generate kernelPath headerName tree).result = .ok files) :
    (leavesOf files.host.code).filterMap reading? =
        ((arrays job).filter (job.touches job.program.copyOut)).map (fun array =>
          (array.bufferName, byteSize array)) ∧
      (∀ stmt ∈ leavesOf files.host.code, Seen tree stmt) ∧
      ∀ names : String → Option Int,
        (∃ trace, Executes (resolvedOf names files.host.code) trace) ∧
        ∀ trace, Executes (resolvedOf names files.host.code) trace →
          ∃ usages, Accounts job tree trace usages ∧
            ∀ usage ∈ usages, usage.CopiedOut job names := by
  obtain ⟨code, emits, host, _⟩ := Job.exists_emits_of_generate generated
  rw [host]
  refine ⟨readings_body emits, fun stmt leaf => (part_of_body emits leaf).seen,
    fun names => ⟨Executes.exists_trace _, ?_⟩⟩
  intro trace run
  obtain ⟨usages, accounts, each⟩ := exists_usages emits run
  refine ⟨usages, accounts, ?_⟩
  intro usage member
  obtain ⟨_, path, inside, reads⟩ := each usage member
  exact Usage.copiedOut plain inside reads

theorem usages_in_sample {trace : List Stmt} {usages : List Usage}
    (accounts : Accounts Sample.job Sample.tree trace usages) :
    ∃ size reads sumSize sumReads, usages =
      [⟨.declare "A" "float" [.var "N"] ["N"], size, reads⟩,
        ⟨.declare "sum" "double" [] ["N"], sumSize, sumReads⟩] := by
  obtain ⟨⟨_, size, reads⟩, _, rfl, rfl, rest⟩ := List.map_eq_cons_iff.mp accounts.arrays
  obtain ⟨⟨_, sumSize, sumReads⟩, _, rfl, rfl, none⟩ := List.map_eq_cons_iff.mp rest
  obtain rfl := List.map_eq_nil_iff.mp none
  exact ⟨size, reads, sumSize, sumReads, rfl⟩

/-- The array of the sample is read back where its length is positive, the sum always. -/
theorem readings_in_sample {n : Int} {trace : List Stmt} {usages : List Usage}
    (accounts : Accounts Sample.job Sample.tree trace usages)
    (each : ∀ usage ∈ usages, usage.CopiedOut Sample.job (Sample.namesAt n)) :
    trace.filterMap reading? =
      (if 1 ≤ n then [("dev_A", .byteSize [.var "N"] (.elem (.scalar .float32)))] else []) ++
        [("dev_sum", .byteSize [] (.elem (.scalar .float64)))] := by
  obtain ⟨size, reads, sumSize, sumReads, rfl⟩ := usages_in_sample accounts
  obtain ⟨array, sum, _⟩ := List.forall_mem_cons.mp each |>.imp_right List.forall_mem_cons.mp
  have known : Sample.job.program.context.Holds (Sample.namesAt n) :=
    ⟨[], List.mem_singleton_self _, nofun⟩
  have sized : (ArrayDecl.declare "A" "float" [.var "N"] ["N"]).Sized (Sample.namesAt n) :=
    List.forall_mem_singleton.mpr rfl
  obtain rfl : sumReads = [.byteSize [] (.elem (.scalar .float64))] :=
    (sum.selected rfl known nofun).mpr nofun
  rw [accounts.readings]
  split
  · rename_i positive
    obtain rfl : reads = [.byteSize [.var "N"] (.elem (.scalar .float32))] :=
      (array.selected rfl known sized).mpr (List.forall_mem_singleton.mpr ⟨n, rfl, positive⟩)
    rfl
  · rename_i none
    have empty : ¬ (ArrayDecl.declare "A" "float" [.var "N"] ["N"]).HasElements
        (Sample.namesAt n) := by
      intro elements
      obtain ⟨_, found, positive⟩ := elements _ (List.mem_singleton_self _)
      exact none (Option.some.inj found ▸ positive)
    obtain rfl : reads = [] :=
      array.once.resolve_right (mt (array.selected rfl known sized).mp empty)
    rfl

/-- The sample reads both of its buffers back at length four, and none but the sum if
the array is empty. -/
theorem copiedOut_in_sample :
    ∃ files, (Sample.job.generate "code.cl" "code.h" Sample.tree).result = .ok files ∧
      (∃ trace, Executes (resolvedOf (Sample.namesAt 4) files.host.code) trace) ∧
      (∀ trace, Executes (resolvedOf (Sample.namesAt 4) files.host.code) trace →
        trace.filterMap reading? =
          [("dev_A", .byteSize [.var "N"] (.elem (.scalar .float32))),
            ("dev_sum", .byteSize [] (.elem (.scalar .float64)))]) ∧
      ∀ trace, Executes (resolvedOf (Sample.namesAt 0) files.host.code) trace →
        trace.filterMap reading? = [("dev_sum", .byteSize [] (.elem (.scalar .float64)))] := by
  obtain ⟨files, generated⟩ := Sample.exists_files
  have copied := (copiedOut_of_generate rfl generated).2.2
  refine ⟨files, generated, (copied _).1, ?_, ?_⟩
  · intro trace run
    obtain ⟨usages, accounts, each⟩ := (copied _).2 trace run
    exact readings_in_sample accounts each
  · intro trace run
    obtain ⟨usages, accounts, each⟩ := (copied _).2 trace run
    exact readings_in_sample accounts each

end Offload.Buffer
