import Offload.Proofs.Code.Execution
import Offload.Proofs.Consistency

namespace Offload

open Code

private theorem Argument.isSimple_bind (name : String) (arg : Argument) (position : Nat) :
    (arg.bind name position).isSimple = true := by
  rcases arg with ⟨kind, _, _⟩
  cases kind <;> rfl

theorem HostCode.isSimple_launchBody (kernel : Kernel) (args : List Argument)
    (geometry : Geometry) : (launchBody kernel args geometry).all Stmt.isSimple = true := by
  have binds : (Argument.bindAll kernel.name args).all Stmt.isSimple = true := by
    simp [Argument.bindAll, Argument.isSimple_bind]
  rw [launchBody, List.all_append, List.all_append, binds]
  rfl

/-- The statements of a launch. -/
theorem HostCode.launchBody_cases {kernel : Kernel} {args : List Argument} {geometry : Geometry}
    {stmt : Stmt} (member : stmt ∈ launchBody kernel args geometry) :
    (∃ arg ∈ args, ∃ position, stmt = arg.bind kernel.name position) ∨
      stmt = .defineArray .sizeT "global_work_size" geometry.workDim geometry.global ∨
      stmt = .defineArray .sizeT "block_size" geometry.workDim (geometry.group.map .int) ∨
      stmt = .define .clKernel [(kernel.name,
        .call "clCreateKernel" [.var "program", .str kernel.name, .errAddress])] ∨
      stmt = .checkErr ∨
      stmt = .checkCall "clEnqueueNDRangeKernel" [
        .var "queue", .var kernel.name, .int geometry.workDim, .var "NULL",
        .var "global_work_size", .var "block_size", .int 0, .var "NULL", .var "NULL"] ∨
      stmt = .checkCall "clFinish" [.var "queue"] ∨
      stmt = .checkCall "clReleaseKernel" [.var kernel.name] := by
  simp only [launchBody, List.mem_append, List.mem_cons, List.not_mem_nil, or_false] at member
  rcases member with (before | bound) | after
  · rcases before with same | same | same | same <;> simp [same]
  · obtain ⟨⟨arg, position⟩, listed, same⟩ := List.mem_map.mp bound
    exact .inl ⟨arg, List.fst_mem_of_mem_zipIdx listed, position, same.symm⟩
  · rcases after with same | same | same <;> simp [same]

/-- The code of the tree consists of the statements of the tree and of launches. -/
theorem Emits.leaf_cases {job : Job} {nodes : List Node} {code : HostCode}
    (emits : Emits job nodes code) {stmt : Stmt} (leaf : stmt ∈ leavesOf code.stmts) :
    (∃ name text, .statement name text ∈ Node.leavesOf nodes ∧ stmt = .verbatim text) ∨
      ∃ kernel args, kernel.arguments job = .ok args ∧
        stmt ∈ HostCode.launchBody kernel args (.ofSizes kernel.gridSize kernel.blockSize) := by
  induction emits with
  | nil => cases leaf
  | @cons node rest _ _ _ _ ihHead ihTail =>
    rw [leavesOf_append] at leaf
    have split : Node.leavesOf (node :: rest) = Node.leavesOf [node] ++ Node.leavesOf rest := by
      simp [Node.leavesOf]
    rw [split]
    rcases List.mem_append.mp leaf with here | later
    · exact (ihHead here).imp_left fun ⟨name, text, member, same⟩ =>
        ⟨name, text, List.mem_append_left _ member, same⟩
    · exact (ihTail later).imp_left fun ⟨name, text, member, same⟩ =>
        ⟨name, text, List.mem_append_right _ member, same⟩
  | loop _ ih =>
    simpa [Node.leavesOf, Node.leaves] using ih (by simpa [leavesOf, Stmt.leaves] using leaf)
  | @branch _ _ _ first second _ _ ihPositive ihNegative =>
    have parts : stmt ∈ leavesOf first.stmts ∨ stmt ∈ leavesOf second.stmts := by
      simpa [leavesOf, Stmt.leaves] using leaf
    simp only [Node.leavesOf, Node.leaves, List.append_nil, List.mem_append]
    rcases parts with yes | no
    · exact (ihPositive yes).imp_left fun ⟨name, text, member, same⟩ =>
        ⟨name, text, .inl member, same⟩
    · exact (ihNegative no).imp_left fun ⟨name, text, member, same⟩ =>
        ⟨name, text, .inr member, same⟩
  | block _ ih => simpa [Node.leavesOf, Node.leaves] using ih leaf
  | @statement name text =>
    left
    exact ⟨name, text, List.mem_singleton_self _, by simpa [leavesOf, Stmt.leaves] using leaf⟩
  | @launch kernel body args definition receives _ =>
    right
    refine ⟨kernel, args, receives, ?_⟩
    rw [← leavesOf_of_isSimple (HostCode.isSimple_launchBody kernel args _)]
    simpa [leavesOf, Stmt.leaves] using leaf

/-- A path declares the handles and sets up the device, creates the buffers, goes
through the code of the tree, reads buffers back, releases them, and gives back the
device. -/
theorem HostProgram.executes_body {job : Job} {kernelPath : String}
    {allocations launches trace : List Stmt}
    (run : Executes (body job kernelPath allocations launches) trace) :
    ∃ created launched copied released,
      Executes allocations created ∧ Executes launches launched ∧
      Executes (Buffer.copyBackAll job) copied ∧ Executes (Buffer.releaseAll job) released ∧
      trace = Buffer.declareAll job ++ setUp job.options kernelPath ++ [.blank] ++ created ++
        [.blank] ++ launched ++ [.blank] ++ copied ++ [.blank] ++ released ++ release := by
  obtain ⟨_, ending, rfl, run, atEnd⟩ := run.append
  obtain ⟨_, released, rfl, run, releasing⟩ := run.append
  obtain ⟨_, fourth, rfl, run, atFourth⟩ := run.append
  obtain ⟨_, copied, rfl, run, copying⟩ := run.append
  obtain ⟨_, third, rfl, run, atThird⟩ := run.append
  obtain ⟨_, launched, rfl, run, launching⟩ := run.append
  obtain ⟨_, second, rfl, run, atSecond⟩ := run.append
  obtain ⟨_, created, rfl, run, creating⟩ := run.append
  obtain ⟨_, first, rfl, run, atFirst⟩ := run.append
  obtain ⟨declared, prepared, rfl, declaring, preparing⟩ := run.append
  have simple : (Buffer.declareAll job).all Stmt.isSimple = true := by
    simp [Buffer.declareAll, Stmt.isSimple]
  rw [declaring.eq_of_isSimple simple, preparing.eq_of_isSimple rfl, atFirst.eq_of_isSimple rfl,
    atSecond.eq_of_isSimple rfl, atThird.eq_of_isSimple rfl, atFourth.eq_of_isSimple rfl,
    atEnd.eq_of_isSimple rfl]
  exact ⟨created, launched, copied, released, creating, launching, copying, releasing, rfl⟩

end Offload
