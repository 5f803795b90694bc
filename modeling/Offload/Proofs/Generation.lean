import Offload.Files

/-! What a successful run of the generator has put together. The relation `Emits`
says which code stands for a part of the tree, one rule for each kind of node. -/

namespace Offload

/-- A key that occurs once finds its owner. -/
theorem filter_key {α : Type} {key : α → String} {xs : List α} (distinct : (xs.map key).Nodup)
    {x : α} (member : x ∈ xs) : xs.filter (key · == key x) = [x] := by
  induction xs with
  | nil => cases member
  | cons first rest ih =>
    obtain ⟨fresh, others⟩ := List.nodup_cons.mp distinct
    rcases List.mem_cons.mp member with rfl | member
    · have none : rest.filter (key · == key x) = [] := by
        simp only [List.filter_eq_nil_iff, beq_iff_eq]
        intro other inside same
        exact fresh (same ▸ List.mem_map_of_mem inside)
      rw [List.filter_cons_of_pos (by simp), none]
    · have different : key first ≠ key x := fun same => fresh (same ▸ List.mem_map_of_mem member)
      rw [List.filter_cons_of_neg (by simpa using different), ih others member]

namespace Traced

variable {α β : Type}

/-- Two steps succeed together if both do. -/
theorem bind_eq_ok {x : Traced α} {next : α → Traced β} {b : β} :
    (x >>= next).result = .ok b ↔ ∃ a, x.result = .ok a ∧ (next a).result = .ok b := by
  cases found : x.result with
  | ok a => simp [bind_of_ok found]
  | error fault => simp [bind_of_error found]

end Traced

open HostCode

/-- The code of a list of nodes, where its generation succeeds. -/
inductive Emits (job : Job) : List Node → HostCode → Prop where
  | nil : Emits job [] ⟨[], []⟩
  | cons {node : Node} {rest : List Node} {first others : HostCode}
      (head : Emits job [node] first) (tail : Emits job rest others) :
      Emits job (node :: rest) ⟨first.stmts ++ others.stmts, first.kernels ++ others.kernels⟩
  | loop {iter : String} {init cond inc : Expr} {body : List Node} {inner : HostCode}
      (inside : Emits job body inner) :
      Emits job [.loop iter init cond inc body]
        ⟨[.loop job.iteratorType iter init cond inc inner.stmts], inner.kernels⟩
  | branch {cond : Expr} {thn els : List Node} {first second : HostCode}
      (positive : Emits job thn first) (negative : Emits job els second) :
      Emits job [.branch cond thn els]
        ⟨[.branch cond first.stmts second.stmts], first.kernels ++ second.kernels⟩
  | block {body : List Node} {inner : HostCode} (inside : Emits job body inner) :
      Emits job [.block body] inner
  | statement {name text : String} : Emits job [.statement name text] ⟨[.verbatim text], []⟩
  | launch {kernel : Kernel} {body : Node} {args : List Argument} {definition : KernelDef}
      (receives : kernel.arguments job = .ok args)
      (defines : kernel.define job args body = .ok definition) :
      Emits job [.launch kernel body]
        ⟨[.scope (launchBody kernel args (.ofSizes kernel.gridSize kernel.blockSize))],
          [definition]⟩

mutual

theorem emits_of_ofNode {job : Job} {node : Node} {code : HostCode}
    (done : (ofNode job node).result = .ok code) : Emits job [node] code := by
  cases node with
  | loop iter init cond inc body =>
    obtain ⟨inner, inside, same⟩ := Traced.bind_eq_ok.mp done
    cases same
    exact .loop (emits_of_ofNodes inside)
  | branch cond thn els =>
    obtain ⟨first, positive, rest⟩ := Traced.bind_eq_ok.mp done
    obtain ⟨second, negative, same⟩ := Traced.bind_eq_ok.mp rest
    cases same
    exact .branch (emits_of_ofNodes positive) (emits_of_ofNodes negative)
  | block body => exact .block (emits_of_ofNodes done)
  | statement name text =>
    cases done
    exact .statement
  | copy copy => cases done
  | sync => cases done
  | launch kernel body =>
    obtain ⟨args, receives, rest⟩ := Traced.bind_eq_ok.mp done
    obtain ⟨_, _, rest⟩ := Traced.bind_eq_ok.mp rest
    obtain ⟨definition, defines, rest⟩ := Traced.bind_eq_ok.mp rest
    obtain ⟨_, _, same⟩ := Traced.bind_eq_ok.mp rest
    cases same
    exact .launch receives defines

theorem emits_of_ofNodes {job : Job} {nodes : List Node} {code : HostCode}
    (done : (ofNodes job nodes).result = .ok code) : Emits job nodes code := by
  cases nodes with
  | nil =>
    cases done
    exact .nil
  | cons node rest =>
    obtain ⟨first, head, more⟩ := Traced.bind_eq_ok.mp done
    obtain ⟨others, tail, same⟩ := Traced.bind_eq_ok.mp more
    cases same
    exact .cons (emits_of_ofNode head) (emits_of_ofNodes tail)

end

theorem Kernel.define_eq_ok {job : Job} {kernel : Kernel} {args : List Argument} {body : Node}
    {definition : KernelDef} (defines : kernel.define job args body = .ok definition) :
    ∃ staging stmts, kernel.vars.mapM (kernel.declareStaging job.program) = .ok staging ∧
      kernel.bodyOf job body = .ok stmts ∧
      definition = {
        name := kernel.name
        params := args.map Argument.param
        body := kernel.prologue job ++ staging ++ .blank :: stmts
        needsFloorDiv := needsFloorDiv job.program body } := by
  obtain ⟨staging, declared, rest⟩ := Fault.bind_eq_ok.mp defines
  obtain ⟨stmts, translated, same⟩ := Fault.bind_eq_ok.mp rest
  exact ⟨staging, stmts, declared, translated, (Except.ok.inj same).symm⟩

theorem Kernel.arguments_eq_ok {job : Job} {kernel : Kernel} {args : List Argument}
    (receives : kernel.arguments job = .ok args) :
    args = (job.program.arrays.filter (job.touches kernel.footprint)).map .ofArray ++
      kernel.footprint.params.map (⟨.parameter, ·, .int⟩) ++
      kernel.space.dims.map (⟨.iterator, ·, job.iteratorType⟩) := by
  unfold arguments at receives
  split at receives
  · cases receives
  · exact (Except.ok.inj receives).symm

namespace Buffer

/-- The statements that create the buffers. -/
def createAll (job : Job) : List Code.Stmt :=
  (arrays job).map fun array => create job array (job.touches job.program.copyIn array)

theorem allocateAll_result (job : Job) : (allocateAll job).result = .ok (createAll job) := by
  unfold allocateAll createAll
  induction arrays job with
  | nil => rfl
  | cons array rest ih =>
    rw [List.mapM_cons, List.map_cons]
    exact Traced.bind_eq_ok.mpr ⟨_, rfl, Traced.bind_eq_ok.mpr ⟨_, ih, rfl⟩⟩

theorem copyBack_cases (job : Job) (array : ArrayDecl) :
    copyBack job array = readBack job array ∨
      ∃ cond, copyBack job array = .branch cond [readBack job array] [] := by
  simp only [copyBack]
  split
  · exact .inl rfl
  · exact .inr ⟨_, rfl⟩

end Buffer

namespace Code

def Item.body : Item → List Stmt
  | .defineFn _ _ _ _ body | .scope body => body
  | _ => []

/-- The statements of a file, in order. -/
def File.code (file : File) : List Stmt := file.flatMap Item.body

end Code

private theorem HostProgram.file_code (job : Job) (headerName : String) (tree : Node)
    (body : List Code.Stmt) : (file job headerName tree body).code = body := by
  simp only [file, helpers, Code.File.code, List.flatMap_append]
  cases job.options.hostFunction <;> simp [Code.Item.body, List.flatMap_map]

/-- The files of a run, from the code of the tree. -/
theorem Job.generate_eq_ok {job : Job} {kernelPath headerName : String} {tree : Node}
    {files : Files} (generated : (job.generate kernelPath headerName tree).result = .ok files) :
    ∃ code, Emits job [tree] code ∧
      files = {
        host := HostProgram.file job headerName tree
          (HostProgram.body job kernelPath (Buffer.createAll job) code.stmts)
        kernel := KernelModule.file job.program code.kernels
        header := headerFile } := by
  obtain ⟨code, translated, rest⟩ := Traced.bind_eq_ok.mp generated
  obtain ⟨allocations, allocated, same⟩ := Traced.bind_eq_ok.mp rest
  obtain rfl : Buffer.createAll job = allocations := by
    rw [Buffer.allocateAll_result] at allocated
    exact Except.ok.inj allocated
  cases same
  exact ⟨code, emits_of_ofNode translated, rfl⟩

/-- The files of a run: the code of the tree, between what the host program does
for the buffers, and the definitions of the kernels. -/
theorem Job.exists_emits_of_generate {job : Job} {kernelPath headerName : String} {tree : Node}
    {files : Files} (generated : (job.generate kernelPath headerName tree).result = .ok files) :
    ∃ code, Emits job [tree] code ∧
      files.host.code = HostProgram.body job kernelPath (Buffer.createAll job) code.stmts ∧
      files.kernel = KernelModule.file job.program code.kernels := by
  obtain ⟨code, emits, rfl⟩ := Job.generate_eq_ok generated
  exact ⟨code, emits, HostProgram.file_code _ _ _ _, rfl⟩

namespace Sample

/-- An array, a scalar that is written, and one that is only read. -/
def program : Program where
  params := ["N"]
  arrays := [.declare "A" "float" [.var "N"] ["N"], .declare "sum" "double" [] ["N"],
    (ArrayDecl.declare "alpha" "float" [] ["N"]).markReadOnly true]
  copyIn := { params := ["N"], regions := [.full (.named "A" ["N"] ["i0"])] }
  copyOut := {
    params := ["N"]
    regions := [.full (.named "A" ["N"] ["i0"]), .full (.named "sum" ["N"] [])] }

def job : Job := { program }

def scale : Kernel where
  id := 0
  footprint := {
    params := ["N"]
    regions := [.full (.named "A" ["N"] ["i0"]), .full (.named "alpha" ["N"] [])] }
  space := .named "scale" ["N"] ["t"]
  gridSize := [.var "N"]
  blockSize := [32]
  vars := [⟨"staged", "A", .group, [.lit 32]⟩]

def reduce : Kernel where
  id := 7
  footprint := {
    regions := [.full (.named "sum" ["N"] []), .full (.named "A" ["N"] ["i0"])] }
  space := .named "reduce" ["N"] ["t"]
  gridSize := []
  blockSize := []
  vars := []

/-- A loop that launches one kernel in every round, and another one in some. -/
def tree : Node :=
  .loop "t" (.lit 0) (.bin .lt (.var "t") (.var "N")) (.lit 1) [
    .launch scale (.block [.copy ⟨"staged", "A", .read, [.var "t0"], [.var "b0"]⟩, .sync]),
    .branch (.bin .gt (.var "t") (.lit 2)) [.launch reduce (.statement "S" "sum += A[t];")] []]

theorem exists_files : ∃ files, (job.generate "code.cl" "code.h" tree).result = .ok files :=
  ⟨_, rfl⟩

end Sample

end Offload
