import Offload.Proofs.Execution.Machine
import Offload.Proofs.Kernel.Body

namespace Offload

open Code

/-- The task of a generated statement. A scope is a launch. -/
def Code.Stmt.task : Stmt → Task Stmt
  | .loop _ iter init cond inc body => .loop iter init cond inc body
  | .branch cond thn els => .branch cond thn els
  | .scope body => .act (.launch body)
  | .verbatim text => .act (.statement text)
  | .assign target value => .act (.copy target value)
  | .barrier => .act .barrier
  | stmt => .act (.other stmt)

def Code.Stmt.tasks (stmt : Stmt) : List (Task Stmt) := [stmt.task]

/-- What a launch does, where the arguments of the kernel are known. -/
def Kernel.launched (job : Job) (kernel : Kernel) : Option Action :=
  match kernel.arguments job with
  | .ok args =>
    some (.launch
      (HostCode.launchBody kernel args (.ofSizes kernel.gridSize kernel.blockSize)))
  | .error _ => none

/-- What a copy does, where its array is known. -/
def Copy.copied (program : Program) (copy : Copy) : Option Action :=
  (program.array? copy.array).map fun array => .copy (copy.ends array).1 (copy.ends array).2

mutual

/-- The tasks of a tree. Running a block means running its nodes one after the other. -/
def Node.tasks (job : Job) : Node → List (Task Node)
  | .loop iter init cond inc body => [.loop iter init cond inc body]
  | .branch cond thn els => [.branch cond thn els]
  | .block body => Node.tasksOf job body
  | .statement _ text => [.act (.statement text)]
  | .copy c => (c.copied job.program).toList.map .act
  | .sync => [.act .barrier]
  | .launch kernel _ => (kernel.launched job).toList.map .act

def Node.tasksOf (job : Job) : List Node → List (Task Node)
  | [] => []
  | node :: rest => node.tasks job ++ Node.tasksOf job rest

end

private theorem Node.tasksOf_eq_flatMap (job : Job) (nodes : List Node) :
    Node.tasksOf job nodes = nodes.flatMap (Node.tasks job) := by
  induction nodes with
  | nil => rfl
  | cons node rest ih => rw [tasksOf, ih, List.flatMap_cons]

/-- Nodes and statements with the same actions under the same control flow. -/
def FlowsAs (job : Job) (nodes : List Node) (stmts : List Stmt) : Prop :=
  Alike (Node.tasks job) Stmt.tasks (nodes.flatMap (Node.tasks job)) (stmts.flatMap Stmt.tasks)

namespace FlowsAs

variable {job : Job}

theorem cons {node : Node} {rest : List Node} {first others : List Stmt}
    (head : FlowsAs job [node] first) (tail : FlowsAs job rest others) :
    FlowsAs job (node :: rest) (first ++ others) := by
  have both := head.append tail
  rw [← List.flatMap_append, ← List.flatMap_append] at both
  exact both

theorem loop {iter : String} {init cond inc : Expr} {body : List Node} {inner : List Stmt}
    (inside : FlowsAs job body inner) :
    FlowsAs job [.loop iter init cond inc body]
      [.loop job.iteratorType iter init cond inc inner] :=
  Alike.loop inside .nil

theorem branch {cond : Expr} {thn els : List Node} {first second : List Stmt}
    (positive : FlowsAs job thn first) (negative : FlowsAs job els second) :
    FlowsAs job [.branch cond thn els] [.branch cond first second] :=
  Alike.branch positive negative .nil

theorem block {body : List Node} {inner : List Stmt} (inside : FlowsAs job body inner) :
    FlowsAs job [.block body] inner := by
  rw [FlowsAs, List.flatMap_singleton, Node.tasks, Node.tasksOf_eq_flatMap]
  exact inside

end FlowsAs

theorem Emits.flowsAs {job : Job} {nodes : List Node} {code : HostCode}
    (emits : Emits job nodes code) : FlowsAs job nodes code.stmts := by
  induction emits with
  | nil => exact .nil
  | cons _ _ ihHead ihTail => exact ihHead.cons ihTail
  | loop _ ih => exact ih.loop
  | branch _ _ ihPositive ihNegative => exact ihPositive.branch ihNegative
  | block _ ih => exact ih.block
  | statement => exact Alike.act .nil
  | launch receives _ =>
    simp only [FlowsAs, List.flatMap_singleton, Node.tasks, Kernel.launched, receives]
    exact .act .nil

theorem EmitsBody.flowsAs {job : Job} {kernel : Kernel} {nodes : List Node} {stmts : List Stmt}
    (emits : EmitsBody job kernel nodes stmts) : FlowsAs job nodes stmts := by
  induction emits with
  | nil => exact .nil
  | cons _ _ ihHead ihTail => exact ihHead.cons ihTail
  | loop _ ih => exact ih.loop
  | branch _ _ ihPositive ihNegative => exact ihPositive.branch ihNegative
  | block _ ih => exact ih.block
  | statement => exact Alike.act .nil
  | copy known =>
    simp only [FlowsAs, List.flatMap_singleton, Node.tasks, Copy.copied, known]
    exact .act .nil
  | sync => exact Alike.act .nil

/-- In every world, from every state and after every number of steps, the tree and the
statements have performed the same actions in the same states, are in the same state,
and either both have come to their end or neither has. -/
def RunsAs (job : Job) (tree : Node) (stmts : List Stmt) : Prop :=
  ∀ (σ : Type) (world : World σ) (state : σ) (steps : Nat),
    let source := (Config.start (Node.tasks job) [tree] state).run world (Node.tasks job) steps
    let target := (Config.start Stmt.tasks stmts state).run world Stmt.tasks steps
    target.performed = source.performed ∧ target.state = source.state ∧
      (target.tasks = [] ↔ source.tasks = [])

theorem FlowsAs.runsAs {job : Job} {tree : Node} {stmts : List Stmt}
    (flows : FlowsAs job [tree] stmts) : RunsAs job tree stmts := by
  intro σ world state steps
  have agree : (Config.start (Node.tasks job) [tree] state).Agree (Node.tasks job) Stmt.tasks
      (Config.start Stmt.tasks stmts state) := ⟨flows, rfl, rfl⟩
  have after := agree.run world steps
  exact ⟨after.performed.symm, after.state.symm, after.tasks.eq_nil_iff.symm⟩

/-- The statements that are generated for a tree of the host program, or for the body of
a kernel, run as the tree or the body does. -/
theorem generated_code_runs_as_tree (job : Job) :
    (∀ tree code, (HostCode.ofNode job tree).result = .ok code → RunsAs job tree code.stmts) ∧
    ∀ (kernel : Kernel) body stmts, kernel.bodyOf job body = .ok stmts → RunsAs job body stmts :=
  ⟨fun _ _ done => (emits_of_ofNode done).flowsAs.runsAs,
    fun _ _ _ done => (emitsBody_of_bodyOf done).flowsAs.runsAs⟩

/-- A world that knows a single iterator, with `N` equal to two. -/
def Sample.world : World Int where
  value iter e := e.value fun name => some (if name = "N" then 2 else iter)
  read iter _ := iter
  write _ _ n := n
  perform _ iter := iter

/-- The body of the first kernel of the sample. -/
def Sample.scaleBody : Node :=
  .block [.copy ⟨"staged", "A", .read, [.var "t0"], [.var "b0"]⟩, .sync]

/-- The loop of the sample launches its first kernel in two rounds, in ten steps, and the
kernel copies one element before its barrier. -/
theorem generated_code_runs_in_sample :
    (∃ code, (HostCode.ofNode Sample.job Sample.tree).result = .ok code ∧
      let last := (Config.start Stmt.tasks code.stmts 7).run Sample.world Stmt.tasks 10
      last.performed.map Prod.snd = [0, 1] ∧ last.tasks = []) ∧
    ∃ stmts, Sample.scale.bodyOf Sample.job Sample.scaleBody = .ok stmts ∧
      let last := (Config.start Stmt.tasks stmts 7).run Sample.world Stmt.tasks 2
      last.performed = [(.copy (.access "staged" [.var "t0"]) (.access "A" [.var "b0"]), 7),
        (.barrier, 7)] := by
  obtain ⟨host, kernel⟩ := generated_code_runs_as_tree Sample.job
  refine ⟨⟨_, rfl, ?_⟩, ⟨_, rfl, ?_⟩⟩
  · obtain ⟨performed, _, finished⟩ := host Sample.tree _ rfl Int Sample.world 7 10
    exact ⟨congrArg (List.map Prod.snd) performed, finished.mpr rfl⟩
  · obtain ⟨performed, _, _⟩ := kernel Sample.scale Sample.scaleBody _ rfl Int Sample.world 7 2
    exact performed

end Offload
