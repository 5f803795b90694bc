import Mathlib.Data.List.Forall2
import Offload.Proofs.Code.Execution
import Offload.Proofs.Generation

namespace Offload

open Code

/-- The staging variable at its end of a copy. -/
def Copy.staged (copy : Copy) : Term := .access copy.var copy.localIndex

/-- Where a copy between a staging variable and this array goes, and where it comes from. -/
def Copy.ends (copy : Copy) (array : ArrayDecl) : Term × Term :=
  match copy.direction with
  | .read => (copy.staged, array.element copy.globalIndex)
  | .write => (array.element copy.globalIndex, copy.staged)

/-- A copy that fits is one assignment between its two ends. -/
theorem Kernel.copyElement_eq_ok {program : Program} {kernel : Kernel} {copy : Copy} {stmt : Stmt}
    (copied : kernel.copyElement program copy = .ok stmt) :
    ∃ array, program.array? copy.array = some array ∧
      stmt = .assign (copy.ends array).1 (copy.ends array).2 := by
  unfold copyElement at copied
  cases declared : kernel.var? copy.var with
  | none =>
    rw [declared] at copied
    cases copied
  | some var =>
    have named : var.name = copy.var := by simpa using List.find?_some declared
    cases known : program.array? copy.array with
    | none =>
      rw [declared, known] at copied
      cases copied
    | some array =>
      simp only [declared, known] at copied
      split at copied
      · cases copied
      · split at copied
        · cases copied
        · cases copied
          refine ⟨array, rfl, ?_⟩
          cases direction : copy.direction <;> simp [Copy.ends, Copy.staged, direction, named]

private theorem Kernel.declareStaging_eq_ok {program : Program} {kernel : Kernel} {var : StagingVar}
    {stmt : Stmt} (declares : kernel.declareStaging program var = .ok stmt) :
    ∃ memory type dims, stmt = .staging memory type var.name dims := by
  unfold declareStaging at declares
  cases known : program.array? var.array with
  | none =>
    rw [known] at declares
    cases declares
  | some array =>
    rw [known] at declares
    obtain ⟨dims, _, found⟩ := Fault.bind_eq_ok.mp declares
    cases found
    exact ⟨_, _, _, rfl⟩

private theorem Fault.forall₂_of_mapM {α β : Type} {step : α → Except Fault β} {xs : List α}
    {ys : List β}
    (done : xs.mapM step = .ok ys) : List.Forall₂ (fun x y => step x = .ok y) xs ys := by
  induction xs generalizing ys with
  | nil =>
    cases done
    exact .nil
  | cons x rest ih =>
    rw [List.mapM_cons] at done
    obtain ⟨first, here, more⟩ := bind_eq_ok.mp done
    obtain ⟨others, later, same⟩ := bind_eq_ok.mp more
    cases same
    exact .cons here (ih later)

/-- The staging variables of a kernel are declared one by one. -/
theorem Kernel.forall₂_staging {program : Program} {kernel : Kernel} {vars : List StagingVar}
    {staging : List Stmt} (declared : vars.mapM (kernel.declareStaging program) = .ok staging) :
    List.Forall₂ (fun var stmt => ∃ memory type dims, stmt = .staging memory type var.name dims)
      vars staging :=
  (Fault.forall₂_of_mapM declared).imp fun _ _ => declareStaging_eq_ok

theorem Kernel.staging_cases {program : Program} {kernel : Kernel} {vars : List StagingVar}
    {staging : List Stmt} (declared : vars.mapM (kernel.declareStaging program) = .ok staging)
    {stmt : Stmt} (member : stmt ∈ staging) :
    ∃ memory type name dims, stmt = .staging memory type name dims := by
  have declares := forall₂_staging declared
  clear declared
  induction declares with
  | nil => cases member
  | @cons var _ _ _ here _ ih =>
    rcases List.mem_cons.mp member with rfl | inside
    · obtain ⟨memory, type, dims, rfl⟩ := here
      exact ⟨memory, type, var.name, dims, rfl⟩
    · exact ih inside

theorem Kernel.isSimple_staging {program : Program} {kernel : Kernel} {vars : List StagingVar}
    {staging : List Stmt} (declared : vars.mapM (kernel.declareStaging program) = .ok staging) :
    staging.all Stmt.isSimple = true := by
  apply List.all_eq_true.mpr
  intro stmt member
  obtain ⟨_, _, _, _, rfl⟩ := staging_cases declared member
  rfl

/-- The statements of a list of nodes in the body of a kernel, where their generation
succeeds. -/
inductive EmitsBody (job : Job) (kernel : Kernel) : List Node → List Stmt → Prop where
  | nil : EmitsBody job kernel [] []
  | cons {node : Node} {rest : List Node} {first others : List Stmt}
      (head : EmitsBody job kernel [node] first) (tail : EmitsBody job kernel rest others) :
      EmitsBody job kernel (node :: rest) (first ++ others)
  | loop {iter : String} {init cond inc : Expr} {body : List Node} {inner : List Stmt}
      (inside : EmitsBody job kernel body inner) :
      EmitsBody job kernel [.loop iter init cond inc body]
        [.loop job.iteratorType iter init cond inc inner]
  | branch {cond : Expr} {thn els : List Node} {first second : List Stmt}
      (positive : EmitsBody job kernel thn first) (negative : EmitsBody job kernel els second) :
      EmitsBody job kernel [.branch cond thn els] [.branch cond first second]
  | block {body : List Node} {inner : List Stmt} (inside : EmitsBody job kernel body inner) :
      EmitsBody job kernel [.block body] inner
  | statement {name text : String} : EmitsBody job kernel [.statement name text] [.verbatim text]
  | copy {copy : Copy} {array : ArrayDecl} (known : job.program.array? copy.array = some array) :
      EmitsBody job kernel [.copy copy] [.assign (copy.ends array).1 (copy.ends array).2]
  | sync : EmitsBody job kernel [.sync] [.barrier]

mutual

theorem emitsBody_of_bodyOf {job : Job} {kernel : Kernel} {node : Node} {stmts : List Stmt}
    (done : kernel.bodyOf job node = .ok stmts) : EmitsBody job kernel [node] stmts := by
  cases node with
  | loop iter init cond inc body =>
    obtain ⟨inner, inside, same⟩ := Fault.bind_eq_ok.mp done
    cases same
    exact .loop (emitsBody_of_bodyOfAll inside)
  | branch cond thn els =>
    obtain ⟨first, positive, rest⟩ := Fault.bind_eq_ok.mp done
    obtain ⟨second, negative, same⟩ := Fault.bind_eq_ok.mp rest
    cases same
    exact .branch (emitsBody_of_bodyOfAll positive) (emitsBody_of_bodyOfAll negative)
  | block body => exact .block (emitsBody_of_bodyOfAll done)
  | statement name text =>
    cases done
    exact .statement
  | copy copy =>
    obtain ⟨stmt, copied, same⟩ := Fault.bind_eq_ok.mp done
    cases same
    obtain ⟨array, known, rfl⟩ := Kernel.copyElement_eq_ok copied
    exact .copy known
  | sync =>
    cases done
    exact .sync
  | launch inner body => cases done

theorem emitsBody_of_bodyOfAll {job : Job} {kernel : Kernel} {nodes : List Node}
    {stmts : List Stmt} (done : kernel.bodyOfAll job nodes = .ok stmts) :
    EmitsBody job kernel nodes stmts := by
  cases nodes with
  | nil =>
    cases done
    exact .nil
  | cons node rest =>
    obtain ⟨first, head, more⟩ := Fault.bind_eq_ok.mp done
    obtain ⟨others, tail, same⟩ := Fault.bind_eq_ok.mp more
    cases same
    exact .cons (emitsBody_of_bodyOf head) (emitsBody_of_bodyOfAll tail)

end

end Offload
