import Offload.Proofs.Code.Symbols
import Offload.Proofs.Kernel.Body
import Offload.Proofs.Launch.WorkItem
import Offload.Proofs.Marshaling

/-! Copies between staging variables and arrays. The body of a kernel names arrays, and the
kernel receives those that its footprint touches. Where the two agree, and no name is hidden
by one that the kernel declares itself, a copy reads and writes what the kernel receives, and
a store reaches a device buffer. -/

namespace Offload

open Code

namespace Code

/-- An assignment of a function, with the names that are declared around it. -/
structure Assignment where
  target : Term
  value : Term
  bound : List String

mutual

/-- The assignments of a statement at any depth, in the order of the text. -/
def Stmt.assignments (bound : List String) : Stmt → List Assignment
  | .assign target value => [⟨target, value, bound⟩]
  | .loop _ iter _ _ _ body => assignmentsOf (iter :: bound) body
  | .branch _ thn els => assignmentsOf bound thn ++ assignmentsOf bound els
  | .scope body => assignmentsOf bound body
  | _ => []

/-- What a statement declares is bound in the statements after it. -/
def assignmentsOf (bound : List String) : List Stmt → List Assignment
  | [] => []
  | stmt :: rest => stmt.assignments bound ++ assignmentsOf (stmt.declared ++ bound) rest

end

def Item.params : Item → List Param
  | .defineFn _ _ _ params _ => params
  | _ => []

/-- The names that are bound behind the statements. -/
def boundAfter (bound : List String) (stmts : List Stmt) : List String :=
  stmts.foldl (fun names stmt => stmt.declared ++ names) bound

theorem assignmentsOf_append (bound : List String) (first second : List Stmt) :
    assignmentsOf bound (first ++ second) =
      assignmentsOf bound first ++ assignmentsOf (boundAfter bound first) second := by
  induction first generalizing bound with
  | nil => rfl
  | cons stmt rest ih =>
    rw [List.cons_append, assignmentsOf, assignmentsOf, ih, List.append_assoc]
    rfl

theorem mem_boundAfter {bound : List String} {stmts : List Stmt} {name : String} :
    name ∈ boundAfter bound stmts ↔ name ∈ stmts.flatMap Stmt.declared ∨ name ∈ bound := by
  induction stmts generalizing bound with
  | nil => simp [boundAfter]
  | cons stmt rest ih =>
    rw [boundAfter, List.foldl_cons, ← boundAfter, ih, List.flatMap_cons, List.mem_append,
      List.mem_append, or_left_comm, or_assoc]

end Code

/-- A copy of a kernel body, with the iterators of the loops around it. -/
structure CopySite where
  copy : Copy
  iterators : List String

mutual

/-- The copies of a kernel body at any depth, from left to right. -/
def Node.copySites (iterators : List String) : Node → List CopySite
  | .copy c => [⟨c, iterators⟩]
  | .loop iter _ _ _ body => Node.copySitesOf (iter :: iterators) body
  | .branch _ thn els => Node.copySitesOf iterators thn ++ Node.copySitesOf iterators els
  | .block body => Node.copySitesOf iterators body
  | .statement .. | .sync | .launch .. => []

def Node.copySitesOf (iterators : List String) : List Node → List CopySite
  | [] => []
  | node :: rest => node.copySites iterators ++ Node.copySitesOf iterators rest

end

/-- The names that a kernel declares for its indices and its staging variables. -/
def Kernel.locals (kernel : Kernel) : List String :=
  kernel.indexNames ++ kernel.vars.map StagingVar.name

/-- The assignment is that of the copy, between the two ends of it. It stands under the
declarations of the kernel and the loops around the copy. -/
structure CopySite.Becomes (program : Program) (kernel : Kernel) (site : CopySite)
    (assignment : Assignment) : Prop where
  ends : ∃ array, program.array? site.copy.array = some array ∧
    (assignment.target, assignment.value) = site.copy.ends array
  bound : ∀ name, name ∈ assignment.bound ↔ name ∈ kernel.locals ∨ name ∈ site.iterators

/-- The side of the array in the assignment of a copy. -/
def Copy.globalSide (copy : Copy) (assignment : Assignment) : Term :=
  match copy.direction with
  | .read => assignment.value
  | .write => assignment.target

/-- The side of the array refers to a parameter, whose name is not declared again around the
assignment. A store goes to an element of a pointer to global memory. -/
def Copy.Received (params : List Param) (copy : Copy) (assignment : Assignment) : Prop :=
  ∃ param ∈ params, (copy.globalSide assignment).root? = some param.name ∧
    param.name ∉ assignment.bound ∧
    (copy.direction = .write → (∃ type, param.type = .pointer type .global) ∧
      ∃ index, assignment.target = .access param.name [index])

/-- The algebra finds a part of the footprint inside the array of the copy, and the array
is not written if it is a read-only scalar. No index, no staging variable and no iterator
around the copy has the name of the array. -/
structure CopySite.Served (job : Job) (kernel : Kernel) (site : CopySite) : Prop where
  touched : ∃ array, job.program.array? site.copy.array = some array ∧
    job.touches kernel.footprint array = true ∧
    (site.copy.direction = .write → array.readOnlyScalar = false)
  visible : site.copy.array ∉ kernel.locals ∧ site.copy.array ∉ site.iterators

/-- The names tell the arrays apart, also from the other arguments of the kernel. -/
structure Copy.Named (program : Program) (kernel : Kernel) (copy : Copy) : Prop where
  arrays : (program.arrays.map ArrayDecl.name).Nodup
  parameter : copy.array ∉ kernel.footprint.params
  iterator : copy.array ∉ kernel.space.dims

section Assignments

variable {job : Job} {kernel : Kernel}

/-- The statements of a kernel body declare nothing, apart from the iterators of loops. -/
theorem EmitsBody.declared_eq_nil {nodes : List Node} {stmts : List Stmt}
    (emits : EmitsBody job kernel nodes stmts) : stmts.flatMap Stmt.declared = [] := by
  induction emits with
  | cons _ _ ihHead ihTail => rw [List.flatMap_append, ihHead, ihTail, List.append_nil]
  | block _ ih => exact ih
  | nil | loop | branch | statement | copy | sync => rfl

/-- The assignments of a kernel body are those of its copies, one for each and in order. -/
theorem EmitsBody.assignments {nodes : List Node} {stmts : List Stmt}
    (emits : EmitsBody job kernel nodes stmts) {bound iterators : List String}
    (known : ∀ name, name ∈ bound ↔ name ∈ kernel.locals ∨ name ∈ iterators) :
    List.Forall₂ (CopySite.Becomes job.program kernel) (Node.copySitesOf iterators nodes)
      (assignmentsOf bound stmts) := by
  induction emits generalizing bound iterators with
  | nil | statement | sync => exact .nil
  | cons head _ ihHead ihTail =>
    rw [Node.copySitesOf, assignmentsOf_append]
    refine List.rel_append (by simpa [Node.copySitesOf] using ihHead known) (ihTail fun name => ?_)
    rw [mem_boundAfter, head.declared_eq_nil, ← known]
    simp
  | @loop iter _ _ _ _ _ _ ih =>
    have inside := @ih (iter :: bound) (iter :: iterators) fun name => by
      rw [List.mem_cons, List.mem_cons, known, or_left_comm]
    simpa [Node.copySitesOf, Node.copySites, assignmentsOf, Stmt.assignments] using inside
  | branch _ _ ihPositive ihNegative =>
    simpa [Node.copySitesOf, Node.copySites, assignmentsOf, Stmt.assignments] using
      List.rel_append (ihPositive known) (ihNegative known)
  | block _ ih => simpa [Node.copySitesOf, Node.copySites] using ih known
  | copy found => exact .cons ⟨⟨_, found, rfl⟩, known⟩ .nil

private theorem Kernel.prologue_cases {stmt : Stmt} (member : stmt ∈ kernel.prologue job) :
    ∃ type defs, stmt = .define type defs := by
  have indices {letter fn : String} {count : Nat}
      (inside : stmt ∈ if count = 0 then []
        else [Stmt.define job.iteratorType (indexDefs letter fn count)]) :
      ∃ type defs, stmt = .define type defs := by
    split at inside
    · cases inside
    · exact ⟨_, _, List.mem_singleton.mp inside⟩
  exact (List.mem_append.mp member).elim indices indices

private theorem Kernel.declared_prologue :
    (kernel.prologue job).flatMap Stmt.declared = kernel.indexNames := by
  have indices (letter fn : String) (count : Nat) :
      (if count = 0 then [] else [Stmt.define job.iteratorType (indexDefs letter fn count)]).flatMap
        Stmt.declared = (List.range count).map (letter ++ toString ·) := by
    split
    · rename_i none
      rw [none]
      rfl
    · simp [Stmt.declared, indexDefs]
  rw [prologue, List.flatMap_append, indices, indices, indexNames]

private theorem Kernel.declared_staging {vars : List StagingVar} {staging : List Stmt}
    (declared : vars.mapM (kernel.declareStaging job.program) = .ok staging) :
    staging.flatMap Stmt.declared = vars.map StagingVar.name := by
  have declares := forall₂_staging declared
  clear declared
  induction declares with
  | nil => rfl
  | cons here _ ih =>
    obtain ⟨_, _, _, rfl⟩ := here
    rw [List.flatMap_cons, ih]
    rfl

private theorem assignmentsOf_eq_nil {stmts : List Stmt} {bound : List String}
    (quiet : ∀ stmt ∈ stmts, ∀ names, stmt.assignments names = []) :
    assignmentsOf bound stmts = [] := by
  induction stmts generalizing bound with
  | nil => rfl
  | cons stmt rest ih =>
    obtain ⟨here, later⟩ := List.forall_mem_cons.mp quiet
    rw [assignmentsOf, here, ih later, List.nil_append]

/-- The definition of a kernel assigns nothing but its copies. -/
theorem Kernel.assignments_of_define {args : List Argument} {body : Node} {definition : KernelDef}
    (defines : kernel.define job args body = .ok definition) :
    List.Forall₂ (CopySite.Becomes job.program kernel) (body.copySites [])
      (assignmentsOf [] definition.body) := by
  obtain ⟨staging, stmts, declared, done, rfl⟩ := Kernel.define_eq_ok defines
  have first : assignmentsOf [] (kernel.prologue job ++ staging) = [] := by
    apply assignmentsOf_eq_nil
    intro stmt member names
    rcases List.mem_append.mp member with index | staged
    · obtain ⟨_, _, rfl⟩ := prologue_cases index
      rfl
    · obtain ⟨_, _, _, _, rfl⟩ := staging_cases declared staged
      rfl
  rw [assignmentsOf_append, first, List.nil_append]
  have known (name : String) : name ∈ boundAfter [] (kernel.prologue job ++ staging) ↔
      name ∈ kernel.locals ∨ name ∈ [] := by
    rw [mem_boundAfter, List.flatMap_append, declared_prologue, declared_staging declared]
    rfl
  simpa [Node.copySitesOf, assignmentsOf, Stmt.assignments, Stmt.declared] using
    (emitsBody_of_bodyOf done).assignments known

end Assignments

section Received

variable {job : Job} {kernel : Kernel} {args : List Argument} {site : CopySite}
  {assignment : Assignment}

private theorem ArrayDecl.root?_element (array : ArrayDecl) (indices : List Expr) :
    (array.element indices).root? = some array.name := by
  unfold element
  split <;> rfl

theorem Argument.name_param (arg : Argument) : arg.param.name = arg.name := by
  unfold param
  split <;> rfl

/-- The side of the array is an element of the array. -/
theorem CopySite.Becomes.globalSide (becomes : site.Becomes job.program kernel assignment)
    {array : ArrayDecl} (known : job.program.array? site.copy.array = some array) :
    site.copy.globalSide assignment = array.element site.copy.globalIndex := by
  obtain ⟨other, found, ends⟩ := becomes.ends
  obtain rfl : array = other := Option.some.inj (known.symm.trans found)
  cases direction : site.copy.direction <;>
    simp_all [Copy.globalSide, Copy.ends]

theorem CopySite.Becomes.root (becomes : site.Becomes job.program kernel assignment) :
    (site.copy.globalSide assignment).root? = some site.copy.array := by
  obtain ⟨array, known, _⟩ := becomes.ends
  rw [becomes.globalSide known, ArrayDecl.root?_element]
  simpa using List.find?_some known

/-- What the footprint touches is a parameter, of the form that the copy needs. -/
theorem CopySite.Becomes.received_of_served (becomes : site.Becomes job.program kernel assignment)
    (receives : kernel.arguments job = .ok args) (served : site.Served job kernel) :
    site.copy.Received (args.map Argument.param) assignment := by
  obtain ⟨array, known, touched, writable⟩ := served.touched
  have listed : Argument.ofArray array ∈ args := by
    rw [Kernel.arguments_eq_ok receives]
    have member : array ∈ job.program.arrays.filter (job.touches kernel.footprint) :=
      List.mem_filter.mpr ⟨List.mem_of_find?_eq_some known, touched⟩
    exact List.mem_append_left _ (List.mem_append_left _ (List.mem_map_of_mem member))
  have owner : array.name = site.copy.array := by simpa using List.find?_some known
  have name : (Argument.ofArray array).param.name = site.copy.array :=
    (Argument.name_param _).trans owner
  refine ⟨(Argument.ofArray array).param, List.mem_map_of_mem listed, ?_, ?_, ?_⟩
  · rw [name, becomes.root]
  · rw [name, becomes.bound]
    exact not_or.mpr served.visible
  · intro write
    have buffer := writable write
    constructor
    · exact ⟨.elem array.elem, by simp [Argument.param, Argument.ofArray, buffer]⟩
    · have side := becomes.globalSide known
      rw [Copy.globalSide, write, ArrayDecl.element, buffer, owner] at side
      exact ⟨_, name ▸ side⟩

/-- With names that tell the arrays apart, an argument of the name of the copied array
stands for this array. -/
theorem Copy.touched_of_argument {copy : Copy} (named : copy.Named job.program kernel)
    (receives : kernel.arguments job = .ok args) {array : ArrayDecl}
    (known : job.program.array? copy.array = some array) {arg : Argument} (member : arg ∈ args)
    (same : arg.name = copy.array) : job.touches kernel.footprint array = true := by
  rw [Kernel.arguments_eq_ok receives] at member
  simp only [List.mem_append, List.mem_map, List.mem_filter] at member
  rcases member with (⟨other, ⟨listed, touched⟩, rfl⟩ | ⟨name, listed, rfl⟩) | ⟨name, listed, rfl⟩
  · have name : array.name = copy.array := by simpa using List.find?_some known
    have found : other ∈ job.program.arrays.filter (·.name == array.name) :=
      List.mem_filter.mpr ⟨listed, beq_iff_eq.mpr (same.trans name.symm)⟩
    rw [filter_key named.arrays (List.mem_of_find?_eq_some known)] at found
    rwa [← List.mem_singleton.mp found]
  · exact absurd (same ▸ listed) named.parameter
  · exact absurd (same ▸ listed) named.iterator

private theorem CopySite.Becomes.served_of_received
    (becomes : site.Becomes job.program kernel assignment)
    (named : site.copy.Named job.program kernel) (receives : kernel.arguments job = .ok args)
    (received : site.copy.Received (args.map Argument.param) assignment) :
    site.Served job kernel := by
  obtain ⟨param, listed, refers, visible, stored⟩ := received
  obtain ⟨arg, member, rfl⟩ := List.mem_map.mp listed
  obtain ⟨array, known, _⟩ := becomes.ends
  rw [becomes.root, Option.some.injEq] at refers
  rw [← refers, becomes.bound] at visible
  have touched := Copy.touched_of_argument named receives known member
    ((Argument.name_param arg).symm.trans refers.symm)
  refine ⟨⟨array, known, touched, ?_⟩, not_or.mp visible⟩
  intro write
  obtain ⟨_, index, element⟩ := stored write
  have side := becomes.globalSide known
  rw [Copy.globalSide, write, element] at side
  by_cases scalar : array.readOnlyScalar
  · simp [ArrayDecl.element, scalar] at side
  · exact Bool.eq_false_iff.mpr scalar

end Received

/-- The assignments of a function are those of the copies in the launched kernel, one for
each and in order. An assignment refers to a parameter if its copy is served, and where the
names tell the arguments apart, only then. -/
structure CopiesReceived (job : Job) (launch : Kernel × Node) (item : Item) : Prop where
  named : item.defines launch.1.name = true
  copies : List.Forall₂ (fun site assignment =>
      site.Becomes job.program launch.1 assignment ∧
      (site.Served job launch.1 → site.copy.Received item.params assignment) ∧
      (site.copy.Named job.program launch.1 → site.copy.Received item.params assignment →
        site.Served job launch.1))
    (launch.2.copySites []) (assignmentsOf [] item.body)

private theorem copiesReceived_of_define {job : Job} {kernel : Kernel} {body : Node}
    {args : List Argument} {definition : KernelDef} (receives : kernel.arguments job = .ok args)
    (defines : kernel.define job args body = .ok definition) :
    CopiesReceived job (kernel, body) definition.item := by
  obtain ⟨_, _, _, _, same⟩ := Kernel.define_eq_ok defines
  have name : definition.name = kernel.name := by rw [same]
  have params : definition.item.params = args.map Argument.param := by rw [same]; rfl
  refine ⟨beq_iff_eq.mpr name, ?_⟩
  refine (Kernel.assignments_of_define defines).imp fun site assignment becomes => ?_
  rw [params]
  exact ⟨becomes, becomes.received_of_served receives, fun named =>
    becomes.served_of_received named receives⟩

/-- The functions of the kernel module belong to the launches one by one, and their
assignments to the copies of the launched kernels. If the footprint touches the array of a
copy, which is not a read-only scalar if the copy writes it and whose name the kernel declares
for nothing else around the copy, then the assignment refers to a parameter, and a store goes
to an element of a pointer to global memory. Where names tell the arguments apart, this is the
only way to do so. -/
theorem served_copies_received {job : Job} {kernelPath headerName : String} {tree : Node}
    {files : Files} (generated : (job.generate kernelPath headerName tree).result = .ok files) :
    List.Forall₂ (CopiesReceived job) tree.launches (files.kernel.filter Item.isFunction) := by
  obtain ⟨code, emits, rfl⟩ := Job.generate_eq_ok generated
  obtain ⟨sites, sited⟩ := exists_sited emits
  have launches : tree.launches = sites.map fun site => (site.kernel, site.body) := by
    simpa [Node.launchesOf] using sited.launches.symm
  rw [functions_file, ← sited.definitions, launches, List.map_map, List.forall₂_map_left_iff,
    List.forall₂_map_right_iff, List.forall₂_same]
  intro site member
  obtain ⟨args, receives, defines⟩ := (sited.agree site member).defined
  exact copiesReceived_of_define receives defines

namespace Sample

/-- A kernel that reads the scalar and writes the array. -/
def fill : Kernel where
  id := 0
  footprint := {
    params := ["N"]
    regions := [.full (.named "A" ["N"] ["i0"]), .full (.named "alpha" ["N"] [])] }
  space := .named "fill" ["N"] []
  gridSize := [.var "N"]
  blockSize := []
  vars := [⟨"staged", "A", .item, [.lit 1]⟩]

/-- The array is written in a loop. -/
def fillBody : Node :=
  .block [.copy ⟨"staged", "alpha", .read, [.lit 0], []⟩,
    .loop "i" (.lit 0) (.bin .lt (.var "i") (.lit 4)) (.lit 1) [
      .copy ⟨"staged", "A", .write, [.lit 0], [.var "i"]⟩]]

private theorem served_fillBody : ∀ site ∈ fillBody.copySites [], site.Served job fill := by
  intro site member
  rcases List.mem_cons.mp member with rfl | other
  · exact ⟨⟨_, rfl, rfl, nofun⟩, by decide⟩
  · rw [List.mem_singleton.mp other]
    exact ⟨⟨_, rfl, rfl, fun _ => rfl⟩, by decide⟩

end Sample

theorem copies_received_in_sample :
    ∃ files item,
      (Sample.job.generate "code.cl" "code.h" (.launch Sample.fill Sample.fillBody)).result =
        .ok files ∧
      files.kernel.filter Item.isFunction = [item] ∧ item.defines "kernel0" = true ∧
      List.Forall₂ (fun site assignment => site.copy.Received item.params assignment)
        (Sample.fillBody.copySites []) (assignmentsOf [] item.body) := by
  obtain ⟨files, generated⟩ : ∃ files, (Sample.job.generate "code.cl" "code.h"
      (.launch Sample.fill Sample.fillBody)).result = .ok files := ⟨_, rfl⟩
  obtain ⟨item, _, received, none, only⟩ :=
    List.forall₂_cons_left_iff.mp (served_copies_received generated)
  cases none
  refine ⟨files, item, generated, only, received.named, ?_⟩
  apply ((List.forall₂_and_left _ _).mpr ⟨Sample.served_fillBody, received.copies⟩).imp
  intro site assignment served
  exact served.2.2.1 served.1

namespace Sample

/-- A kernel that reads an array outside of its footprint. -/
def unlistedRead : Node :=
  .launch { fill with footprint := {} } (.copy ⟨"staged", "A", .read, [.lit 0], [.lit 0]⟩)

/-- A kernel that writes a scalar which is marked as only read. -/
def readOnlyWrite : Node :=
  .launch fill (.copy ⟨"staged", "alpha", .write, [.lit 0], []⟩)

/-- A kernel that reads a scalar under a loop with an iterator of the same name. -/
def hiddenRead : Node :=
  .launch fill (.loop "alpha" (.lit 0) (.bin .lt (.var "alpha") (.lit 4)) (.lit 1) [
    .copy ⟨"staged", "alpha", .read, [.lit 0], []⟩])

/-- The only copy of the tree becomes an assignment that does not refer to a parameter as it
should. -/
def Unreceived (tree : Node) : Prop :=
  ∃ files launch item site assignment,
    (job.generate "code.cl" "code.h" tree).result = .ok files ∧
    tree.launches = [launch] ∧ files.kernel.filter Item.isFunction = [item] ∧
    launch.2.copySites [] = [site] ∧ assignmentsOf [] item.body = [assignment] ∧
    ¬ site.copy.Received item.params assignment

end Sample

/-- A copy outside of the footprint refers to no parameter, a store to a read-only scalar goes
to a parameter that is passed by value, and an iterator takes the place of the parameter of its
name. -/
theorem copies_not_received :
    Sample.Unreceived Sample.unlistedRead ∧ Sample.Unreceived Sample.readOnlyWrite ∧
      Sample.Unreceived Sample.hiddenRead := by
  refine ⟨⟨_, _, _, _, _, rfl, rfl, rfl, rfl, rfl, ?_⟩,
    ⟨_, _, _, _, _, rfl, rfl, rfl, rfl, rfl, ?_⟩,
    ⟨_, _, _, _, _, rfl, rfl, rfl, rfl, rfl, ?_⟩⟩
  · intro ⟨param, listed, _⟩
    cases listed
  · intro ⟨param, _, _, _, stored⟩
    obtain ⟨_, index, element⟩ := stored rfl
    cases element
  · intro ⟨param, _, refers, visible, _⟩
    exact visible (Option.some.inj refers ▸ List.mem_cons_self)

end Offload
