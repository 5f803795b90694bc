import Offload.Proofs.Generation

/-! Which models generation accepts, and which fault it reports for the others. The
faults of a tree are listed in the order in which its parts are visited, and a run
stops at the first of them. -/

namespace Offload

mutual

/-- The leaves of a tree, from left to right. The body of a launched kernel is a tree
of its own. -/
def Node.leaves : Node → List Node
  | .loop _ _ _ _ body | .block body => Node.leavesOf body
  | .branch _ thn els => Node.leavesOf thn ++ Node.leavesOf els
  | .statement name text => [.statement name text]
  | .copy c => [.copy c]
  | .sync => [.sync]
  | .launch kernel body => [.launch kernel body]

def Node.leavesOf : List Node → List Node
  | [] => []
  | node :: rest => node.leaves ++ Node.leavesOf rest

end

/-- The copy names a staging variable and an array, and has one index for each of
their dimensions. -/
def Copy.Fits (program : Program) (kernel : Kernel) (copy : Copy) : Prop :=
  ∃ var array, kernel.var? copy.var = some var ∧ program.array? copy.array = some array ∧
    copy.localIndex.length = var.size.length ∧ copy.globalIndex.length = array.extents.length

/-- What a kernel refers to is there. -/
structure Kernel.Consistent (program : Program) (kernel : Kernel) (body : Node) : Prop where
  footprint : ∀ region ∈ kernel.footprint.regions,
    ∃ array ∈ program.arrays, array.space.compatible region.space = true
  backing : ∀ var ∈ kernel.vars, ∃ array ∈ program.arrays, array.name = var.array
  extents : ∀ var ∈ kernel.vars, ∀ size ∈ var.size, size.constant?.isSome
  copies : ∀ copy, .copy copy ∈ body.leaves → copy.Fits program kernel
  launches : ∀ inner innerBody, .launch inner innerBody ∉ body.leaves

/-- Copies and barriers stand in kernels only, and the kernels are consistent. -/
structure Node.Consistent (program : Program) (tree : Node) : Prop where
  copies : ∀ copy, .copy copy ∉ tree.leaves
  barriers : .sync ∉ tree.leaves
  kernels : ∀ kernel body, .launch kernel body ∈ tree.leaves → kernel.Consistent program body

section Faults

/-- The fault, unless the check passes. -/
def Fault.unless (passes : Bool) (fault : Fault) : List Fault := if passes then [] else [fault]

/-- The faults of a copy: in its variable, its array, its local and its global indices. -/
def Copy.faults (program : Program) (kernel : Kernel) (copy : Copy) : List Fault :=
  Fault.unless (kernel.var? copy.var).isSome (.undeclaredVar kernel.id copy.var) ++
  Fault.unless (program.array? copy.array).isSome (.unknownArray kernel.id copy.array) ++
  ((kernel.var? copy.var).toList.flatMap fun var =>
    Fault.unless (copy.localIndex.length == var.size.length)
      (.localRank kernel.id copy.var copy.localIndex.length var.size.length)) ++
  ((program.array? copy.array).toList.flatMap fun array =>
    Fault.unless (copy.globalIndex.length == array.rank)
      (.globalRank copy.array copy.globalIndex.length array.rank))

/-- The faults of a staging variable: in its array, then in its extents. -/
def StagingVar.faults (program : Program) (kernel : Kernel) (var : StagingVar) : List Fault :=
  Fault.unless (program.array? var.array).isSome
    (.unknownBackingArray kernel.id var.name var.array) ++
  var.size.flatMap fun size =>
    Fault.unless size.constant?.isSome (.openExtent kernel.id var.name size)

/-- The faults of a leaf in the body of a kernel. -/
def Kernel.leafFaults (program : Program) (kernel : Kernel) : Node → List Fault
  | .copy copy => copy.faults program kernel
  | .launch inner _ => [.nestedLaunch kernel.id inner.id]
  | _ => []

/-- The faults of a kernel: in its footprint, in its staging variables, in its body. -/
def Kernel.faults (program : Program) (kernel : Kernel) (body : Node) : List Fault :=
  (kernel.footprint.regions.flatMap fun region =>
    Fault.unless (program.arrayIn? region.space).isSome (.unknownSpace kernel.id region.space)) ++
  kernel.vars.flatMap (·.faults program kernel) ++
  body.leaves.flatMap (kernel.leafFaults program)

/-- The faults of a leaf of the host program. -/
def Node.leafFaults (program : Program) : Node → List Fault
  | .copy c => [.copyOutsideKernel c.var]
  | .sync => [.barrierOutsideKernel]
  | .launch kernel body => kernel.faults program body
  | _ => []

/-- All faults of a tree, in the order of a visit. -/
def Node.faults (program : Program) (tree : Node) : List Fault :=
  tree.leaves.flatMap (Node.leafFaults program)

end Faults

namespace Fault

variable {α β : Type}

theorem unless_eq_nil {passes : Bool} {fault : Fault} :
    Fault.unless passes fault = [] ↔ passes = true := by
  cases passes <;> simp [Fault.unless]

theorem mem_unless {passes : Bool} {fault other : Fault} :
    other ∈ Fault.unless passes fault ↔ passes = false ∧ other = fault := by
  cases passes <;> simp [Fault.unless]

/-- The fault of a failed computation. -/
def of? : Except Fault α → Option Fault
  | .ok _ => none
  | .error fault => some fault

@[simp] theorem of?_ok (a : α) : of? (.ok a) = none := rfl

@[simp] theorem of?_error (fault : Fault) : of? (.error fault : Except Fault α) = some fault := rfl

private theorem of?_eq_none {result : Except Fault α} :
    of? result = none ↔ ∃ a, result = .ok a := by
  cases result <;> simp

private theorem of?_eq_some {result : Except Fault α} {fault : Fault} :
    of? result = some fault ↔ result = .error fault := by
  cases result <;> simp

/-- A computation in two steps stops at the first fault of the first step, or else at
the first fault of the second. -/
theorem of?_bind {x : Except Fault α} {next : α → Except Fault β} {first second : List Fault}
    (head : of? x = first.head?) (tail : ∀ a, x = .ok a → of? (next a) = second.head?) :
    of? (x >>= next) = (first ++ second).head? := by
  rw [List.head?_append, ← head]
  cases x with
  | ok a => exact tail a rfl
  | error fault => rfl

/-- A computation with a second step that cannot fail stops where its first step does. -/
theorem of?_bind_safe {x : Except Fault α} {next : α → Except Fault β}
    (safe : ∀ a, of? (next a) = none) : of? (x >>= next) = of? x := by
  cases x with
  | ok a => exact safe a
  | error fault => rfl

private theorem of?_mapM {γ : Type} {visit : γ → Except Fault α} {faults : γ → List Fault}
    (each : ∀ x, of? (visit x) = (faults x).head?) (xs : List γ) :
    of? (xs.mapM visit) = (xs.flatMap faults).head? := by
  induction xs with
  | nil => rfl
  | cons x rest ih =>
    rw [List.mapM_cons, List.flatMap_cons]
    exact of?_bind (each x) fun _ _ => (of?_bind_safe fun _ => rfl).trans ih

end Fault

namespace Traced

variable {α β : Type}

theorem of?_bind {x : Traced α} {next : α → Traced β} {first second : List Fault}
    (head : Fault.of? x.result = first.head?)
    (tail : ∀ a, x.result = .ok a → Fault.of? (next a).result = second.head?) :
    Fault.of? (x >>= next).result = (first ++ second).head? := by
  rw [List.head?_append, ← head]
  cases found : x.result with
  | ok a => simpa [bind_of_ok found] using tail a found
  | error fault => simp [bind_of_error found]

theorem of?_bind_safe {x : Traced α} {next : α → Traced β}
    (safe : ∀ a, Fault.of? (next a).result = none) :
    Fault.of? (x >>= next).result = Fault.of? x.result := by
  cases found : x.result with
  | ok a => simp [bind_of_ok found, safe a]
  | error fault => simp [bind_of_error found]

private theorem of?_report_bind (event : Event) (next : Unit → Traced β) :
    Fault.of? (report event >>= next).result = Fault.of? (next ()).result := rfl

end Traced

section Stops

variable {program : Program} {job : Job} {kernel : Kernel}

private theorem Kernel.stagingDims_stops (var : StagingVar) (sizes : List Expr) :
    Fault.of? (kernel.stagingDims var sizes) = (sizes.flatMap fun size =>
      Fault.unless size.constant?.isSome (.openExtent kernel.id var.name size)).head? := by
  induction sizes with
  | nil => rfl
  | cons size rest ih =>
    simp only [stagingDims]
    cases folded : size.constant? with
    | none => simp [Fault.unless, folded]
    | some n =>
      simp only [List.flatMap_cons, folded, Fault.unless, Option.isSome_some, ↓reduceIte,
        List.nil_append]
      exact (Fault.of?_bind_safe fun _ => rfl).trans ih

private theorem Kernel.declareStaging_stops (var : StagingVar) :
    Fault.of? (kernel.declareStaging program var) = (var.faults program kernel).head? := by
  unfold declareStaging StagingVar.faults
  cases program.array? var.array with
  | none => rfl
  | some array => exact (Fault.of?_bind_safe fun _ => rfl).trans (stagingDims_stops var var.size)

private theorem Kernel.copyElement_stops (copy : Copy) :
    Fault.of? (kernel.copyElement program copy) = (copy.faults program kernel).head? := by
  unfold copyElement Copy.faults
  cases kernel.var? copy.var with
  | none => rfl
  | some var =>
    cases program.array? copy.array with
    | none => rfl
    | some array =>
      by_cases locally : copy.localIndex.length = var.size.length
      · by_cases globally : copy.globalIndex.length = array.rank
        · simp [locally, globally, Fault.unless]
          rfl
        · simp [locally, globally, Fault.unless]
          rfl
      · simp [locally, Fault.unless]
        rfl

mutual

private theorem Kernel.bodyOf_stops : (node : Node) →
    Fault.of? (kernel.bodyOf job node) =
      (node.leaves.flatMap (kernel.leafFaults job.program)).head?
  | .loop _ _ _ _ body => (Fault.of?_bind_safe fun _ => rfl).trans (bodyOfAll_stops body)
  | .branch _ thn els => by
    rw [Node.leaves, List.flatMap_append]
    exact Fault.of?_bind (bodyOfAll_stops thn) fun _ _ =>
      (Fault.of?_bind_safe fun _ => rfl).trans (bodyOfAll_stops els)
  | .block body => bodyOfAll_stops body
  | .statement .. => rfl
  | .copy copy => by
    rw [Node.leaves, List.flatMap_singleton]
    exact (Fault.of?_bind_safe fun _ => rfl).trans (copyElement_stops copy)
  | .sync => rfl
  | .launch .. => rfl

private theorem Kernel.bodyOfAll_stops : (nodes : List Node) →
    Fault.of? (kernel.bodyOfAll job nodes) =
      ((Node.leavesOf nodes).flatMap (kernel.leafFaults job.program)).head?
  | [] => rfl
  | node :: rest => by
    rw [Node.leavesOf, List.flatMap_append]
    exact Fault.of?_bind (bodyOf_stops node) fun _ _ =>
      (Fault.of?_bind_safe fun _ => rfl).trans (bodyOfAll_stops rest)

end

private theorem Kernel.arguments_stops :
    Fault.of? (kernel.arguments job) = (kernel.footprint.regions.flatMap fun region =>
      Fault.unless (job.program.arrayIn? region.space).isSome
        (.unknownSpace kernel.id region.space)).head? := by
  unfold arguments strayRegion?
  induction kernel.footprint.regions with
  | nil => rfl
  | cons region rest ih =>
    cases found : job.program.arrayIn? region.space with
    | none => simp [found, Fault.unless]
    | some array => simpa [found, Fault.unless] using ih

private theorem Kernel.define_stops (args : List Argument) (body : Node) :
    Fault.of? (kernel.define job args body) =
      (kernel.vars.flatMap (·.faults job.program kernel) ++
        body.leaves.flatMap (kernel.leafFaults job.program)).head? :=
  Fault.of?_bind (Fault.of?_mapM declareStaging_stops kernel.vars) fun _ _ =>
    (Fault.of?_bind_safe fun _ => rfl).trans (bodyOf_stops body)

private theorem HostCode.ofLaunch_stops (body : Node) :
    Fault.of? (ofLaunch job kernel body).result = (kernel.faults job.program body).head? := by
  rw [Kernel.faults, List.append_assoc]
  exact Traced.of?_bind Kernel.arguments_stops fun args _ =>
    (Traced.of?_report_bind ..).trans
      ((Traced.of?_bind_safe fun _ => rfl).trans (Kernel.define_stops args body))

mutual

private theorem HostCode.ofNode_stops : (node : Node) →
    Fault.of? (ofNode job node).result = (node.leaves.flatMap (Node.leafFaults job.program)).head?
  | .loop _ _ _ _ body => (Traced.of?_bind_safe fun _ => rfl).trans (ofNodes_stops body)
  | .branch _ thn els => by
    rw [Node.leaves, List.flatMap_append]
    exact Traced.of?_bind (ofNodes_stops thn) fun _ _ =>
      (Traced.of?_bind_safe fun _ => rfl).trans (ofNodes_stops els)
  | .block body => ofNodes_stops body
  | .statement .. => rfl
  | .copy _ => rfl
  | .sync => rfl
  | .launch kernel body => by
    rw [Node.leaves, List.flatMap_singleton]
    exact ofLaunch_stops body

private theorem HostCode.ofNodes_stops : (nodes : List Node) →
    Fault.of? (ofNodes job nodes).result =
      ((Node.leavesOf nodes).flatMap (Node.leafFaults job.program)).head?
  | [] => rfl
  | node :: rest => by
    rw [Node.leavesOf, List.flatMap_append]
    exact Traced.of?_bind (ofNode_stops node) fun _ _ =>
      (Traced.of?_bind_safe fun _ => rfl).trans (ofNodes_stops rest)

end

/-- A run stops at the first fault of the tree. -/
theorem Job.generate_stops (kernelPath headerName : String) (tree : Node) :
    Fault.of? (job.generate kernelPath headerName tree).result =
      (tree.faults job.program).head? := by
  rw [← List.append_nil (tree.faults job.program)]
  exact Traced.of?_bind (HostCode.ofNode_stops tree) fun _ _ =>
    (Traced.of?_bind_safe fun _ => rfl).trans (congrArg Fault.of? (Buffer.allocateAll_result job))

end Stops

section Accepted

variable {program : Program} {kernel : Kernel}

theorem Copy.faults_eq_nil_iff {copy : Copy} :
    copy.faults program kernel = [] ↔ copy.Fits program kernel := by
  simp only [faults, Fits, List.append_eq_nil_iff, Fault.unless_eq_nil,
    List.flatMap_eq_nil_iff, Option.mem_toList, beq_iff_eq]
  constructor
  · rintro ⟨⟨⟨declared, known⟩, locally⟩, globally⟩
    obtain ⟨var, foundVar⟩ := Option.isSome_iff_exists.mp declared
    obtain ⟨array, foundArray⟩ := Option.isSome_iff_exists.mp known
    exact ⟨var, array, foundVar, foundArray, locally var foundVar, globally array foundArray⟩
  · rintro ⟨var, array, foundVar, foundArray, locally, globally⟩
    simp [foundVar, foundArray, locally, globally, ArrayDecl.rank]

private theorem Program.isSome_array? {name : String} :
    (program.array? name).isSome ↔ ∃ array ∈ program.arrays, array.name = name := by
  simp [array?]

private theorem Program.isSome_arrayIn? {space : Space} :
    (program.arrayIn? space).isSome ↔
      ∃ array ∈ program.arrays, array.space.compatible space = true := by
  simp [arrayIn?]

theorem StagingVar.faults_eq_nil_iff {var : StagingVar} :
    var.faults program kernel = [] ↔ (∃ array ∈ program.arrays, array.name = var.array) ∧
      ∀ size ∈ var.size, size.constant?.isSome := by
  simp only [faults, List.append_eq_nil_iff, List.flatMap_eq_nil_iff, Fault.unless_eq_nil,
    Program.isSome_array?]

theorem Kernel.faults_eq_nil_iff {body : Node} :
    kernel.faults program body = [] ↔ kernel.Consistent program body := by
  simp only [faults, List.append_eq_nil_iff, List.flatMap_eq_nil_iff, Fault.unless_eq_nil,
    StagingVar.faults_eq_nil_iff, Program.isSome_arrayIn?]
  constructor
  · rintro ⟨⟨regions, vars⟩, leaves⟩
    exact {
      footprint := regions
      backing := fun var member => (vars var member).1
      extents := fun var member => (vars var member).2
      copies := fun copy member => Copy.faults_eq_nil_iff.mp (leaves _ member)
      launches := fun inner innerBody member => nomatch leaves _ member }
  · intro consistent
    refine ⟨⟨consistent.footprint, fun var member => ⟨consistent.backing var member,
      consistent.extents var member⟩⟩, ?_⟩
    intro leaf member
    cases leaf with
    | copy copy => exact Copy.faults_eq_nil_iff.mpr (consistent.copies copy member)
    | launch inner innerBody => exact absurd member (consistent.launches inner innerBody)
    | _ => rfl

/-- A tree without faults is a consistent one. -/
theorem Node.faults_eq_nil_iff {tree : Node} :
    tree.faults program = [] ↔ tree.Consistent program := by
  rw [faults, List.flatMap_eq_nil_iff]
  constructor
  · intro leaves
    exact {
      copies := fun copy member => nomatch leaves _ member
      barriers := fun member => nomatch leaves _ member
      kernels := fun kernel body member => Kernel.faults_eq_nil_iff.mp (leaves _ member) }
  · intro consistent leaf member
    cases leaf with
    | copy copy => exact absurd member (consistent.copies copy)
    | sync => exact absurd member consistent.barriers
    | launch kernel body =>
      exact Kernel.faults_eq_nil_iff.mpr (consistent.kernels kernel body member)
    | _ => rfl

theorem Copy.kind_of_mem_faults {copy : Copy} {fault : Fault}
    (member : fault ∈ copy.faults program kernel) : fault.kind = .model := by
  simp only [faults, List.mem_append, List.mem_flatMap, Fault.mem_unless] at member
  rcases member with ((⟨_, rfl⟩ | ⟨_, rfl⟩) | ⟨_, _, _, rfl⟩) | ⟨_, _, _, rfl⟩ <;> rfl

theorem Kernel.kind_of_mem_faults {body : Node} {fault : Fault}
    (member : fault ∈ kernel.faults program body) : fault.kind = .model := by
  simp only [faults, StagingVar.faults, List.mem_append, List.mem_flatMap,
    Fault.mem_unless] at member
  rcases member with (⟨_, _, _, rfl⟩ | ⟨_, _, ⟨_, rfl⟩ | ⟨_, _, _, rfl⟩⟩) | ⟨leaf, _, inside⟩
  · rfl
  · rfl
  · rfl
  · cases leaf with
    | copy copy => exact Copy.kind_of_mem_faults inside
    | launch inner innerBody =>
      rw [List.mem_singleton.mp inside]
      rfl
    | _ => cases inside

/-- Every fault of a tree is an inconsistency of the model. -/
theorem Node.kind_of_mem_faults {tree : Node} {fault : Fault}
    (member : fault ∈ tree.faults program) : fault.kind = .model := by
  obtain ⟨leaf, _, inside⟩ := List.mem_flatMap.mp member
  cases leaf with
  | copy copy =>
    rw [List.mem_singleton.mp inside]
    rfl
  | sync =>
    rw [List.mem_singleton.mp inside]
    rfl
  | launch kernel body => exact Kernel.kind_of_mem_faults inside
  | _ => cases inside

end Accepted

/-- Generation succeeds exactly on consistent models. On any other one it reports the
first fault of the tree, which is an inconsistency of the model. -/
theorem generates_iff_consistent (job : Job) (kernelPath headerName : String) (tree : Node) :
    ((∃ files, (job.generate kernelPath headerName tree).result = .ok files) ↔
      tree.Consistent job.program) ∧
    ∀ fault, (job.generate kernelPath headerName tree).result = .error fault ↔
      (tree.faults job.program).head? = some fault ∧ fault.kind = .model := by
  have stops := job.generate_stops kernelPath headerName tree
  constructor
  · rw [← Fault.of?_eq_none, stops, List.head?_eq_none_iff, Node.faults_eq_nil_iff]
  · intro fault
    rw [← Fault.of?_eq_some, stops]
    constructor
    · intro first
      exact ⟨first, Node.kind_of_mem_faults (List.mem_of_head? first)⟩
    · exact And.left

/-- A copy without indices, in a loop of a kernel under an `else`, comes before the
barrier that follows. -/
example :
    (Sample.job.generate "code.cl" "code.h" (.block [
      .branch (.var "N") [] [.launch Sample.scale
        (.loop "i" (.lit 0) (.lit 1) (.lit 1) [.copy ⟨"staged", "A", .read, [], []⟩])],
      .sync])).result = .error (.localRank 0 "staged" 0 1) := rfl

end Offload
