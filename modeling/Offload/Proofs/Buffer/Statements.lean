import Offload.Proofs.Host.Checking

/-! The statements of the host program, by what they do to buffers and to the device. The
functions for it are called in no other form of statement. -/

namespace Offload.Buffer

open Code

/-- What a statement does to a buffer. -/
inductive Operation where
  | declare | create | bind | read | release
  deriving DecidableEq

/-- The operation of a statement, with the handle of the buffer. Verbatim text is
taken to do nothing to buffers. -/
def operation? : Stmt → Option (Operation × String)
  | .declare .clMem handle => some (.declare, handle)
  | .assign (.var handle) (.call "clCreateBuffer" _) => some (.create, handle)
  | .check (.call "clSetKernelArg" [_, _, _, .voidPointer (.addressOf (.var handle))]) =>
    some (.bind, handle)
  | .check (.call "clEnqueueReadBuffer" (_ :: .var handle :: _)) => some (.read, handle)
  | .check (.call "clReleaseMemObject" [.var handle]) => some (.release, handle)
  | _ => none

/-- The calls that give back the device. -/
def deviceReleases : List String :=
  ["clReleaseCommandQueue", "clReleaseProgram", "clReleaseContext"]

/-- The object of the device that a statement gives back, with the call that does. -/
def givenBack? : Stmt → Option (String × String)
  | .check (.call fn [.var object]) => if fn ∈ deviceReleases then some (fn, object) else none
  | _ => none

def does (kind : Operation) (stmt : Stmt) : Bool := (operation? stmt).any (·.1 == kind)

def returns (fn : String) (stmt : Stmt) : Bool := (givenBack? stmt).any (·.1 == fn)

/-- Whether the statement binds an argument that is no buffer. -/
def bindsValue : Stmt → Bool
  | .check (.call "clSetKernelArg" [_, _, .sizeOf type, .addressOf (.var _)]) => type != .clMem
  | _ => false

/-- What the statement does to buffers and to the device shows in its form. Each function
for it is called once where the statement has the form, and otherwise not at all. Handles are
declared and assigned to in no other way, and verbatim text comes from the tree. -/
structure Recognised (tree : Node) (stmt : Stmt) : Prop where
  created : stmt.callCount "clCreateBuffer" = (does .create stmt).toNat
  read : stmt.callCount "clEnqueueReadBuffer" = (does .read stmt).toNat
  released : stmt.callCount "clReleaseMemObject" = (does .release stmt).toNat
  bound : stmt.callCount "clSetKernelArg" = (does .bind stmt || bindsValue stmt).toNat
  returned : ∀ fn ∈ deviceReleases, stmt.callCount fn = (returns fn stmt).toNat
  declared : ∀ name, "dev_" ++ name ∈ stmt.declared →
    operation? stmt = some (.declare, "dev_" ++ name)
  assigned : ∀ name, stmt.assigned? = some ("dev_" ++ name) →
    operation? stmt = some (.create, "dev_" ++ name)
  verbatim : ∀ text, stmt = .verbatim text → ∃ name, .statement name text ∈ tree.leaves

/-- Whether the name is one for the handle of a buffer. -/
def isHandle (name : String) : Bool := "dev_".toList.isPrefixOf name.toList

def isVerbatim : Stmt → Bool
  | .verbatim _ => true
  | _ => false

/-- The functions that stand behind the forms. -/
def functions : List String :=
  ["clCreateBuffer", "clEnqueueReadBuffer", "clReleaseMemObject", "clSetKernelArg"] ++
    deviceReleases

/-- The statement has nothing to do with buffers, and does not give back the device. -/
structure Unrelated (stmt : Stmt) : Prop where
  silent : (Term.calleesOf stmt.terms).filter functions.contains = []
  idle : operation? stmt = none
  declared : stmt.declared.filter isHandle = []
  assigned : stmt.assigned?.filter isHandle = none
  generated : isVerbatim stmt = false

/-- The statements of the host program around and in the code of the tree. -/
inductive Part (job : Job) (tree : Node) : Stmt → Prop where
  | declare {array : ArrayDecl} (listed : array ∈ arrays job) :
      Part job tree (.declare .clMem array.bufferName)
  | create {array : ArrayDecl} {flags : List String} {size host : Term}
      (listed : array ∈ arrays job) (plain : ∀ fn ∈ Term.calleesOf [size, host], fn = "max") :
      Part job tree (.assign (.var array.bufferName)
        (.call "clCreateBuffer" [.var "context", .flags flags, size, host, .errAddress]))
  | bind {object : String} {arg : Argument} {position : Nat} (valued : arg.type ≠ .clMem)
      (owned : arg.kind = .buffer → ∃ array ∈ arrays job, arg.name = array.name) :
      Part job tree (arg.bind object position)
  | read {array : ArrayDecl} (listed : array ∈ arrays job) : Part job tree (readBack job array)
  | release {array : ArrayDecl} (listed : array ∈ arrays job) :
      Part job tree (.checkCall "clReleaseMemObject" [.var array.bufferName])
  | giveBack {stmt : Stmt} (member : stmt ∈ HostProgram.release) : Part job tree stmt
  | verbatim {name text : String} (leaf : .statement name text ∈ tree.leaves) :
      Part job tree (.verbatim text)
  | other {stmt : Stmt} (unrelated : Unrelated stmt) : Part job tree stmt

section Body

variable {job : Job} {tree : Node} {code : HostCode} {stmt : Stmt}

/-- An argument that is a buffer belongs to an array that has one. -/
theorem exists_array_of_buffer {kernel : Kernel} {args : List Argument}
    (receives : kernel.arguments job = .ok args) {arg : Argument} (member : arg ∈ args)
    (buffer : arg.kind = .buffer) : ∃ array ∈ arrays job, arg.name = array.name := by
  rw [Kernel.arguments_eq_ok receives] at member
  simp only [List.mem_append, List.mem_map, List.mem_filter] at member
  rcases member with (⟨array, ⟨listed, _⟩, rfl⟩ | ⟨name, _, rfl⟩) | ⟨name, _, rfl⟩
  · cases scalar : array.readOnlyScalar with
    | true => simp [Argument.ofArray, scalar] at buffer
    | false => exact ⟨array, by simp [arrays, listed, ArrayDecl.hasBuffer, scalar], rfl⟩
  · cases buffer
  · cases buffer

private theorem type_ne_clMem {kernel : Kernel} {args : List Argument}
    (receives : kernel.arguments job = .ok args) {arg : Argument} (member : arg ∈ args) :
    arg.type ≠ .clMem := by
  rw [Kernel.arguments_eq_ok receives] at member
  simp only [List.mem_append, List.mem_map] at member
  rcases member with (⟨array, _, rfl⟩ | ⟨name, _, rfl⟩) | ⟨name, _, rfl⟩ <;> exact nofun

theorem isHandle_append (name : String) : isHandle ("dev_" ++ name) = true := by
  simp [isHandle, String.toList_append]

private theorem isHandle_name (kernel : Kernel) : isHandle kernel.name = false := by
  simp only [isHandle, Kernel.name, String.toList_append]
  rfl

theorem unrelated_checkErr : Unrelated .checkErr := ⟨rfl, rfl, rfl, rfl, rfl⟩

private theorem unrelated_setUp {options : Options} {kernelPath : String}
    (member : stmt ∈ HostProgram.setUp options kernelPath) : Unrelated stmt := by
  simp only [HostProgram.setUp, List.mem_cons, List.not_mem_nil, or_false] at member
  rcases member with rfl | rfl | rfl | rfl | rfl | rfl | rfl | rfl | rfl | rfl | rfl <;>
    exact ⟨rfl, rfl, rfl, rfl, rfl⟩

private theorem part_of_launch {kernel : Kernel} {args : List Argument}
    (receives : kernel.arguments job = .ok args)
    (member : stmt ∈ HostCode.launchBody kernel args (.ofSizes kernel.gridSize kernel.blockSize)) :
    Part job tree stmt := by
  rcases HostCode.launchBody_cases member with
    ⟨arg, listed, position, rfl⟩ | rfl | rfl | rfl | rfl | rfl | rfl | rfl
  · exact .bind (type_ne_clMem receives listed) (exists_array_of_buffer receives listed)
  · refine .other ⟨?_, rfl, rfl, rfl, rfl⟩
    rw [Stmt.terms, Geometry.calleesOf_global]
    rfl
  · refine .other ⟨?_, rfl, rfl, rfl, rfl⟩
    rw [Stmt.terms, Geometry.calleesOf_group]
    rfl
  · refine .other ⟨rfl, rfl, ?_, rfl, rfl⟩
    exact List.filter_eq_nil_iff.mpr (by simp [Stmt.declared, isHandle_name])
  · exact .other unrelated_checkErr
  all_goals exact .other ⟨rfl, rfl, rfl, rfl, rfl⟩

private theorem part_of_create {array : ArrayDecl} (listed : array ∈ arrays job)
    {initialCopy : Bool}
    (leaf : stmt ∈ (create job array initialCopy).leaves) : Part job tree stmt := by
  rcases List.mem_cons.mp leaf with rfl | later
  · refine .create listed fun fn called => ?_
    have size : fn ∈ (allocationSize job array).callees := by
      cases initialCopy <;>
        simpa [Term.calleesOf, Term.callees, HostProgram.callees_hostData] using called
    unfold allocationSize at size
    split at size
    · cases size
    · exact List.mem_singleton.mp size
  · rw [List.mem_singleton.mp later]
    exact .other unrelated_checkErr

/-- The only statements that read buffers back are the reads of arrays. -/
theorem leaf_of_copyBackAll (leaf : stmt ∈ leavesOf (copyBackAll job)) :
    ∃ array ∈ arrays job, stmt = readBack job array := by
  rw [copyBackAll, leavesOf_map, List.mem_flatMap] at leaf
  obtain ⟨array, listed, inside⟩ := leaf
  refine ⟨array, (List.mem_filter.mp listed).1, ?_⟩
  rcases copyBack_cases job array with same | ⟨cond, same⟩
  · rw [same] at inside
    exact List.mem_singleton.mp inside
  · rw [same] at inside
    exact List.mem_singleton.mp inside

/-- Every statement of the host program has one of the forms. -/
theorem part_of_body (emits : Emits job [tree] code) {kernelPath : String}
    (leaf : stmt ∈ leavesOf (HostProgram.body job kernelPath (createAll job) code.stmts)) :
    Part job tree stmt := by
  have blank (member : stmt ∈ leavesOf [.blank]) : Part job tree stmt := by
    rw [List.mem_singleton.mp member]
    exact .other ⟨rfl, rfl, rfl, rfl, rfl⟩
  simp only [HostProgram.body, leavesOf_append, List.mem_append] at leaf
  rcases leaf with (((((((((declared | prepared) | line) | created) | line) | launched) | line) |
    copied) | line) | released) | atEnd
  · rw [declareAll, leavesOf_map] at declared
    obtain ⟨array, listed, inside⟩ := List.mem_flatMap.mp declared
    rw [List.mem_singleton.mp inside]
    exact .declare listed
  · exact .other (unrelated_setUp prepared)
  · exact blank line
  · rw [createAll, leavesOf_map] at created
    obtain ⟨array, listed, inside⟩ := List.mem_flatMap.mp created
    exact part_of_create listed inside
  · exact blank line
  · rcases emits.leaf_cases launched with
      ⟨name, text, member, rfl⟩ | ⟨kernel, args, receives, inside⟩
    · exact .verbatim (by simpa [Node.leavesOf] using member)
    · exact part_of_launch receives inside
  · exact blank line
  · obtain ⟨array, listed, rfl⟩ := leaf_of_copyBackAll copied
    exact .read listed
  · exact blank line
  · rw [releaseAll, leavesOf_map] at released
    obtain ⟨array, listed, inside⟩ := List.mem_flatMap.mp released
    rw [List.mem_singleton.mp inside]
    exact .release listed
  · exact .giveBack atEnd

end Body

section Recognised

variable {job : Job} {tree : Node} {stmt : Stmt}

theorem Unrelated.callCount_eq_zero (unrelated : Unrelated stmt) {fn : String}
    (member : fn ∈ functions) : stmt.callCount fn = 0 := by
  apply List.count_eq_zero.mpr
  intro called
  exact List.filter_eq_nil_iff.mp unrelated.silent fn called (List.contains_iff_mem.mpr member)

theorem does_of_idle (idle : operation? stmt = none) (kind : Operation) :
    does kind stmt = false := by
  rw [does, idle]
  rfl

/-- What is given back is given back by a call. -/
theorem callee_of_givenBack? {fn object : String} (gives : givenBack? stmt = some (fn, object)) :
    fn ∈ deviceReleases ∧ fn ∈ Term.calleesOf stmt.terms := by
  unfold givenBack? at gives
  split at gives
  · split at gives
    · cases gives
      exact ⟨by assumption, List.mem_cons_self⟩
    · cases gives
  · cases gives

private theorem callee_of_bindsValue (binds : bindsValue stmt = true) :
    "clSetKernelArg" ∈ Term.calleesOf stmt.terms := by
  unfold bindsValue at binds
  split at binds
  · exact List.mem_cons_self
  · cases binds

theorem Unrelated.recognised (unrelated : Unrelated stmt) : Recognised tree stmt where
  created := by rw [unrelated.callCount_eq_zero (by decide), does_of_idle unrelated.idle]; rfl
  read := by rw [unrelated.callCount_eq_zero (by decide), does_of_idle unrelated.idle]; rfl
  released := by rw [unrelated.callCount_eq_zero (by decide), does_of_idle unrelated.idle]; rfl
  bound := by
    have none : stmt.callCount "clSetKernelArg" = 0 := unrelated.callCount_eq_zero (by decide)
    have value : bindsValue stmt = false := by
      apply Bool.eq_false_iff.mpr
      intro binds
      exact List.count_eq_zero.mp none (callee_of_bindsValue binds)
    rw [none, does_of_idle unrelated.idle, value]
    rfl
  returned fn member := by
    have none := unrelated.callCount_eq_zero (List.mem_append_right _ member)
    have kept : returns fn stmt = false := by
      apply Bool.eq_false_iff.mpr
      intro gives
      obtain ⟨⟨_, object⟩, found, same⟩ := (Option.any_eq_true _ _).mp gives
      cases beq_iff_eq.mp same
      exact List.count_eq_zero.mp none (callee_of_givenBack? found).2
    rw [none, kept]
    rfl
  declared name member :=
    absurd (isHandle_append name) (List.filter_eq_nil_iff.mp unrelated.declared _ member)
  assigned name found := by
    have kept := unrelated.assigned
    rw [found, Option.filter_some, if_pos (isHandle_append name)] at kept
    cases kept
  verbatim text same := by
    have generated := unrelated.generated
    rw [same] at generated
    cases generated

private theorem forall_deviceReleases {p : String → Prop} (queue : p "clReleaseCommandQueue")
    (program : p "clReleaseProgram") (context : p "clReleaseContext") :
    ∀ fn ∈ deviceReleases, p fn :=
  List.forall_mem_cons.mpr ⟨queue, List.forall_mem_cons.mpr
    ⟨program, List.forall_mem_singleton.mpr context⟩⟩

private theorem callCount_create {handle : String} {flags : List String} {size host : Term}
    (plain : ∀ fn ∈ Term.calleesOf [size, host], fn = "max") {fn : String} (other : fn ≠ "max") :
    (Stmt.assign (.var handle) (.call "clCreateBuffer"
      [.var "context", .flags flags, size, host, .errAddress])).callCount fn =
        ["clCreateBuffer"].count fn := by
  have callees : Term.calleesOf (Stmt.assign (.var handle) (.call "clCreateBuffer"
      [.var "context", .flags flags, size, host, .errAddress])).terms =
        ["clCreateBuffer"] ++ Term.calleesOf [size, host] := by
    simp [Stmt.terms, Term.calleesOf, Term.callees, Term.errAddress]
  have none : (Term.calleesOf [size, host]).count fn = 0 :=
    List.count_eq_zero.mpr fun called => other (plain fn called)
  rw [Stmt.callCount, callees, List.count_append, none, Nat.add_zero]

/-- The host program does nothing to buffers that does not show in the form of a statement. -/
theorem Part.recognised (part : Part job tree stmt) : Recognised tree stmt := by
  cases part with
  | declare listed =>
    refine ⟨rfl, rfl, rfl, rfl, fun _ _ => rfl, ?_, nofun, nofun⟩
    intro name member
    rw [List.mem_singleton.mp member]
    rfl
  | create listed plain =>
    refine ⟨callCount_create plain (by decide), callCount_create plain (by decide),
      callCount_create plain (by decide), callCount_create plain (by decide),
      forall_deviceReleases (callCount_create plain (by decide))
        (callCount_create plain (by decide)) (callCount_create plain (by decide)), nofun, ?_, nofun⟩
    intro name found
    rw [← Option.some.inj found]
    rfl
  | @bind object arg position valued owned =>
    rcases arg with ⟨kind, name, type⟩
    cases kind with
    | buffer =>
      exact ⟨rfl, rfl, rfl, rfl, forall_deviceReleases rfl rfl rfl, nofun, nofun, nofun⟩
    | readOnlyScalar | parameter | iterator =>
      refine ⟨rfl, rfl, rfl, ?_, forall_deviceReleases rfl rfl rfl, nofun, nofun, nofun⟩
      exact (congrArg Bool.toNat (bne_iff_ne.mpr valued)).symm
  | @read array listed =>
    have counted (fn : String) :
        (readBack job array).callCount fn = ["clEnqueueReadBuffer"].count fn := by
      rw [Stmt.callCount, HostProgram.callees_readBack]
    exact ⟨counted _, counted _, counted _, counted _,
      forall_deviceReleases (counted _) (counted _) (counted _), nofun, nofun, nofun⟩
  | release listed =>
    exact ⟨rfl, rfl, rfl, rfl, forall_deviceReleases rfl rfl rfl, nofun, nofun, nofun⟩
  | giveBack member =>
    simp only [HostProgram.release, List.mem_cons, List.not_mem_nil, or_false] at member
    rcases member with rfl | rfl | rfl <;>
      exact ⟨rfl, rfl, rfl, rfl, forall_deviceReleases rfl rfl rfl, nofun, nofun, nofun⟩
  | verbatim leaf =>
    refine ⟨rfl, rfl, rfl, rfl, fun _ _ => rfl, nofun, nofun, ?_⟩
    intro text same
    cases same
    exact ⟨_, leaf⟩
  | other unrelated => exact unrelated.recognised

theorem operation?_bind (name : String) (arg : Argument) (position : Nat) :
    operation? (arg.bind name position) =
      if arg.kind = .buffer then some (.bind, "dev_" ++ arg.name) else none := by
  rcases arg with ⟨kind, _, _⟩
  cases kind <;> rfl

/-- What is done to a buffer is done to that of an array. Buffers are created in one form, and
read back in one form. -/
theorem Part.operation_cases {operation : Operation} {handle : String} (part : Part job tree stmt)
    (acts : operation? stmt = some (operation, handle)) :
    ∃ array ∈ arrays job, handle = array.bufferName ∧
      (operation = .create → ∃ flags size host, stmt = .assign (.var handle)
        (.call "clCreateBuffer" [.var "context", .flags flags, size, host, .errAddress])) ∧
      (operation = .read → stmt = readBack job array) := by
  cases part with
  | create listed _ =>
    cases acts
    exact ⟨_, listed, rfl, fun _ => ⟨_, _, _, rfl⟩, nofun⟩
  | read listed =>
    cases acts
    exact ⟨_, listed, rfl, nofun, fun _ => rfl⟩
  | declare listed | release listed =>
    cases acts
    exact ⟨_, listed, rfl, nofun, nofun⟩
  | bind _ owned =>
    rw [operation?_bind] at acts
    split at acts
    · rename_i buffer
      cases acts
      obtain ⟨array, listed, same⟩ := owned buffer
      exact ⟨array, listed, congrArg ("dev_" ++ ·) same, nofun, nofun⟩
    · cases acts
  | giveBack member =>
    simp only [HostProgram.release, List.mem_cons, List.not_mem_nil, or_false] at member
    rcases member with rfl | rfl | rfl <;> cases acts
  | verbatim => cases acts
  | other unrelated =>
    rw [unrelated.idle] at acts
    cases acts

theorem exists_of_does {kind : Operation} (acts : does kind stmt = true) :
    ∃ handle, operation? stmt = some (kind, handle) := by
  obtain ⟨⟨_, handle⟩, found, same⟩ := (Option.any_eq_true _ _).mp acts
  exact ⟨handle, beq_iff_eq.mp same ▸ found⟩

theorem Part.exists_of_creates (part : Part job tree stmt) (creates : does .create stmt = true) :
    ∃ handle flags size host, stmt = .assign (.var handle)
      (.call "clCreateBuffer" [.var "context", .flags flags, size, host, .errAddress]) := by
  obtain ⟨handle, acts⟩ := exists_of_does creates
  obtain ⟨_, _, _, form, _⟩ := part.operation_cases acts
  exact ⟨handle, form rfl⟩

theorem Part.exists_of_reads (part : Part job tree stmt) (reads : does .read stmt = true) :
    ∃ array, stmt = readBack job array := by
  obtain ⟨handle, acts⟩ := exists_of_does reads
  obtain ⟨array, _, _, _, form⟩ := part.operation_cases acts
  exact ⟨array, form rfl⟩

/-- What tells more of an operation sees it wherever it is done. -/
theorem isSome_eq_does {β : Type} {observe : Stmt → Option (String × β)} {kind : Operation}
    (sees : ∀ {found}, observe stmt = some found → operation? stmt = some (kind, found.1))
    (complete : does kind stmt = true → (observe stmt).isSome = true) :
    (observe stmt).isSome = does kind stmt := by
  apply Bool.eq_iff_iff.mpr
  refine ⟨fun seen => ?_, complete⟩
  obtain ⟨found, same⟩ := Option.isSome_iff_exists.mp seen
  rw [does, sees same]
  exact beq_self_eq_true kind

end Recognised

end Offload.Buffer
