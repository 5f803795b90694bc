import Offload.Proofs.Host.Checking
import Offload.Proofs.Marshaling

/-! The launches along a path of the host program. They come one after the other: a kernel
object is created, its arguments are bound, the kernel is enqueued, the queue is drained,
and the object is released, before the next launch begins. -/

namespace Offload

open Code

namespace Launching

/-- What a statement does to a kernel object or to the queue. -/
inductive Action where
  | create (object : String)
  | bind (object : String) (position : Int)
  | enqueue (object : String)
  /-- Waits until everything in the queue has finished. -/
  | drain
  | release (object : String)

/-- The functions that stand behind the actions. -/
def functions : List String :=
  ["clCreateKernel", "clSetKernelArg", "clEnqueueNDRangeKernel", "clFinish", "clReleaseKernel"]

def action? : Stmt → Option Action
  | .define .clKernel [(object, .call "clCreateKernel" _)] => some (.create object)
  | .check (.call "clSetKernelArg" (.var object :: .int position :: _)) =>
    some (.bind object position)
  | .check (.call "clEnqueueNDRangeKernel" (.var "queue" :: .var object :: _)) =>
    some (.enqueue object)
  | .check (.call "clFinish" [.var "queue"]) => some .drain
  | .check (.call "clReleaseKernel" [.var object]) => some (.release object)
  | _ => none

/-- The statement calls none of the functions. Verbatim text is taken not to call them. -/
def Silent (stmt : Stmt) : Prop := ∀ fn ∈ Term.calleesOf stmt.terms, fn ∉ functions

def drainQueue : Stmt := .checkCall "clFinish" [.var "queue"]

def releaseObject (object : String) : Stmt := .checkCall "clReleaseKernel" [.var object]

/-- Creates an object and binds its arguments in order. -/
def preparation (object : String) (count : Nat) : List Action :=
  .create object :: (List.range count).map fun (position : Nat) => .bind object position

/-- All actions of one launch. -/
def round (object : String) (count : Nat) : List Action :=
  preparation object count ++ [.enqueue object, .drain, .release object]

/-- The kernels in flight once an action is done. -/
def Action.advance (running : List String) : Action → List String
  | .enqueue object => object :: running
  | .drain => []
  | .create _ | .bind .. | .release _ => running

def Action.isEnqueue : Action → Bool
  | .enqueue _ => true
  | _ => false

/-- The kernels that were enqueued since the queue was last drained. -/
def inFlight (actions : List Action) : List String := actions.foldl Action.advance []

/-- What a path does with kernel objects, where `scopes` are the scopes of launches in the
code. -/
structure Synchronous (scopes : List (List Stmt)) (trace : List Stmt) : Prop where
  /-- The functions are called in no other way. -/
  known : ∀ stmt ∈ trace, Silent stmt ∨ (action? stmt).isSome
  /-- Every object is created, enqueued once, and released after the queue is drained. -/
  rounds : ∃ launches : List (String × Nat),
    trace.filterMap action? = launches.flatMap fun launch => round launch.1 launch.2
  /-- Around an enqueued kernel the path runs through the whole scope of its launch. -/
  enclosed : ∀ before stmt after object, trace = before ++ stmt :: after →
    action? stmt = some (.enqueue object) →
    ∃ earlier opening later count, before = earlier ++ opening ∧
      after = drainQueue :: releaseObject object :: later ∧
      opening ++ [stmt, drainQueue, releaseObject object] ∈ scopes ∧
      opening.filterMap action? = preparation object count
  /-- At no point two kernels are in flight. -/
  single : ∀ before after, trace = before ++ after →
    (inFlight (before.filterMap action?)).length ≤ 1

/-- The scope prepares a launch, enqueues the kernel, drains the queue and releases the
object. -/
structure Launches (object : String) (count : Nat) (opening : List Stmt) (enqueue : Stmt)
    (scope : List Stmt) : Prop where
  whole : scope = opening ++ [enqueue, drainQueue, releaseObject object]
  prepares : opening.filterMap action? = preparation object count
  enqueues : action? enqueue = some (.enqueue object)
  known : ∀ stmt ∈ scope, Silent stmt ∨ (action? stmt).isSome

/-- A path that is made of whole scopes of launches and of other statements. -/
inductive Serial (scopes : List (List Stmt)) : List Stmt → Prop where
  | done : Serial scopes []
  | other {stmt : Stmt} {rest : List Stmt} (silent : Silent stmt) (next : Serial scopes rest) :
      Serial scopes (stmt :: rest)
  | launch {object : String} {count : Nat} {opening : List Stmt} {enqueue : Stmt}
      {scope rest : List Stmt} (listed : scope ∈ scopes)
      (launches : Launches object count opening enqueue scope) (next : Serial scopes rest) :
      Serial scopes (scope ++ rest)

private theorem exists_callee_of_action? {stmt : Stmt} {action : Action}
    (acts : action? stmt = some action) :
    ∃ fn ∈ Term.calleesOf stmt.terms, fn ∈ functions := by
  unfold action? at acts
  split at acts
  case h_6 => cases acts
  all_goals exact ⟨_, List.mem_cons_self, by decide⟩

theorem action?_of_silent {stmt : Stmt} (silent : Silent stmt) : action? stmt = none := by
  cases acts : action? stmt with
  | none => rfl
  | some action =>
    obtain ⟨fn, called, member⟩ := exists_callee_of_action? acts
    exact absurd member (silent fn called)

section Rounds

/-- After a launch nothing is in flight, whatever was before. -/
theorem foldl_round (running : List String) (object : String) (count : Nat) :
    (round object count).foldl Action.advance running = [] := by
  rw [round, List.foldl_append]
  rfl

private theorem length_foldl_advance_le (actions : List Action) (running : List String) :
    (actions.foldl Action.advance running).length ≤
      running.length + actions.countP Action.isEnqueue := by
  induction actions generalizing running with
  | nil => simp
  | cons action rest ih =>
    rw [List.foldl_cons, List.countP_cons]
    refine Nat.le_trans (ih _) ?_
    cases action with
    | enqueue object =>
      rw [Action.advance, List.length_cons]
      simp only [Action.isEnqueue, ↓reduceIte]
      omega
    | drain => simp [Action.advance, Action.isEnqueue]
    | create | bind | release => simp [Action.advance, Action.isEnqueue]

private theorem countP_round (object : String) (count : Nat) :
    (round object count).countP Action.isEnqueue = 1 := by
  have binds : ((List.range count).map fun (position : Nat) =>
      Action.bind object position).countP Action.isEnqueue = 0 := by
    rw [List.countP_map]
    exact List.countP_eq_zero.mpr nofun
  rw [round, preparation, List.countP_append, List.countP_cons, binds]
  rfl

/-- Up to any point of a sequence of launches at most one is in flight. -/
theorem length_inFlight_of_rounds {launches : List (String × Nat)} {before after : List Action}
    (whole : launches.flatMap (fun launch => round launch.1 launch.2) = before ++ after) :
    (inFlight before).length ≤ 1 := by
  induction launches generalizing before with
  | nil =>
    obtain ⟨rfl, -⟩ := List.append_eq_nil_iff.mp whole.symm
    exact Nat.zero_le 1
  | cons launch rest ih =>
    rw [List.flatMap_cons] at whole
    rcases List.append_eq_append_iff.mp whole with ⟨part, rfl, later⟩ | ⟨part, inside, -⟩
    · rw [inFlight, List.foldl_append, foldl_round]
      exact ih later
    · calc (before.foldl Action.advance []).length
          ≤ before.countP Action.isEnqueue := by
            simpa using length_foldl_advance_le before []
        _ ≤ (round launch.1 launch.2).countP Action.isEnqueue := by
            rw [inside, List.countP_append]
            exact Nat.le_add_right _ _
        _ = 1 := countP_round _ _

end Rounds

section Scope

variable {object : String} {count : Nat} {opening : List Stmt} {enqueue : Stmt}
  {scope : List Stmt} (launches : Launches object count opening enqueue scope)

include launches

theorem Launches.actions : scope.filterMap action? = round object count := by
  rw [launches.whole, List.filterMap_append, launches.prepares, List.filterMap_cons,
    launches.enqueues]
  rfl

/-- Nothing is enqueued before the statement that enqueues the kernel. -/
theorem Launches.not_enqueues {stmt : Stmt} (member : stmt ∈ opening) (other : String) :
    action? stmt ≠ some (.enqueue other) := by
  intro acts
  have listed : Action.enqueue other ∈ opening.filterMap action? :=
    List.mem_filterMap.mpr ⟨stmt, member, acts⟩
  rw [launches.prepares, preparation, List.mem_cons] at listed
  rcases listed with impossible | bound
  · cases impossible
  · obtain ⟨_, _, impossible⟩ := List.mem_map.mp bound
    cases impossible

/-- A kernel that a path enqueues inside the scope stands where the scope has it. -/
theorem Launches.split {before after rest : List Stmt} {stmt : Stmt} {other : String}
    (whole : scope ++ rest = before ++ stmt :: after)
    (acts : action? stmt = some (.enqueue other)) :
    (∃ more, before = scope ++ more ∧ rest = more ++ stmt :: after) ∨
      before = opening ∧ stmt = enqueue ∧ after = drainQueue :: releaseObject object :: rest := by
  rw [launches.whole, List.append_assoc] at whole
  rcases List.append_eq_append_iff.mp whole with ⟨first, rfl, ends⟩ | ⟨part, inside, same⟩
  · -- The opening is over; the statement is one of the last three, or comes after the scope.
    rcases List.cons_eq_append_iff.mp ends with ⟨rfl, here⟩ | ⟨second, rfl, afterEnqueue⟩
    · obtain ⟨rfl, rfl⟩ := List.cons.inj here
      exact .inr ⟨List.append_nil _, rfl, rfl⟩
    rcases List.cons_eq_append_iff.mp afterEnqueue with ⟨-, here⟩ | ⟨third, rfl, afterDrain⟩
    · obtain ⟨rfl, -⟩ := List.cons.inj here
      cases acts
    rcases List.cons_eq_append_iff.mp afterDrain with ⟨-, here⟩ | ⟨more, rfl, later⟩
    · obtain ⟨rfl, -⟩ := List.cons.inj here
      cases acts
    · refine .inl ⟨more, ?_, later⟩
      rw [launches.whole, List.append_assoc]
      rfl
  · rcases List.cons_eq_append_iff.mp same with ⟨rfl, same⟩ | ⟨part, rfl, -⟩
    · obtain ⟨rfl, rfl⟩ := List.cons.inj same
      exact .inr ⟨by rw [inside, List.append_nil], rfl, rfl⟩
    · have member : stmt ∈ opening := by
        rw [inside]
        exact List.mem_append_right _ List.mem_cons_self
      exact absurd acts (launches.not_enqueues member other)

end Scope

namespace Serial

variable {scopes : List (List Stmt)} {trace : List Stmt}

theorem append {first second : List Stmt} (head : Serial scopes first)
    (tail : Serial scopes second) : Serial scopes (first ++ second) := by
  induction head with
  | done => exact tail
  | other silent _ ih => exact .other silent ih
  | launch listed launches _ ih =>
    rw [List.append_assoc]
    exact .launch listed launches ih

theorem mono {others : List (List Stmt)} (included : ∀ scope ∈ scopes, scope ∈ others)
    (serial : Serial scopes trace) : Serial others trace := by
  induction serial with
  | done => exact .done
  | other silent _ ih => exact .other silent ih
  | launch listed launches _ ih => exact .launch (included _ listed) launches ih

private theorem of_launch {object : String} {count : Nat} {opening : List Stmt} {enqueue : Stmt}
    {scope : List Stmt} (listed : scope ∈ scopes)
    (launches : Launches object count opening enqueue scope) : Serial scopes scope := by
  rw [← List.append_nil scope]
  exact .launch listed launches .done

theorem of_silent (silent : ∀ stmt ∈ trace, Silent stmt) : Serial scopes trace := by
  induction trace with
  | nil => exact .done
  | cons stmt rest ih =>
    obtain ⟨head, tail⟩ := List.forall_mem_cons.mp silent
    exact .other head (ih tail)

theorem known (serial : Serial scopes trace) :
    ∀ stmt ∈ trace, Silent stmt ∨ (action? stmt).isSome := by
  induction serial with
  | done => exact nofun
  | other silent _ ih => exact List.forall_mem_cons.mpr ⟨.inl silent, ih⟩
  | launch _ launches _ ih =>
    intro stmt member
    exact (List.mem_append.mp member).elim (launches.known stmt) (ih stmt)

theorem rounds (serial : Serial scopes trace) : ∃ launches : List (String × Nat),
    trace.filterMap action? = launches.flatMap fun launch => round launch.1 launch.2 := by
  induction serial with
  | done => exact ⟨[], rfl⟩
  | other silent _ ih =>
    obtain ⟨launches, same⟩ := ih
    exact ⟨launches, by rw [List.filterMap_cons, action?_of_silent silent, same]⟩
  | @launch object count _ _ _ _ _ launches _ ih =>
    obtain ⟨others, same⟩ := ih
    refine ⟨(object, count) :: others, ?_⟩
    rw [List.filterMap_append, launches.actions, same, List.flatMap_cons]

theorem enclosed (serial : Serial scopes trace) {before after : List Stmt} {stmt : Stmt}
    {object : String} (whole : trace = before ++ stmt :: after)
    (acts : action? stmt = some (.enqueue object)) :
    ∃ earlier opening later count, before = earlier ++ opening ∧
      after = drainQueue :: releaseObject object :: later ∧
      opening ++ [stmt, drainQueue, releaseObject object] ∈ scopes ∧
      opening.filterMap action? = preparation object count := by
  induction serial generalizing before with
  | done =>
    obtain ⟨-, impossible⟩ := List.append_eq_nil_iff.mp whole.symm
    cases impossible
  | other silent _ ih =>
    rcases List.cons_eq_append_iff.mp whole with ⟨-, same⟩ | ⟨part, rfl, same⟩
    · obtain ⟨rfl, -⟩ := List.cons.inj same
      rw [action?_of_silent silent] at acts
      cases acts
    · obtain ⟨earlier, opening, later, count, rfl, found⟩ := ih same
      exact ⟨_ :: earlier, opening, later, count, rfl, found⟩
  | @launch _ count opening _ scope rest listed launches _ ih =>
    rcases launches.split whole acts with ⟨more, rfl, same⟩ | ⟨rfl, rfl, rfl⟩
    · obtain ⟨earlier, opening, later, count, rfl, found⟩ := ih same
      exact ⟨scope ++ earlier, opening, later, count, (List.append_assoc ..).symm, found⟩
    · rw [launches.enqueues] at acts
      cases acts
      rw [launches.whole] at listed
      exact ⟨[], before, rest, count, rfl, rfl, listed, launches.prepares⟩

theorem synchronous (serial : Serial scopes trace) : Synchronous scopes trace where
  known := serial.known
  rounds := serial.rounds
  enclosed _ _ _ _ := serial.enclosed
  single before after whole := by
    obtain ⟨launches, actions⟩ := serial.rounds
    rw [whole, List.filterMap_append] at actions
    exact length_inFlight_of_rounds actions.symm

end Serial

section Host

variable {job : Job}

theorem action?_bind (name : String) (arg : Argument) (position : Nat) :
    action? (arg.bind name position) = some (.bind name position) := by
  rcases arg with ⟨kind, _, _⟩
  cases kind <;> rfl

private theorem actions_bindAll (name : String) (args : List Argument) :
    (Argument.bindAll name args).filterMap action? =
      (List.range args.length).map fun (position : Nat) => .bind name position := by
  calc (Argument.bindAll name args).filterMap action?
      = args.zipIdx.map fun entry => .bind name entry.2 := by
        rw [Argument.bindAll, List.filterMap_map, ← List.filterMap_eq_map]
        exact congrArg (args.zipIdx.filterMap ·) (funext fun _ => action?_bind ..)
    _ = (args.zipIdx.map Prod.snd).map fun (position : Nat) => .bind name position := by
        rw [List.map_map]
        rfl
    _ = (List.range args.length).map fun (position : Nat) => .bind name position := by
        rw [List.zipIdx_map_snd, List.range_eq_range']

theorem silent_of_callees {stmt : Stmt} (none : Term.calleesOf stmt.terms = []) :
    Silent stmt := by
  intro fn called
  rw [none] at called
  cases called

/-- The scope of a launch as it is generated. -/
theorem launches_launchBody (kernel : Kernel) (args : List Argument) :
    ∃ opening enqueue, Launches kernel.name args.length opening enqueue
      (HostCode.launchBody kernel args (.ofSizes kernel.gridSize kernel.blockSize)) := by
  refine ⟨_, _, rfl, ?_, rfl, ?_⟩
  · rw [List.filterMap_append, actions_bindAll]
    rfl
  · intro stmt member
    rcases HostCode.launchBody_cases member with
      ⟨arg, _, position, rfl⟩ | rfl | rfl | rfl | rfl | rfl | rfl | rfl
    · rw [action?_bind]
      exact .inr rfl
    · exact .inl (silent_of_callees (Geometry.calleesOf_global ..))
    · exact .inl (silent_of_callees (Geometry.calleesOf_group ..))
    · exact .inr rfl
    · exact .inl (silent_of_callees rfl)
    all_goals exact .inr rfl

/-- The paths through the code of a tree run its launches one after the other. -/
theorem serial_of_emits {nodes : List Node} {code : HostCode} (emits : Emits job nodes code) :
    ∀ trace, Executes code.stmts trace → Serial (launchScopesOf code.stmts) trace := by
  induction emits with
  | nil =>
    intro trace run
    cases run
    exact .done
  | cons _ _ ihHead ihTail =>
    intro trace run
    rw [launchScopesOf_append]
    exact run.holds_append Serial.append
      (fun path inside => (ihHead path inside).mono fun _ => List.mem_append_left _)
      (fun path inside => (ihTail path inside).mono fun _ => List.mem_append_right _)
  | loop _ ih =>
    intro trace run
    refine run.holds_loop Serial.append .done fun path inside => ?_
    simpa [launchScopesOf, Stmt.launchScopes] using ih path inside
  | branch _ _ ihPositive ihNegative =>
    intro trace run
    simp only [launchScopesOf, Stmt.launchScopes, List.append_nil]
    exact run.holds_branch
      (fun path inside => (ihPositive path inside).mono fun _ => List.mem_append_left _)
      (fun path inside => (ihNegative path inside).mono fun _ => List.mem_append_right _)
  | block _ ih => exact ih
  | statement =>
    intro trace run
    rw [run.eq_of_isSimple rfl]
    exact .other (silent_of_callees rfl) .done
  | @launch kernel _ args _ _ _ =>
    intro trace run
    obtain ⟨opening, enqueue, launches⟩ := launches_launchBody kernel args
    rw [launchScopesOf_scope (created_launchBody ..),
      run.eq_body_of_scope (HostCode.isSimple_launchBody ..)]
    exact .of_launch (List.mem_singleton_self _) launches

theorem serial_of_callees {scopes : List (List Stmt)} {code trace : List Stmt}
    (others : ∀ fn ∈ calleesOf code, fn ∉ functions)
    (inside : ∀ stmt ∈ trace, stmt ∈ leavesOf code) : Serial scopes trace := by
  refine .of_silent fun stmt member fn called => others fn ?_
  exact List.mem_flatMap.mpr ⟨stmt, inside stmt member, called⟩

private theorem callee_of_createAll {fn : String} (called : fn ∈ calleesOf (Buffer.createAll job)) :
    fn ∉ functions := by
  rw [Buffer.createAll, calleesOf_map] at called
  obtain ⟨array, _, inside⟩ := List.mem_flatMap.mp called
  rw [HostProgram.callees_create, List.mem_cons] at inside
  rcases inside with rfl | bound
  · decide
  · unfold Buffer.allocationSize at bound
    split at bound
    · cases bound
    · rw [List.mem_singleton.mp bound]
      decide

/-- Around the code of the tree, nothing happens to kernel objects. -/
theorem serial_of_body {nodes : List Node} {code : HostCode} (emits : Emits job nodes code)
    {kernelPath : String} {trace : List Stmt}
    (run : Executes (HostProgram.body job kernelPath (Buffer.createAll job) code.stmts) trace) :
    Serial (launchScopesOf code.stmts) trace := by
  obtain ⟨created, launched, copied, released, creating, launching, copying, releasing, rfl⟩ :=
    HostProgram.executes_body run
  have blank : Serial (launchScopesOf code.stmts) [.blank] :=
    .other (silent_of_callees rfl) .done
  have declares : Serial (launchScopesOf code.stmts) (Buffer.declareAll job) := by
    refine .of_silent fun stmt member => ?_
    obtain ⟨array, _, rfl⟩ := List.mem_map.mp member
    exact silent_of_callees rfl
  have setUp : Serial (launchScopesOf code.stmts) (HostProgram.setUp job.options kernelPath) := by
    have others : ∀ fn ∈ calleesOf (HostProgram.setUp job.options kernelPath),
        fn ∉ functions := by
      change ∀ fn ∈ ["opencl_create_device", "clCreateContext", "clCreateCommandQueue",
        "opencl_build_program"], fn ∉ functions
      decide
    exact serial_of_callees others fun _ => id
  have creates : Serial (launchScopesOf code.stmts) created :=
    serial_of_callees (fun _ => callee_of_createAll) creating.mem_leaves
  have copies : Serial (launchScopesOf code.stmts) copied := by
    refine serial_of_callees (fun fn called => ?_) copying.mem_leaves
    rw [Buffer.copyBackAll, calleesOf_map] at called
    obtain ⟨array, _, inside⟩ := List.mem_flatMap.mp called
    rw [HostProgram.callees_copyBack] at inside
    rw [List.mem_singleton.mp inside]
    decide
  have releases : Serial (launchScopesOf code.stmts) released := by
    refine serial_of_callees (fun fn called => ?_) releasing.mem_leaves
    rw [Buffer.releaseAll, calleesOf_map] at called
    obtain ⟨array, _, inside⟩ := List.mem_flatMap.mp called
    rw [show fn = "clReleaseMemObject" from List.mem_singleton.mp inside]
    decide
  have release : Serial (launchScopesOf code.stmts) HostProgram.release := by
    have others : ∀ fn ∈ calleesOf HostProgram.release, fn ∉ functions := by decide
    exact serial_of_callees others fun _ => id
  exact (((((((((declares.append setUp).append blank).append creates).append blank).append
    (serial_of_emits emits launched launching)).append blank).append copies).append blank).append
    releases).append release

end Host

end Launching

/-- Along every path of the host program, launches come one after the other, each with its
kernel object created and bound before, the queue drained directly after, and the object
released then. In the text of the program, every call of the OpenCL interface is checked. -/
theorem synchronous_and_checked {job : Job} {kernelPath headerName : String} {tree : Node}
    {files : Files} (generated : (job.generate kernelPath headerName tree).result = .ok files) :
    (∀ trace, Executes files.host.code trace →
      Launching.Synchronous (launchScopesOf files.host.code) trace) ∧
    CheckedOf files.host.code := by
  obtain ⟨code, emits, host, _⟩ := Job.exists_emits_of_generate generated
  rw [host, launchScopesOf_body]
  refine ⟨?_, HostProgram.checkedOf_body emits kernelPath⟩
  intro trace run
  exact (Launching.serial_of_body emits run).synchronous

/-- The two launches of the sample, one in every round of a loop and one in some rounds. -/
theorem synchronous_in_sample :
    ∃ files, (Sample.job.generate "code.cl" "code.h" Sample.tree).result = .ok files ∧
      (∃ trace, Executes files.host.code trace ∧
        Launching.Action.enqueue "kernel7" ∈ trace.filterMap Launching.action?) ∧
      (∀ trace, Executes files.host.code trace →
        Launching.Synchronous (launchScopesOf files.host.code) trace) ∧
      CheckedOf files.host.code := by
  obtain ⟨files, generated, actions⟩ :
      ∃ files, (Sample.job.generate "code.cl" "code.h" Sample.tree).result = .ok files ∧
        (leavesOf files.host.code).filterMap Launching.action? =
          Launching.round "kernel0" 4 ++ Launching.round "kernel7" 3 := ⟨_, rfl, rfl⟩
  have listed : Launching.Action.enqueue "kernel7" ∈
      (leavesOf files.host.code).filterMap Launching.action? := by
    rw [actions]
    exact List.mem_append_right _ (List.mem_append_right _ List.mem_cons_self)
  obtain ⟨stmt, leaf, acts⟩ := List.mem_filterMap.mp listed
  obtain ⟨trace, run, member⟩ := Executes.exists_of_mem_leaves _ leaf
  exact ⟨files, generated, ⟨trace, run, List.mem_filterMap.mpr ⟨stmt, member, acts⟩⟩,
    synchronous_and_checked generated⟩

end Offload
