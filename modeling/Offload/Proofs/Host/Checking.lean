import Offload.Proofs.Host.Helpers

/-! The calls of the OpenCL interface in the host program. Each of them is checked: by the
statement that makes the call, or by the next one where the call leaves its status behind. -/

namespace Offload

open Code

namespace Code

mutual

/-- The calls of a term at any depth, each with its arguments. -/
def Term.calls : Term → List (String × List Term)
  | .call fn args => (fn, args) :: Term.callsOf args
  | .addressOf term | .voidPointer term => term.calls
  | .var _ | .int _ | .str _ | .symbolic _ | .sizeOf _ | .access .. | .byteSize .. | .flags _
  | .workItems .. => []

def Term.callsOf : List Term → List (String × List Term)
  | [] => []
  | term :: rest => term.calls ++ Term.callsOf rest

end

/-- Whether the name is one of the OpenCL interface. -/
def isInterface (fn : String) : Bool := "cl".toList.isPrefixOf fn.toList

/-- The calls of the interface that a simple statement makes. -/
def Stmt.interfaceCalls (stmt : Stmt) : List (String × List Term) :=
  (Term.callsOf stmt.terms).filter fun call => isInterface call.1

/-- The statement calls the interface once at most. It checks the status that the call
returns, or the call leaves the status in `err`, which the next statement checks. -/
def Stmt.Checked (stmt : Stmt) (after : List Stmt) : Prop :=
  stmt.interfaceCalls = [] ∨ ∃ fn args, stmt.interfaceCalls = [(fn, args)] ∧
    (stmt = .check (.call fn args) ∨
      args.getLast? = some .errAddress ∧ after.head? = some .checkErr)

mutual

/-- Every call of the interface inside the statement is checked. -/
def Stmt.CheckedInside : Stmt → Prop
  | .loop _ _ _ _ _ body | .scope body => CheckedOf body
  | .branch _ thn els => CheckedOf thn ∧ CheckedOf els
  | _ => True

/-- Every call of the interface in the code is checked. -/
def CheckedOf : List Stmt → Prop
  | [] => True
  | stmt :: rest => stmt.Checked rest ∧ stmt.CheckedInside ∧ CheckedOf rest

end

mutual

theorem Term.map_fst_calls : (term : Term) → term.calls.map Prod.fst = term.callees
  | .call fn args => congrArg (fn :: ·) (Term.map_fst_callsOf args)
  | .addressOf term | .voidPointer term => term.map_fst_calls
  | .var _ | .int _ | .str _ | .symbolic _ | .sizeOf _ | .access .. | .byteSize .. | .flags _
  | .workItems .. => rfl

theorem Term.map_fst_callsOf : (terms : List Term) →
    (Term.callsOf terms).map Prod.fst = Term.calleesOf terms
  | [] => rfl
  | term :: rest => by
    rw [Term.callsOf, List.map_append, term.map_fst_calls, Term.map_fst_callsOf rest,
      Term.calleesOf]

end

/-- The terms call nothing of the interface. -/
def Term.Foreign (terms : List Term) : Prop :=
  ∀ fn ∈ Term.calleesOf terms, isInterface fn = false

theorem Term.foreign_of_callees {terms : List Term} (none : Term.calleesOf terms = []) :
    Term.Foreign terms := by
  intro fn member
  rw [none] at member
  cases member

theorem Term.filter_callsOf {terms : List Term} (foreign : Term.Foreign terms) :
    (Term.callsOf terms).filter (fun call => isInterface call.1) = [] := by
  apply List.filter_eq_nil_iff.mpr
  intro call member
  have callee : call.1 ∈ Term.calleesOf terms := by
    rw [← Term.map_fst_callsOf]
    exact List.mem_map_of_mem member
  rw [foreign call.1 callee]
  exact Bool.false_ne_true

namespace Stmt

theorem Checked.append {stmt : Stmt} {after : List Stmt} (checked : stmt.Checked after)
    (more : List Stmt) : stmt.Checked (after ++ more) := by
  rcases checked with none | ⟨fn, args, once, here | ⟨status, next⟩⟩
  · exact .inl none
  · exact .inr ⟨fn, args, once, .inl here⟩
  · refine .inr ⟨fn, args, once, .inr ⟨status, ?_⟩⟩
    rw [List.head?_append, next, Option.some_or]

theorem checked_of_foreign {stmt : Stmt} {after : List Stmt}
    (foreign : Term.Foreign stmt.terms) : stmt.Checked after :=
  .inl (Term.filter_callsOf foreign)

/-- One call of the interface, whose arguments call nothing of it. -/
theorem interfaceCalls_of_call {stmt : Stmt} {fn : String} {args : List Term}
    (calls : Term.callsOf stmt.terms = (fn, args) :: Term.callsOf args)
    (named : isInterface fn = true) (foreign : Term.Foreign args) :
    stmt.interfaceCalls = [(fn, args)] := by
  rw [interfaceCalls, calls, List.filter_cons, if_pos named, Term.filter_callsOf foreign]

theorem checked_checkCall {fn : String} {args : List Term} {after : List Stmt}
    (named : isInterface fn = true) (foreign : Term.Foreign args) :
    (checkCall fn args).Checked after :=
  .inr ⟨fn, args, interfaceCalls_of_call (List.append_nil _) named foreign, .inl rfl⟩

/-- A call that leaves its status behind, with the check after it. -/
theorem checked_checkErr {stmt : Stmt} {fn : String} {args : List Term} {after : List Stmt}
    (calls : Term.callsOf stmt.terms = (fn, args) :: Term.callsOf args)
    (named : isInterface fn = true) (foreign : Term.Foreign args)
    (status : args.getLast? = some .errAddress) : stmt.Checked (.checkErr :: after) :=
  .inr ⟨fn, args, interfaceCalls_of_call calls named foreign, .inr ⟨status, rfl⟩⟩

end Stmt

theorem CheckedOf.append {first second : List Stmt} (head : CheckedOf first)
    (tail : CheckedOf second) : CheckedOf (first ++ second) := by
  induction first with
  | nil => exact tail
  | cons stmt rest ih =>
    obtain ⟨here, inside, later⟩ := head
    exact ⟨here.append second, inside, ih later⟩

theorem checkedOf_map {α : Type} {emit : α → Stmt} {xs : List α}
    (each : ∀ x ∈ xs, CheckedOf [emit x]) : CheckedOf (xs.map emit) := by
  induction xs with
  | nil => trivial
  | cons x rest ih =>
    obtain ⟨head, tail⟩ := List.forall_mem_cons.mp each
    exact head.append (ih tail)

end Code

private theorem Buffer.foreign_allocationSize (job : Job) (array : ArrayDecl) :
    Term.Foreign [allocationSize job array] := by
  unfold allocationSize
  split
  · exact Term.foreign_of_callees rfl
  · exact List.forall_mem_singleton.mpr rfl

/-- The creation of a buffer leaves its status behind; its size may call the maximum. -/
theorem Buffer.checkedOf_create (job : Job) (array : ArrayDecl) (initialCopy : Bool) :
    CheckedOf [create job array initialCopy] := by
  have callees : Term.calleesOf [.var "context",
      .flags ("CL_MEM_READ_WRITE" :: if initialCopy then ["CL_MEM_COPY_HOST_PTR"] else []),
      allocationSize job array, if initialCopy then hostData job array else .var "NULL",
      .errAddress] = Term.calleesOf [allocationSize job array] := by
    cases initialCopy <;> simp [Term.calleesOf, Term.callees, Term.errAddress,
      HostProgram.callees_hostData]
  have foreign := foreign_allocationSize job array
  rw [Term.Foreign, ← callees] at foreign
  refine ⟨.inl rfl, ⟨?_, trivial, .inl rfl, trivial, trivial⟩, trivial⟩
  exact Stmt.checked_checkErr (List.append_nil _) rfl foreign rfl

private theorem Buffer.checkedOf_copyBack (job : Job) (array : ArrayDecl) :
    CheckedOf [copyBack job array] := by
  have foreign : Term.Foreign [.var "queue", .var array.bufferName, .var "CL_TRUE", .int 0,
      byteSize array, hostData job array, .int 0, .var "NULL", .var "NULL"] := by
    apply Term.foreign_of_callees
    simp [Term.calleesOf, Term.callees, byteSize, HostProgram.callees_hostData]
  have read : CheckedOf [readBack job array] :=
    ⟨Stmt.checked_checkCall rfl foreign, trivial, trivial⟩
  rcases copyBack_cases job array with same | ⟨cond, same⟩
  · rw [same]
    exact read
  · rw [same]
    exact ⟨.inl rfl, ⟨read, trivial⟩, trivial⟩

section Host

variable {job : Job}

private theorem Argument.checked_bind {after : List Stmt} (kernel : String) (arg : Argument)
    (position : Nat) : (arg.bind kernel position).Checked after := by
  rcases arg with ⟨kind, _, _⟩
  cases kind <;> exact Stmt.checked_checkCall rfl (Term.foreign_of_callees rfl)

theorem Geometry.calleesOf_global (grid : List Expr) (block : List Int) :
    Term.calleesOf (ofSizes grid block).global = [] := by
  simp only [ofSizes]
  split
  · rfl
  · exact calleesOf_globalSizes grid block

theorem Geometry.calleesOf_group (geometry : Geometry) :
    Term.calleesOf (geometry.group.map .int) = [] := by
  rw [Term.calleesOf_eq_flatMap, List.flatMap_map]
  exact List.flatMap_eq_nil_iff.mpr fun _ _ => rfl

private theorem HostCode.checkedOf_launchBody (kernel : Kernel) (args : List Argument) :
    CheckedOf (launchBody kernel args (.ofSizes kernel.gridSize kernel.blockSize)) := by
  have binds : CheckedOf (Argument.bindAll kernel.name args) :=
    checkedOf_map fun ⟨arg, position⟩ _ =>
      ⟨arg.checked_bind kernel.name position, trivial, trivial⟩
  refine CheckedOf.append (CheckedOf.append
    ⟨?_, trivial, ?_, trivial, ?_, trivial, .inl rfl, trivial, trivial⟩ binds)
    ⟨?_, trivial, ?_, trivial, ?_, trivial, trivial⟩
  · exact Stmt.checked_of_foreign (Term.foreign_of_callees (Geometry.calleesOf_global ..))
  · exact Stmt.checked_of_foreign (Term.foreign_of_callees (Geometry.calleesOf_group ..))
  · exact Stmt.checked_checkErr (List.append_nil _) rfl (Term.foreign_of_callees rfl) rfl
  all_goals exact Stmt.checked_checkCall rfl (Term.foreign_of_callees rfl)

/-- The code of the tree checks what it calls, in every loop and on both sides of every
branch. -/
theorem Emits.checkedOf {nodes : List Node} {code : HostCode} (emits : Emits job nodes code) :
    CheckedOf code.stmts := by
  induction emits with
  | nil => trivial
  | cons _ _ ihHead ihTail => exact ihHead.append ihTail
  | loop _ ih => exact ⟨.inl rfl, ih, trivial⟩
  | branch _ _ ihPositive ihNegative => exact ⟨.inl rfl, ⟨ihPositive, ihNegative⟩, trivial⟩
  | block _ ih => exact ih
  | statement => exact ⟨.inl rfl, trivial, trivial⟩
  | launch => exact ⟨.inl rfl, HostCode.checkedOf_launchBody _ _, trivial⟩

private theorem HostProgram.checkedOf_setUp (options : Options) (kernelPath : String) :
    CheckedOf (setUp options kernelPath) := by
  refine ⟨.inl rfl, trivial, .inl rfl, trivial, .inl rfl, trivial, .inl rfl, trivial, .inl rfl,
    trivial, ?_, trivial, ?_, trivial, .inl rfl, trivial, ?_, trivial, .inl rfl, trivial,
    ?_, trivial, trivial⟩
  · exact Stmt.checked_of_foreign (List.forall_mem_singleton.mpr rfl)
  · exact Stmt.checked_checkErr (List.append_nil _) rfl (Term.foreign_of_callees rfl) rfl
  · exact Stmt.checked_checkErr (List.append_nil _) rfl (Term.foreign_of_callees rfl) rfl
  · exact Stmt.checked_of_foreign (List.forall_mem_singleton.mpr rfl)

private theorem HostProgram.checkedOf_release : CheckedOf release := by
  refine ⟨?_, trivial, ?_, trivial, ?_, trivial, trivial⟩
  all_goals exact Stmt.checked_checkCall rfl (Term.foreign_of_callees rfl)

/-- The host program checks every call of the interface. -/
theorem HostProgram.checkedOf_body {nodes : List Node} {code : HostCode}
    (emits : Emits job nodes code) (kernelPath : String) :
    CheckedOf (body job kernelPath (Buffer.createAll job) code.stmts) := by
  have blank : CheckedOf [.blank] := ⟨.inl rfl, trivial, trivial⟩
  have declares : CheckedOf (Buffer.declareAll job) :=
    checkedOf_map fun _ _ => ⟨.inl rfl, trivial, trivial⟩
  have creates : CheckedOf (Buffer.createAll job) :=
    checkedOf_map fun array _ => Buffer.checkedOf_create job array _
  have copies : CheckedOf (Buffer.copyBackAll job) :=
    checkedOf_map fun array _ => Buffer.checkedOf_copyBack job array
  have releases : CheckedOf (Buffer.releaseAll job) := by
    refine checkedOf_map fun array _ => ⟨.inl rfl, ⟨?_, trivial, trivial⟩, trivial⟩
    exact Stmt.checked_checkCall rfl (Term.foreign_of_callees rfl)
  exact (((((((((declares.append (checkedOf_setUp _ _)).append blank).append creates).append
    blank).append emits.checkedOf).append blank).append copies).append blank).append
    releases).append checkedOf_release

end Host

end Offload
