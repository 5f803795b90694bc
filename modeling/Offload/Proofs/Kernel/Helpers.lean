import Offload.Proofs.Code.Symbols
import Offload.Proofs.Kernel.Body
import Offload.Proofs.Marshaling

namespace Offload

open Code
open Offload.Expr (CalledIn calledIn_append calledIn_singleton)

/-- The function is called in one of the expressions, or in an extent of one of the
arrays, each of them found by its name. -/
def Program.CalledFrom (program : Program) (fn : Builtin) (symbols : List Expr)
    (arrays : List String) : Prop :=
  CalledIn fn symbols ∨
    ∃ name ∈ arrays, ∃ array, program.array? name = some array ∧ CalledIn fn array.extents

/-- An expression of a kernel body, or an extent of an array that it copies, calls the
function. -/
def Kernel.Needs (program : Program) (body : Node) (fn : Builtin) : Prop :=
  program.CalledFrom fn body.symbols body.copiedArrays

theorem Kernel.needsFloorDiv_iff_needs {program : Program} {body : Node} :
    Kernel.needsFloorDiv program body = true ↔ Kernel.Needs program body .floorDiv := by
  simp only [needsFloorDiv, Needs, Program.CalledFrom, Bool.or_eq_true, List.any_eq_true,
    List.mem_filterMap, Node.calls_iff_calledIn, Expr.anyCalls_iff_calledIn]
  grind

section Body

variable {job : Job} {kernel : Kernel} {fn : Builtin}

theorem Program.CalledFrom.mono {program : Program} {symbols more : List Expr}
    {arrays others : List String} (called : program.CalledFrom fn symbols arrays)
    (inside : ∀ e ∈ symbols, e ∈ more) (listed : ∀ name ∈ arrays, name ∈ others) :
    program.CalledFrom fn more others := by
  rcases called with here | ⟨name, member, extents⟩
  · exact .inl (here.mono inside)
  · exact .inr ⟨name, listed name member, extents⟩

private theorem ArrayDecl.calls_foldl (first : Expr) (rest : List (Expr × Expr)) :
    (rest.foldl (fun outer (index, extent) =>
      Expr.bin .add (Expr.bin .mul outer extent) index) first).calls fn =
        (first.calls fn || rest.any fun (index, extent) => extent.calls fn || index.calls fn) := by
  induction rest generalizing first with
  | nil => simp
  | cons pair rest ih => rw [List.foldl_cons, ih]; simp [Expr.calls, Bool.or_assoc]

/-- A linear index calls what the indices and the extents call. -/
theorem ArrayDecl.calledIn_of_linearIndex {array : ArrayDecl} {indices : List Expr}
    (called : (array.linearIndex indices).calls fn = true) :
    CalledIn fn indices ∨ CalledIn fn array.extents := by
  simp only [← Expr.anyCalls_iff_calledIn, Expr.anyCalls_eq_any, List.any_eq_true]
  unfold linearIndex at called
  split at called
  · cases called
  · rename_i first extent rest paired
    have inside : ∀ pair ∈ (first, extent) :: rest, pair.1 ∈ indices ∧ pair.2 ∈ array.extents := by
      intro pair member
      exact List.of_mem_zip (paired ▸ member)
    rw [calls_foldl, Bool.or_eq_true, List.any_eq_true] at called
    rcases called with here | ⟨⟨index, size⟩, member, found⟩
    · exact .inl ⟨first, (inside _ List.mem_cons_self).1, here⟩
    · obtain ⟨isIndex, isExtent⟩ := inside _ (List.mem_cons_of_mem _ member)
      rcases (Bool.or_eq_true _ _).mp found with here | here
      · exact .inr ⟨size, isExtent, here⟩
      · exact .inl ⟨index, isIndex, here⟩

/-- The two ends of a copy call what the indices of the copy and the extents call. -/
theorem Copy.calledFrom_of_ends {copy : Copy} {array : ArrayDecl}
    (known : job.program.array? copy.array = some array)
    (called : CalledIn fn (Term.symbolsOf [(copy.ends array).1, (copy.ends array).2])) :
    job.program.CalledFrom fn (copy.localIndex ++ copy.globalIndex) [copy.array] := by
  have both : CalledIn fn copy.staged.symbols ∨
      CalledIn fn (array.element copy.globalIndex).symbols := by
    simp only [Term.symbolsOf, List.append_nil, calledIn_append, Copy.ends] at called
    cases direction : copy.direction with
    | read => simpa [direction] using called
    | write => simpa [direction, or_comm] using called
  rcases both with staged | element
  · exact .inl (calledIn_append.mpr (.inl staged))
  · unfold ArrayDecl.element at element
    split at element
    · obtain ⟨e, member, _⟩ := element
      cases member
    · rcases ArrayDecl.calledIn_of_linearIndex (calledIn_singleton.mp element) with here | extents
      · exact .inl (calledIn_append.mpr (.inr here))
      · exact .inr ⟨copy.array, List.mem_singleton_self _, array, known, extents⟩

/-- The statements of a kernel body call what its expressions and the extents of the
copied arrays call. -/
theorem EmitsBody.calledFrom {nodes : List Node} {stmts : List Stmt}
    (emits : EmitsBody job kernel nodes stmts) (called : CalledIn fn (Code.symbolsOf stmts)) :
    job.program.CalledFrom fn (Node.symbolsOf nodes) (Node.copiedArraysOf nodes) := by
  induction emits with
  | nil => exact .inl called
  | cons _ _ ihHead ihTail =>
    rw [symbolsOf_append, calledIn_append] at called
    rcases called with here | later
    · exact (ihHead here).mono (by simp +contextual [Node.symbolsOf])
        (by simp +contextual [Node.copiedArraysOf])
    · exact (ihTail later).mono (by simp +contextual [Node.symbolsOf])
        (by simp +contextual [Node.copiedArraysOf])
  | @loop iter init cond inc body inner _ ih =>
    have split : CalledIn fn [init, cond, inc] ∨ CalledIn fn (Code.symbolsOf inner) :=
      calledIn_append.mp (by simpa [Code.symbolsOf, Stmt.symbols] using called)
    rcases split with here | inside
    · exact .inl (here.mono (by simp +contextual [Node.symbolsOf, Node.symbols]))
    · exact (ih inside).mono (by simp +contextual [Node.symbolsOf, Node.symbols])
        (by simp [Node.copiedArraysOf, Node.copiedArrays])
  | @branch cond thn els first second _ _ ihPositive ihNegative =>
    have split : CalledIn fn [cond] ∨ CalledIn fn (Code.symbolsOf first) ∨
        CalledIn fn (Code.symbolsOf second) := by
      rw [← calledIn_append, ← calledIn_append]
      simpa [Code.symbolsOf, Stmt.symbols] using called
    rcases split with here | positive | negative
    · exact .inl (here.mono (by simp [Node.symbolsOf, Node.symbols]))
    · exact (ihPositive positive).mono (by simp +contextual [Node.symbolsOf, Node.symbols])
        (by simp +contextual [Node.copiedArraysOf, Node.copiedArrays])
    · exact (ihNegative negative).mono (by simp +contextual [Node.symbolsOf, Node.symbols])
        (by simp +contextual [Node.copiedArraysOf, Node.copiedArrays])
  | block _ ih =>
    exact (ih called).mono (by simp [Node.symbolsOf, Node.symbols])
      (by simp [Node.copiedArraysOf, Node.copiedArrays])
  | @copy copy array known =>
    have ends : CalledIn fn (Term.symbolsOf [(copy.ends array).1, (copy.ends array).2]) := by
      simpa [Code.symbolsOf, Stmt.symbols, Stmt.terms] using called
    exact (Copy.calledFrom_of_ends known ends).mono
      (by simp +contextual [Node.symbolsOf, Node.symbols])
      (by simp [Node.copiedArraysOf, Node.copiedArrays])
  | statement | sync =>
    obtain ⟨e, member, _⟩ := called
    cases member

private theorem EmitsBody.calleesOf_eq_nil {nodes : List Node} {stmts : List Stmt}
    (emits : EmitsBody job kernel nodes stmts) : calleesOf stmts = [] := by
  induction emits with
  | nil | statement | sync => rfl
  | cons _ _ ihHead ihTail => rw [calleesOf_append, ihHead, ihTail, List.append_nil]
  | loop _ ih => simpa [calleesOf, leavesOf, Stmt.leaves] using ih
  | branch _ _ ihPositive ihNegative =>
    simpa [calleesOf, leavesOf, Stmt.leaves] using And.intro ihPositive ihNegative
  | block _ ih => exact ih
  | @copy copy array _ =>
    have staged : copy.staged.callees = [] := rfl
    have element : (array.element copy.globalIndex).callees = [] := by
      unfold ArrayDecl.element
      split <;> rfl
    cases direction : copy.direction <;>
      simp [calleesOf, leavesOf, Stmt.leaves, Stmt.terms, Term.calleesOf, Copy.ends, direction,
        staged, element]

end Body

section Definition

variable {job : Job} {kernel : Kernel} {args : List Argument} {body : Node}
  {definition : KernelDef}

/-- The declarations of staging variables hold no terms. -/
theorem Kernel.plain_of_declareStaging {vars : List StagingVar} {staging : List Stmt}
    (declared : vars.mapM (kernel.declareStaging job.program) = .ok staging) :
    Code.symbolsOf staging = [] ∧ calleesOf staging = [] := by
  have simple := isSimple_staging declared
  have terms : ∀ stmt ∈ staging, stmt.terms = [] := by
    intro stmt member
    obtain ⟨_, _, _, _, rfl⟩ := staging_cases declared member
    rfl
  rw [symbolsOf_of_isSimple simple, calleesOf, leavesOf_of_isSimple simple]
  constructor <;>
    exact List.flatMap_eq_nil_iff.mpr fun stmt member => by rw [terms stmt member]; rfl

private theorem Kernel.symbolsOf_prologue : Code.symbolsOf (kernel.prologue job) = [] := by
  have indices (letter fn : String) (count : Nat) :
      Code.symbolsOf (if count = 0 then []
        else [.define job.iteratorType (indexDefs letter fn count)]) = [] := by
    split
    · rfl
    · simp [Code.symbolsOf, Stmt.symbols, Stmt.terms, indexDefs, Term.symbolsOf_eq_flatMap,
        Term.symbols]
  rw [prologue, symbolsOf_append, indices, indices, List.append_nil]

private theorem Kernel.callee_of_prologue {name : String}
    (member : name ∈ calleesOf (kernel.prologue job)) :
    name = "get_group_id" ∨ name = "get_local_id" := by
  have indices {letter fn : String} {count : Nat}
      (inside : name ∈ calleesOf (if count = 0 then []
        else [.define job.iteratorType (indexDefs letter fn count)])) : name = fn := by
    split at inside
    · cases inside
    · simp only [calleesOf, leavesOf, Stmt.leaves, Stmt.terms, indexDefs, List.append_nil,
        List.flatMap_singleton, List.map_map, Term.calleesOf_eq_flatMap, List.flatMap_map] at inside
      obtain ⟨_, _, called⟩ := List.mem_flatMap.mp inside
      exact List.mem_singleton.mp called
  rw [prologue, calleesOf_append, List.mem_append] at member
  exact member.imp indices indices

/-- A kernel that calls the rounded division needs its helper. -/
theorem Kernel.needs_of_calls (defines : kernel.define job args body = .ok definition)
    (calls : definition.item.Calls .floorDiv) : Kernel.Needs job.program body .floorDiv := by
  obtain ⟨staging, stmts, declared, done, rfl⟩ := Kernel.define_eq_ok defines
  obtain ⟨symbols, callees⟩ := plain_of_declareStaging declared
  have emits := emitsBody_of_bodyOf done
  rcases calls with called | named
  · have inside : CalledIn .floorDiv (Code.symbolsOf stmts) := by
      simpa [KernelDef.item, Item.body, symbolsOf_append, symbolsOf_prologue, symbols,
        Code.symbolsOf, Stmt.symbols, Stmt.terms, Term.symbolsOf] using called
    exact (emits.calledFrom inside).mono (by simp [Node.symbolsOf]) (by simp [Node.copiedArraysOf])
  · have first : Builtin.floorDiv.name ∈ calleesOf (kernel.prologue job) := by
      have rest : calleesOf (.blank :: stmts) = [] := emits.calleesOf_eq_nil
      simpa [KernelDef.item, Item.body, calleesOf_append, callees, rest] using named
    rcases callee_of_prologue first with group | item
    · exact absurd group (by decide)
    · exact absurd item (by decide)

end Definition

end Offload
