import Offload.Proofs.Code.Execution
import Offload.Proofs.Expr.Folding

/-! What is left of generated code once the names have values: outside of loops, every
branch whose condition has a value gives way to one of its sides. -/

namespace Offload.Code

mutual

/-- The statement where the names have these values. Loops stay as they are, since the
names change from round to round, and so do branches on a condition without a value. -/
def Stmt.resolved (names : String → Option Int) : Stmt → List Stmt
  | .branch cond thn els =>
    match cond.value names with
    | some n => if n ≠ 0 then resolvedOf names thn else resolvedOf names els
    | none => [.branch cond thn els]
  | .scope body => [.scope (resolvedOf names body)]
  | stmt => [stmt]

def resolvedOf (names : String → Option Int) : List Stmt → List Stmt
  | [] => []
  | stmt :: rest => stmt.resolved names ++ resolvedOf names rest

end

section Resolved

variable {names : String → Option Int}

theorem resolvedOf_append (first second : List Stmt) :
    resolvedOf names (first ++ second) = resolvedOf names first ++ resolvedOf names second := by
  induction first with
  | nil => rfl
  | cons stmt rest ih => simp [resolvedOf, ih]

theorem resolvedOf_flatMap {α : Type} (emit : α → List Stmt) (xs : List α) :
    resolvedOf names (xs.flatMap emit) = xs.flatMap fun x => resolvedOf names (emit x) := by
  induction xs with
  | nil => rfl
  | cons x rest ih => simp [resolvedOf_append, ih]

/-- A condition that is decided chooses a side. -/
theorem resolvedOf_branch {cond : Expr} {p : Prop} (decides : cond.Decides names p)
    (thn els : List Stmt) :
    (p → resolvedOf names [.branch cond thn els] = resolvedOf names thn) ∧
      (¬ p → resolvedOf names [.branch cond thn els] = resolvedOf names els) := by
  obtain ⟨n, found, meaning⟩ := decides
  simp only [resolvedOf, Stmt.resolved, found, List.append_nil]
  exact ⟨fun holds => if_pos (meaning.mpr holds), fun fails => if_neg (mt meaning.mp fails)⟩

mutual

/-- No statement comes in. -/
theorem mem_leaves_of_resolved {leaf : Stmt} : (stmt : Stmt) →
    leaf ∈ leavesOf (stmt.resolved names) → leaf ∈ stmt.leaves
  | .branch cond thn els, member => by
    simp only [Stmt.resolved] at member
    split at member
    · split at member
      · exact List.mem_append_left _ (mem_leaves_of_resolvedOf thn member)
      · exact List.mem_append_right _ (mem_leaves_of_resolvedOf els member)
    · simpa [leavesOf] using member
  | .scope body, member => by
    refine mem_leaves_of_resolvedOf body ?_
    simpa [Stmt.resolved, leavesOf, Stmt.leaves] using member
  | .declare .., member | .define .., member | .defineArray .., member | .assign .., member
  | .loop .., member | .verbatim .., member | .blank, member | .check .., member
  | .staging .., member | .barrier, member => by
    simpa [Stmt.resolved, leavesOf] using member

theorem mem_leaves_of_resolvedOf {leaf : Stmt} : (stmts : List Stmt) →
    leaf ∈ leavesOf (resolvedOf names stmts) → leaf ∈ leavesOf stmts
  | [], member => member
  | stmt :: rest, member => by
    rw [resolvedOf, leavesOf_append] at member
    rcases List.mem_append.mp member with here | later
    · exact List.mem_append_left _ (mem_leaves_of_resolved stmt here)
    · exact List.mem_append_right _ (mem_leaves_of_resolvedOf rest later)

end

theorem Executes.append_of_resolvedOf {first second trace : List Stmt}
    (run : Executes (resolvedOf names (first ++ second)) trace) :
    ∃ before after, trace = before ++ after ∧
      Executes (resolvedOf names first) before ∧ Executes (resolvedOf names second) after := by
  rw [resolvedOf_append] at run
  exact run.append

/-- A path that the names allow stays inside the code. -/
theorem Executes.mem_leaves_of_resolvedOf {stmts trace : List Stmt}
    (run : Executes (resolvedOf names stmts) trace) : ∀ stmt ∈ trace, stmt ∈ leavesOf stmts :=
  fun stmt member => Code.mem_leaves_of_resolvedOf stmts (run.mem_leaves stmt member)

end Resolved

/-- A path through many parts consists of a path through each of them. -/
theorem Executes.exists_parts {α : Type} {emit : α → List Stmt} {xs : List α}
    {trace : List Stmt} (run : Executes (xs.flatMap emit) trace) :
    ∃ parts : List (α × List Stmt), parts.map Prod.fst = xs ∧ trace = parts.flatMap Prod.snd ∧
      ∀ part ∈ parts, Executes (emit part.1) part.2 := by
  induction xs generalizing trace with
  | nil =>
    cases run
    exact ⟨[], rfl, rfl, nofun⟩
  | cons x rest ih =>
    rw [List.flatMap_cons] at run
    obtain ⟨before, after, rfl, head, tail⟩ := run.append
    obtain ⟨parts, rfl, rfl, each⟩ := ih tail
    exact ⟨(x, before) :: parts, rfl, rfl, List.forall_mem_cons.mpr ⟨head, each⟩⟩

end Offload.Code
