import Offload.Code.Basic

/-! The control-flow paths of generated code. A loop runs its body any number of
times and a branch takes either side, so the paths cover every execution. -/

namespace Offload.Code

/-- Whether the statement holds no other statements. -/
def Stmt.isSimple : Stmt → Bool
  | .loop .. | .branch .. | .scope _ => false
  | _ => true

/-- The simple statements along a path, in the order of their execution. -/
inductive Executes : List Stmt → List Stmt → Prop where
  | done : Executes [] []
  | simple {stmt : Stmt} {rest trace : List Stmt} (plain : stmt.isSimple = true)
      (next : Executes rest trace) : Executes (stmt :: rest) (stmt :: trace)
  | scope {body rest first second : List Stmt} (inside : Executes body first)
      (next : Executes rest second) : Executes (.scope body :: rest) (first ++ second)
  | positive {cond : Expr} {thn els rest first second : List Stmt} (inside : Executes thn first)
      (next : Executes rest second) : Executes (.branch cond thn els :: rest) (first ++ second)
  | negative {cond : Expr} {thn els rest first second : List Stmt} (inside : Executes els first)
      (next : Executes rest second) : Executes (.branch cond thn els :: rest) (first ++ second)
  | leave {type : Ty} {iter : String} {init cond inc : Expr} {body rest trace : List Stmt}
      (next : Executes rest trace) : Executes (.loop type iter init cond inc body :: rest) trace
  | again {type : Ty} {iter : String} {init cond inc : Expr}
      {body rest first second : List Stmt} (inside : Executes body first)
      (next : Executes (.loop type iter init cond inc body :: rest) second) :
      Executes (.loop type iter init cond inc body :: rest) (first ++ second)

mutual

/-- The simple statements inside a statement. -/
def Stmt.leaves : Stmt → List Stmt
  | .loop _ _ _ _ _ body | .scope body => leavesOf body
  | .branch _ thn els => leavesOf thn ++ leavesOf els
  | stmt => [stmt]

def leavesOf : List Stmt → List Stmt
  | [] => []
  | stmt :: rest => stmt.leaves ++ leavesOf rest

end

theorem leavesOf_append (first second : List Stmt) :
    leavesOf (first ++ second) = leavesOf first ++ leavesOf second := by
  induction first with
  | nil => rfl
  | cons stmt rest ih => simp [leavesOf, ih]

theorem leaves_of_isSimple {stmt : Stmt} (plain : stmt.isSimple = true) :
    stmt.leaves = [stmt] := by
  cases stmt with
  | loop | branch | scope => cases plain
  | _ => rfl

theorem leavesOf_of_isSimple {stmts : List Stmt} (plain : stmts.all Stmt.isSimple = true) :
    leavesOf stmts = stmts := by
  induction stmts with
  | nil => rfl
  | cons stmt rest ih =>
    obtain ⟨head, tail⟩ : stmt.isSimple = true ∧ rest.all Stmt.isSimple = true := by
      simpa using plain
    rw [leavesOf, leaves_of_isSimple head, ih tail, List.singleton_append]

theorem leavesOf_map {α : Type} (emit : α → Stmt) (xs : List α) :
    leavesOf (xs.map emit) = xs.flatMap fun x => (emit x).leaves := by
  induction xs with
  | nil => rfl
  | cons x rest ih => simp [leavesOf, ih]

namespace Executes

/-- A path stays inside the code. -/
theorem mem_leaves {stmts trace : List Stmt} (run : Executes stmts trace) :
    ∀ stmt ∈ trace, stmt ∈ leavesOf stmts := by
  induction run with
  | done => exact nofun
  | simple plain _ ih =>
    intro stmt member
    rw [leavesOf, leaves_of_isSimple plain]
    rcases List.mem_cons.mp member with rfl | member
    · simp
    · simp [ih stmt member]
  | scope _ _ ihInside ihNext | positive _ _ ihInside ihNext | negative _ _ ihInside ihNext =>
    intro stmt member
    simp only [leavesOf, Stmt.leaves, List.mem_append]
    rcases List.mem_append.mp member with inner | later
    · simp [ihInside stmt inner]
    · simp [ihNext stmt later]
  | leave _ ih =>
    intro stmt member
    exact List.mem_append_right _ (ih stmt member)
  | again _ _ ihInside ihNext =>
    intro stmt member
    rcases List.mem_append.mp member with inner | later
    · exact List.mem_append_left _ (ihInside stmt inner)
    · exact ihNext stmt later

/-- A path through two parts goes through the first and then through the second. -/
theorem append {first second trace : List Stmt} (run : Executes (first ++ second) trace) :
    ∃ before after, trace = before ++ after ∧ Executes first before ∧ Executes second after := by
  generalize whole : first ++ second = stmts at run
  -- The first part is empty, or it begins with the statement that the path begins with.
  induction run generalizing first with
  | done =>
    obtain ⟨rfl, rfl⟩ := List.append_eq_nil_iff.mp whole
    exact ⟨[], [], rfl, .done, .done⟩
  | simple plain next ih =>
    rcases List.append_eq_cons_iff.mp whole with ⟨rfl, rfl⟩ | ⟨part, rfl, same⟩
    · exact ⟨[], _, rfl, .done, .simple plain next⟩
    · obtain ⟨before, after, rfl, head, tail⟩ := ih same.symm
      exact ⟨_ :: before, after, rfl, .simple plain head, tail⟩
  | scope inside next _ ih =>
    rcases List.append_eq_cons_iff.mp whole with ⟨rfl, rfl⟩ | ⟨part, rfl, same⟩
    · exact ⟨[], _, rfl, .done, .scope inside next⟩
    · obtain ⟨before, after, rfl, head, tail⟩ := ih same.symm
      exact ⟨_ ++ before, after, (List.append_assoc ..).symm, .scope inside head, tail⟩
  | positive inside next _ ih =>
    rcases List.append_eq_cons_iff.mp whole with ⟨rfl, rfl⟩ | ⟨part, rfl, same⟩
    · exact ⟨[], _, rfl, .done, .positive inside next⟩
    · obtain ⟨before, after, rfl, head, tail⟩ := ih same.symm
      exact ⟨_ ++ before, after, (List.append_assoc ..).symm, .positive inside head, tail⟩
  | negative inside next _ ih =>
    rcases List.append_eq_cons_iff.mp whole with ⟨rfl, rfl⟩ | ⟨part, rfl, same⟩
    · exact ⟨[], _, rfl, .done, .negative inside next⟩
    · obtain ⟨before, after, rfl, head, tail⟩ := ih same.symm
      exact ⟨_ ++ before, after, (List.append_assoc ..).symm, .negative inside head, tail⟩
  | leave next ih =>
    rcases List.append_eq_cons_iff.mp whole with ⟨rfl, rfl⟩ | ⟨part, rfl, same⟩
    · exact ⟨[], _, rfl, .done, .leave next⟩
    · obtain ⟨before, after, rfl, head, tail⟩ := ih same.symm
      exact ⟨before, after, rfl, .leave head, tail⟩
  | again inside next _ ih =>
    rcases List.append_eq_cons_iff.mp whole with ⟨rfl, rfl⟩ | ⟨part, rfl, same⟩
    · exact ⟨[], _, rfl, .done, .again inside next⟩
    · obtain ⟨before, after, rfl, head, tail⟩ := ih whole
      exact ⟨_ ++ before, after, (List.append_assoc ..).symm, .again inside head, tail⟩

/-- Simple statements are executed one after the other. -/
theorem eq_of_isSimple {stmts trace : List Stmt} (run : Executes stmts trace)
    (plain : stmts.all Stmt.isSimple = true) : trace = stmts := by
  induction run with
  | done => rfl
  | simple _ _ ih =>
    rw [List.all_cons, Bool.and_eq_true] at plain
    rw [ih plain.2]
  | scope | positive | negative | leave | again => cases plain

theorem eq_body_of_scope {body trace : List Stmt} (run : Executes [.scope body] trace)
    (plain : body.all Stmt.isSimple = true) : trace = body := by
  cases run with
  | simple impossible => cases impossible
  | scope inside next =>
    cases next
    rw [List.append_nil, inside.eq_of_isSimple plain]

/-- What is observed along a path through statements that show the same on all paths. -/
theorem filterMap_map {α β : Type} {emit : α → Stmt} {observe : Stmt → Option β}
    {shown : α → List β}
    (each : ∀ x path, Executes [emit x] path → path.filterMap observe = shown x)
    {xs : List α} {trace : List Stmt} (run : Executes (xs.map emit) trace) :
    trace.filterMap observe = xs.flatMap shown := by
  induction xs generalizing trace with
  | nil =>
    cases run
    rfl
  | cons x rest ih =>
    have parts : Executes ([emit x] ++ rest.map emit) trace := run
    obtain ⟨before, after, rfl, head, tail⟩ := parts.append
    rw [List.filterMap_append, each x before head, ih tail, List.flatMap_cons]

section Closed

variable {holds : List Stmt → Prop}
  (join : ∀ {first second : List Stmt}, holds first → holds second → holds (first ++ second))

include join

/-- What is kept by joining paths holds along two parts if it holds along each. -/
theorem holds_append {first second : List Stmt} (head : ∀ path, Executes first path → holds path)
    (tail : ∀ path, Executes second path → holds path) {trace : List Stmt}
    (run : Executes (first ++ second) trace) : holds trace := by
  obtain ⟨before, after, rfl, starts, ends⟩ := run.append
  exact join (head before starts) (tail after ends)

/-- What holds along the body of a loop holds however often the loop is run. -/
theorem holds_loop (empty : holds []) {type : Ty} {iter : String} {init cond inc : Expr}
    {body : List Stmt} (inside : ∀ path, Executes body path → holds path) {trace : List Stmt}
    (run : Executes [.loop type iter init cond inc body] trace) : holds trace := by
  generalize whole : [Stmt.loop type iter init cond inc body] = stmts at run
  induction run with
  | leave next =>
    cases whole
    cases next
    exact empty
  | again round _ _ ih =>
    cases whole
    exact join (inside _ round) (ih rfl)
  | done => cases whole
  | scope => cases whole
  | positive => cases whole
  | negative => cases whole
  | simple plain =>
    cases whole
    cases plain

end Closed

/-- What holds along both sides of a branch holds along the branch. -/
theorem holds_branch {holds : List Stmt → Prop} {cond : Expr} {thn els : List Stmt}
    (yes : ∀ path, Executes thn path → holds path) (no : ∀ path, Executes els path → holds path)
    {trace : List Stmt} (run : Executes [.branch cond thn els] trace) : holds trace := by
  cases run with
  | simple plain => cases plain
  | positive inside next =>
    cases next
    rw [List.append_nil]
    exact yes _ inside
  | negative inside next =>
    cases next
    rw [List.append_nil]
    exact no _ inside

mutual

/-- A path through the rest of the code continues one through its head. -/
theorem exists_cons {rest trace : List Stmt} (next : Executes rest trace) (stmt : Stmt) :
    ∃ before, Executes (stmt :: rest) (before ++ trace) := by
  cases stmt with
  | loop => exact ⟨[], .leave next⟩
  | branch cond thn els =>
    obtain ⟨before, inside⟩ := exists_trace thn
    exact ⟨before, .positive inside next⟩
  | scope body =>
    obtain ⟨before, inside⟩ := exists_trace body
    exact ⟨before, .scope inside next⟩
  | _ => exact ⟨[_], .simple rfl next⟩

theorem exists_trace (stmts : List Stmt) : ∃ trace, Executes stmts trace := by
  cases stmts with
  | nil => exact ⟨[], .done⟩
  | cons stmt rest =>
    obtain ⟨trace, next⟩ := exists_trace rest
    obtain ⟨before, run⟩ := exists_cons next stmt
    exact ⟨before ++ trace, run⟩

end

/-- Every simple statement of the code lies on some path. -/
theorem exists_of_mem_leaves {leaf : Stmt} : (stmts : List Stmt) → leaf ∈ leavesOf stmts →
    ∃ trace, Executes stmts trace ∧ leaf ∈ trace
  | stmt :: rest, member => by
    rcases List.mem_append.mp member with here | later
    · obtain ⟨after, next⟩ := exists_trace rest
      cases stmt with
      | loop type iter init cond inc body =>
        obtain ⟨first, inside, found⟩ := exists_of_mem_leaves body here
        exact ⟨first ++ after, .again inside (.leave next), List.mem_append_left _ found⟩
      | branch cond thn els =>
        rcases List.mem_append.mp here with yes | no
        · obtain ⟨first, inside, found⟩ := exists_of_mem_leaves thn yes
          exact ⟨first ++ after, .positive inside next, List.mem_append_left _ found⟩
        · obtain ⟨first, inside, found⟩ := exists_of_mem_leaves els no
          exact ⟨first ++ after, .negative inside next, List.mem_append_left _ found⟩
      | scope body =>
        obtain ⟨first, inside, found⟩ := exists_of_mem_leaves body here
        exact ⟨first ++ after, .scope inside next, List.mem_append_left _ found⟩
      | _ =>
        exact ⟨_ :: after, .simple rfl next, List.mem_append_left _ here⟩
    · obtain ⟨after, next, found⟩ := exists_of_mem_leaves rest later
      obtain ⟨before, path⟩ := exists_cons next stmt
      exact ⟨before ++ after, path, List.mem_append_right _ found⟩

end Executes

end Offload.Code
