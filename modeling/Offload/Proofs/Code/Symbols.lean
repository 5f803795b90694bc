import Offload.Proofs.Code.Execution
import Offload.Proofs.Expr.Calls
import Offload.Proofs.Generation

namespace Offload

open Offload.Expr (CalledIn calledIn_append calledIn_singleton)

namespace Code

mutual

/-- The symbolic expressions of a term. -/
def Term.symbols : Term → List Expr
  | .symbolic e => [e]
  | .addressOf term | .voidPointer term => term.symbols
  | .call _ args => Term.symbolsOf args
  | .access _ indices => indices
  | .byteSize extents _ => extents
  | .workItems grid _ => [grid]
  | .var _ | .int _ | .str _ | .sizeOf _ | .flags _ => []

def Term.symbolsOf : List Term → List Expr
  | [] => []
  | term :: rest => term.symbols ++ Term.symbolsOf rest

end

mutual

/-- The names of the functions that a term calls. -/
def Term.callees : Term → List String
  | .call fn args => fn :: Term.calleesOf args
  | .addressOf term | .voidPointer term => term.callees
  | .var _ | .int _ | .str _ | .symbolic _ | .sizeOf _ | .access .. | .byteSize .. | .flags _
  | .workItems .. => []

def Term.calleesOf : List Term → List String
  | [] => []
  | term :: rest => term.callees ++ Term.calleesOf rest

end

/-- The terms of a simple statement. -/
def Stmt.terms : Stmt → List Term
  | .define _ defs => defs.map Prod.snd
  | .defineArray _ _ _ elems => elems
  | .assign target value => [target, value]
  | .check call => [call]
  | _ => []

mutual

/-- The symbolic expressions of a statement: those that steer loops and branches, and
those inside of terms. -/
def Stmt.symbols : Stmt → List Expr
  | .loop _ _ init cond inc body => [init, cond, inc] ++ symbolsOf body
  | .branch cond thn els => cond :: (symbolsOf thn ++ symbolsOf els)
  | .scope body => symbolsOf body
  | stmt => Term.symbolsOf stmt.terms

def symbolsOf : List Stmt → List Expr
  | [] => []
  | stmt :: rest => stmt.symbols ++ symbolsOf rest

end

/-- The names of the functions that code calls. -/
def calleesOf (stmts : List Stmt) : List String :=
  (leavesOf stmts).flatMap fun stmt => Term.calleesOf stmt.terms

/-- How often a simple statement calls the function. -/
def Stmt.callCount (fn : String) (stmt : Stmt) : Nat := (Term.calleesOf stmt.terms).count fn

/-- The variable that the term stands for, or an element of it. -/
def Term.root? : Term → Option String
  | .var name | .access name _ => some name
  | _ => none

/-- The names that a simple statement declares. -/
def Stmt.declared : Stmt → List String
  | .declare _ name | .defineArray _ name _ _ | .staging _ _ name _ => [name]
  | .define _ defs => defs.map Prod.fst
  | _ => []

/-- The variable that the statement assigns to. -/
def Stmt.assigned? : Stmt → Option String
  | .assign target _ => target.root?
  | _ => none

theorem Term.symbolsOf_eq_flatMap (terms : List Term) :
    Term.symbolsOf terms = terms.flatMap Term.symbols := by
  induction terms with
  | nil => rfl
  | cons term rest ih => rw [Term.symbolsOf, ih, List.flatMap_cons]

theorem Term.calleesOf_eq_flatMap (terms : List Term) :
    Term.calleesOf terms = terms.flatMap Term.callees := by
  induction terms with
  | nil => rfl
  | cons term rest ih => rw [Term.calleesOf, ih, List.flatMap_cons]

theorem symbolsOf_append (first second : List Stmt) :
    symbolsOf (first ++ second) = symbolsOf first ++ symbolsOf second := by
  induction first with
  | nil => rfl
  | cons stmt rest ih => simp [symbolsOf, ih]

theorem symbolsOf_map {α : Type} (emit : α → Stmt) (xs : List α) :
    symbolsOf (xs.map emit) = xs.flatMap fun x => (emit x).symbols := by
  induction xs with
  | nil => rfl
  | cons x rest ih => simp [symbolsOf, ih]

theorem symbolsOf_of_isSimple {stmts : List Stmt} (plain : stmts.all Stmt.isSimple = true) :
    symbolsOf stmts = stmts.flatMap fun stmt => Term.symbolsOf stmt.terms := by
  induction stmts with
  | nil => rfl
  | cons stmt rest ih =>
    obtain ⟨head, tail⟩ : stmt.isSimple = true ∧ rest.all Stmt.isSimple = true := by
      simpa using plain
    have here : stmt.symbols = Term.symbolsOf stmt.terms := by
      cases stmt with
      | loop | branch | scope => cases head
      | _ => rfl
    rw [symbolsOf, here, ih tail, List.flatMap_cons]

theorem calleesOf_append (first second : List Stmt) :
    calleesOf (first ++ second) = calleesOf first ++ calleesOf second := by
  rw [calleesOf, leavesOf_append, List.flatMap_append]
  rfl

theorem calleesOf_map {α : Type} (emit : α → Stmt) (xs : List α) :
    calleesOf (xs.map emit) = xs.flatMap fun x => calleesOf [emit x] := by
  induction xs with
  | nil => rfl
  | cons x rest ih => rw [List.map_cons, ← List.singleton_append, calleesOf_append, ih,
      List.flatMap_cons]

/-- The name of the macro that the text for the preprocessor defines. -/
def definedName? (line : String) : Option String :=
  match line.toList with
  | '#' :: rest =>
    let directive := rest.dropWhile Char.isWhitespace
    if "define".toList.isPrefixOf directive then
      let rest := (directive.drop 6).dropWhile Char.isWhitespace
      some (.ofList (rest.takeWhile fun c => c.isAlphanum || c == '_'))
    else none
  | _ => none

/-- Whether the item defines a macro of the name of the helper. -/
def Item.introduces (fn : Builtin) : Item → Bool
  | .define line => definedName? line == some fn.name
  | _ => false

/-- The helper is called in the code of the item, in a symbolic expression or by name. -/
def Item.Calls (fn : Builtin) (item : Item) : Prop :=
  CalledIn fn (symbolsOf item.body) ∨ fn.name ∈ calleesOf item.body

theorem Item.not_calls_of_body {fn : Builtin} {item : Item} (empty : item.body = []) :
    ¬ item.Calls fn := by
  rw [Item.Calls, empty]
  rintro (⟨e, member, _⟩ | called)
  · cases member
  · cases called

end Code

mutual

/-- The symbolic expressions of a tree. The body of a launched kernel is a tree of its
own, and only the grid of the launch belongs to this one. -/
def Node.symbols : Node → List Expr
  | .loop _ init cond inc body => [init, cond, inc] ++ Node.symbolsOf body
  | .branch cond thn els => cond :: (Node.symbolsOf thn ++ Node.symbolsOf els)
  | .block body => Node.symbolsOf body
  | .copy c => c.localIndex ++ c.globalIndex
  | .launch kernel _ => kernel.gridSize
  | .statement .. | .sync => []

def Node.symbolsOf : List Node → List Expr
  | [] => []
  | node :: rest => node.symbols ++ Node.symbolsOf rest

end

mutual

/-- The search for a call in a tree finds the calls in its expressions. -/
theorem Node.calls_iff_calledIn {fn : Builtin} : (node : Node) →
    (node.calls fn = true ↔ CalledIn fn node.symbols)
  | .loop _ init cond inc body => by
    rw [Node.calls, Node.symbols, Bool.or_eq_true, calledIn_append, Expr.anyCalls_iff_calledIn,
      Node.anyCalls_iff_calledIn body]
  | .branch cond thn els => by
    rw [Node.calls, Node.symbols, Bool.or_eq_true, Bool.or_eq_true, ← List.singleton_append,
      calledIn_append, calledIn_append, calledIn_singleton, Node.anyCalls_iff_calledIn thn,
      Node.anyCalls_iff_calledIn els, or_assoc]
  | .block body => Node.anyCalls_iff_calledIn body
  | .copy _ => Expr.anyCalls_iff_calledIn
  | .launch .. => Expr.anyCalls_iff_calledIn
  | .statement .. | .sync => by simp [Node.calls, Node.symbols, CalledIn]

theorem Node.anyCalls_iff_calledIn {fn : Builtin} : (nodes : List Node) →
    (Node.anyCalls fn nodes = true ↔ CalledIn fn (Node.symbolsOf nodes))
  | [] => by simp [Node.anyCalls, Node.symbolsOf, CalledIn]
  | node :: rest => by
    rw [Node.anyCalls, Node.symbolsOf, Bool.or_eq_true, calledIn_append,
      Node.calls_iff_calledIn node, Node.anyCalls_iff_calledIn rest]

end

end Offload
