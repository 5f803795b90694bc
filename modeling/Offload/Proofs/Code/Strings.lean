import Offload.Code.Printer
import Offload.Proofs.Expr.Subterms
import Offload.Proofs.Text.Rows

namespace Offload

open Text (OneRow)

namespace Expr

/-- The names in an expression. -/
def names (e : Expr) : List String :=
  e.subterms.filterMap fun
    | var x => some x
    | _ => none

private theorem mem_names {e : Expr} {x : String} : x ∈ e.names ↔ var x ∈ e.subterms := by
  simp only [names, List.mem_filterMap]
  constructor
  · rintro ⟨s, member, same⟩
    cases s with
    | var y => exact Option.some.inj same ▸ member
    | _ => cases same
  · exact fun member => ⟨var x, member, rfl⟩

private theorem oneRow_nestCalls (fn : Builtin) {texts : List String}
    (oneRow : ∀ text ∈ texts, OneRow text) : OneRow (nestCalls fn.name texts) := by
  have name : OneRow fn.name := by cases fn <;> decide
  cases texts with
  | nil => exact List.not_mem_nil
  | cons first rest =>
    obtain ⟨start, others⟩ := List.forall_mem_cons.mp oneRow
    rw [nestCalls]
    clear oneRow
    induction rest generalizing first with
    | nil => exact start
    | cons next rest ih =>
      obtain ⟨head, tail⟩ := List.forall_mem_cons.mp others
      exact ih _ (by simp +decide [name, start, head]) tail

private theorem oneRow_wrapOperand (op : Operator) (inner : Option Operator) (side : Operator.Side)
    {text : String} (oneRow : OneRow text) : OneRow (op.wrapOperand inner side text) := by
  unfold Operator.wrapOperand
  split
  · exact oneRow
  · split <;> simp +decide [oneRow]

theorem oneRow_text {e : Expr} (named : ∀ x ∈ e.names, OneRow x) : OneRow e.text := by
  simp only [mem_names] at named
  induction e with
  | lit n => exact Text.oneRow_int n
  | var x => exact named x (by simp [subterms])
  | neg arg ih =>
    have inner := ih fun x member => named x (by simp [subterms, member])
    rw [text]
    split <;> simp +decide [inner]
  | bin op lhs rhs left right =>
    have first := left fun x member => named x (by simp [subterms, member])
    have second := right fun x member => named x (by simp [subterms, member])
    have symbol : OneRow op.symbol := by cases op <;> decide
    simp +decide [text, symbol, oneRow_wrapOperand, first, second]
  | call fn args ih =>
    rw [text, texts_eq_map]
    apply oneRow_nestCalls
    rw [List.forall_mem_map]
    intro arg member
    refine ih arg member fun x inside => named x ?_
    simpa [subterms, mem_subtermsOf] using ⟨arg, member, inside⟩
  | select cond thn els ihCond ihThn ihEls =>
    have first := ihCond fun x member => named x (by simp [subterms, member])
    have second := ihThn fun x member => named x (by simp [subterms, member])
    have third := ihEls fun x member => named x (by simp [subterms, member])
    simp +decide [text, first, second, third]

end Expr

namespace Code

def Ty.strings : Ty → List String
  | .elem (.named text) => [text]
  | .named name => [name]
  | .pointer target _ => target.strings
  | _ => []

mutual

/-- The texts and names that stand in a term. -/
def Term.strings : Term → List String
  | .var name => [name]
  | .int _ => []
  | .str text => [text]
  | .symbolic expr => expr.names
  | .addressOf term | .voidPointer term => term.strings
  | .sizeOf type => type.strings
  | .call fn args => fn :: Term.stringsOf args
  | .access target indices => target :: indices.flatMap Expr.names
  | .byteSize extents elem => extents.flatMap Expr.names ++ elem.strings
  | .flags names => names
  | .workItems grid _ => grid.names

def Term.stringsOf : List Term → List String
  | [] => []
  | term :: rest => term.strings ++ Term.stringsOf rest

end

mutual

/-- The texts and names that stand in a statement, other than verbatim text. -/
def Stmt.strings : Stmt → List String
  | .declare type name => type.strings ++ [name]
  | .define type defs => type.strings ++ defs.flatMap fun (name, term) => name :: term.strings
  | .defineArray type name _ elems => type.strings ++ name :: Term.stringsOf elems
  | .assign target value => target.strings ++ value.strings
  | .loop type iter init cond inc body =>
    type.strings ++ iter :: (init.names ++ cond.names ++ inc.names ++ Stmt.stringsOf body)
  | .branch cond thn els => cond.names ++ Stmt.stringsOf thn ++ Stmt.stringsOf els
  | .scope body => Stmt.stringsOf body
  | .check call => call.strings
  | .staging _ elem name _ => elem.strings ++ [name]
  | .verbatim _ | .blank | .barrier => []

def Stmt.stringsOf : List Stmt → List String
  | [] => []
  | stmt :: rest => stmt.strings ++ Stmt.stringsOf rest

end

theorem Stmt.forall_mem_stringsOf {holds : String → Prop} {stmts : List Stmt} :
    (∀ s ∈ Stmt.stringsOf stmts, holds s) ↔ ∀ stmt ∈ stmts, ∀ s ∈ stmt.strings, holds s := by
  induction stmts with
  | nil => simp [Stmt.stringsOf]
  | cons stmt rest ih =>
    simp only [Stmt.stringsOf, List.forall_mem_append, List.forall_mem_cons, ih]

theorem Memory.oneRow_text (memory : Memory) : OneRow memory.text := by
  cases memory <;> decide

theorem Ty.oneRow_text {type : Ty} (strings : ∀ s ∈ type.strings, OneRow s) :
    OneRow type.text := by
  induction type with
  | elem type =>
    cases type with
    | scalar scalar => cases scalar <;> decide
    | named text => exact strings text (by simp [Ty.strings])
  | named name => exact strings name (by simp [Ty.strings])
  | pointer target memory ih =>
    have inner := ih fun s member => strings s (by simpa [Ty.strings] using member)
    simp +decide [Ty.text, memory.oneRow_text, inner]
  | _ => decide

theorem Ty.oneRow_declarator {type : Ty} {name : String}
    (strings : ∀ s ∈ type.strings ++ [name], OneRow s) : OneRow (type.declarator name) := by
  obtain ⟨inType, inName⟩ := List.forall_mem_append.mp strings
  have declared : OneRow name := inName name (by simp)
  have typed := Ty.oneRow_text inType
  unfold Ty.declarator
  split
  · simpa [Ty.text, declared] using typed
  · simp +decide [typed, declared]

mutual

theorem Term.oneRow_text : (term : Term) → (∀ s ∈ term.strings, OneRow s) → OneRow term.text
  | .var name, strings => strings name (by simp [Term.strings])
  | .int value, _ => Text.oneRow_int value
  | .str text, strings => by
    have inner : OneRow text := strings text (by simp [Term.strings])
    simp +decide [Term.text, inner]
  | .symbolic expr, strings => Expr.oneRow_text strings
  | .addressOf term, strings => by simp +decide [Term.text, term.oneRow_text strings]
  | .voidPointer term, strings => by simp +decide [Term.text, term.oneRow_text strings]
  | .sizeOf type, strings => by simp +decide [Term.text, Ty.oneRow_text strings]
  | .call fn args, strings => by
    obtain ⟨name, inner⟩ := List.forall_mem_cons.mp strings
    have between : OneRow (", ".intercalate (Term.texts args)) :=
      .intercalate (by decide) (Term.oneRow_texts args inner)
    simp +decide [Term.text, name, between]
  | .access target indices, strings => by
    obtain ⟨name, inner⟩ := List.forall_mem_cons.mp strings
    rw [List.forall_mem_flatMap] at inner
    refine Text.oneRow_append.mpr ⟨name, .join (List.forall_mem_map.mpr fun i member => ?_)⟩
    simp +decide [Expr.oneRow_text (inner i member)]
  | .byteSize extents elem, strings => by
    obtain ⟨inner, typed⟩ := List.forall_mem_append.mp strings
    rw [List.forall_mem_flatMap] at inner
    have factors : OneRow (String.join (extents.map fun e => "(" ++ e.text ++ ") * ")) := by
      refine .join (List.forall_mem_map.mpr fun e member => ?_)
      simp +decide [Expr.oneRow_text (inner e member)]
    simp +decide [Term.text, factors, Ty.oneRow_text typed]
  | .flags names, strings => OneRow.intercalate (by decide) strings
  | .workItems grid block, strings => by
    simp +decide [Term.text, Expr.oneRow_text strings]

theorem Term.oneRow_texts : (terms : List Term) → (∀ s ∈ Term.stringsOf terms, OneRow s) →
    ∀ text ∈ Term.texts terms, OneRow text
  | [], _ => fun _ member => nomatch member
  | term :: rest, strings => by
    obtain ⟨first, others⟩ := List.forall_mem_append.mp strings
    exact List.forall_mem_cons.mpr ⟨term.oneRow_text first, Term.oneRow_texts rest others⟩

end

end Code

end Offload
