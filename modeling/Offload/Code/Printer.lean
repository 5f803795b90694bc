import Offload.Code.Basic
import Offload.Code.Layout
import Offload.Expr.Printer

/-! The text of generated code. Terms and types have one text wherever they
stand; statements are printed against the current layout, which a nested body
changes and gives back. -/

namespace Offload.Code

/-- The qualifier in front of a type, with the space that follows it. -/
def Memory.text : Memory → String
  | host => ""
  | global => "__global "
  | group => "__local "
  | item => "__private "

namespace Ty

def text : Ty → String
  | void => "void"
  | int => "int"
  | sizeT => "size_t"
  | elem type => type.text
  | named name => name
  | pointer target memory => memory.text ++ target.text ++ " *"
  | clMem => "cl_mem"
  | clKernel => "cl_kernel"
  | clInt => "cl_int"
  | clDevice => "cl_device_id"
  | clContext => "cl_context"
  | clProgram => "cl_program"
  | clQueue => "cl_command_queue"

/-- The declaration of a name; the star of a pointer stands next to the name. -/
def declarator : Ty → String → String
  | pointer target memory, name => memory.text ++ target.text ++ " *" ++ name
  | type, name => type.text ++ " " ++ name

end Ty

def Param.text (param : Param) : String := param.type.declarator param.name

namespace Term

mutual

def text : Term → String
  | var name => name
  | int value => toString value
  | str text => "\"" ++ text ++ "\""
  | symbolic expr => expr.text
  | addressOf term => "&" ++ term.text
  | voidPointer term => "(void *) " ++ term.text
  | sizeOf type => "sizeof(" ++ type.text ++ ")"
  | call fn args => fn ++ "(" ++ ", ".intercalate (texts args) ++ ")"
  | access target indices => target ++ String.join (indices.map fun i => "[" ++ i.text ++ "]")
  | byteSize extents elem =>
    String.join (extents.map fun e => "(" ++ e.text ++ ") * ") ++ "sizeof(" ++ elem.text ++ ")"
  | flags names => " | ".intercalate names
  | workItems grid block => "(" ++ grid.text ++ ") * " ++ toString block

def texts : List Term → List String
  | [] => []
  | term :: rest => term.text :: texts rest

end

end Term

/-- Prints against the current layout and hands on the layout for what follows. -/
abbrev Printer (α : Type) := Layout → α × Layout

/-- Prints a body between braces, one level deeper than its surroundings. The
closing brace stands at the margin. -/
def braced (margin : String) (isEmpty : Bool) (body : Printer (List String)) : Printer String :=
  fun layout =>
    if isEmpty then ("\x7b\n" ++ margin ++ "\x7d", layout)
    else
      let inner := body layout.deeper
      ("\x7b\n" ++ "\n".intercalate inner.1 ++ "\n" ++ margin ++ "\x7d", inner.2.shallower)

namespace Stmt

mutual

def print : Stmt → Printer String
  | declare type name, layout => (layout.margin ++ type.declarator name ++ ";", layout)
  | define type defs, layout =>
    (layout.margin ++ type.text ++ " " ++
      ", ".intercalate (defs.map fun (name, term) => name ++ " = " ++ term.text) ++ ";", layout)
  | defineArray type name length elems, layout =>
    (layout.margin ++ type.text ++ " " ++ name ++ "[" ++ toString length ++ "] = \x7b" ++
      ", ".intercalate (Term.texts elems) ++ "\x7d;", layout)
  | assign target value, layout =>
    (layout.margin ++ target.text ++ " = " ++ value.text ++ ";", layout)
  | loop type iter init cond inc body, layout =>
    let inner := braced layout.margin body.isEmpty (printAll body) layout
    (layout.margin ++ "for (" ++ type.text ++ " " ++ iter ++ " = " ++ init.text ++ "; " ++
      cond.text ++ "; " ++ iter ++ " += " ++ inc.text ++ ") " ++ inner.1, inner.2)
  | branch cond thn els, layout =>
    let first := braced layout.margin thn.isEmpty (printAll thn) layout
    let text := layout.margin ++ "if (" ++ cond.text ++ ") " ++ first.1
    if els.isEmpty then (text, first.2)
    else
      let second := braced layout.margin els.isEmpty (printAll els) first.2
      (text ++ " else " ++ second.1, second.2)
  | scope body, layout =>
    let inner := braced layout.margin body.isEmpty (printAll body) layout
    (layout.margin ++ inner.1, inner.2)
  | verbatim text, layout =>
    ("\n".intercalate ((Text.lines text).map (layout.margin ++ ·)), layout)
  | blank, layout => ("", layout)
  | check call, layout => (layout.margin ++ "openclCheckReturn(" ++ call.text ++ ");", layout)
  | staging memory elem name dims, layout =>
    (layout.margin ++ memory.text ++ elem.text ++ " " ++ name ++
      String.join (dims.map fun d => "[" ++ toString d ++ "]") ++ ";", layout)
  | barrier, layout =>
    (layout.margin ++ "barrier(CLK_LOCAL_MEM_FENCE | CLK_GLOBAL_MEM_FENCE);", layout)

def printAll : List Stmt → Printer (List String)
  | [], layout => ([], layout)
  | stmt :: rest, layout =>
    let first := stmt.print layout
    let others := printAll rest first.2
    (first.1 :: others.1, others.2)

end

/-- Prints statements one below the other. -/
def printLines (stmts : List Stmt) : Printer String := fun layout =>
  let lines := printAll stmts layout
  ("\n".intercalate lines.1, lines.2)

end Stmt

/-- The head of a function, up to the closing parenthesis of its parameters. -/
def signature (returns : Ty) (name : String) (params : List Param) : String :=
  returns.declarator name ++ "(" ++ ", ".intercalate (params.map Param.text) ++ ")"

namespace Item

def print : Item → Printer String
  | includeFile header, layout => ("#include " ++ header, layout)
  | platformInclude apple other, layout =>
    ("#if defined(__APPLE__)\n#include " ++ apple ++ "\n#else\n#include " ++ other ++
      "\n#endif", layout)
  | define line, layout => (line, layout)
  | pragma text, layout => ("#pragma " ++ text, layout)
  | typeDef definition, layout => (definition ++ ";", layout)
  | declareFn returns name params, layout => (signature returns name params ++ ";", layout)
  | defineFn isKernel returns name params body, layout =>
    let inner := braced "" body.isEmpty (Stmt.printAll body) layout
    ((if isKernel then "__kernel " else "") ++ signature returns name params ++ "\n" ++ inner.1,
      inner.2)
  | scope body, layout => braced "" body.isEmpty (Stmt.printAll body) layout
  | blank, layout => ("", layout)

def printAll : List Item → Printer (List String)
  | [], layout => ([], layout)
  | item :: rest, layout =>
    let first := item.print layout
    let others := printAll rest first.2
    (first.1 :: others.1, others.2)

end Item

namespace File

/-- Prints the items of a file, each on lines of its own. -/
def print (file : File) : Printer String := fun layout =>
  let lines := Item.printAll file layout
  ("\n".intercalate lines.1, lines.2)

/-- The text of a file, which ends with a line feed. -/
def render (file : File) (step : Nat) : String := (print file { step }).1 ++ "\n"

end File

end Offload.Code
