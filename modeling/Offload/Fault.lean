import Offload.Region.Basic

/-! Why generation fails. A fault is a cause; its wording, the place it names
and the kind of error it counts as are functions of the cause. -/

namespace Offload

/-- The part of the model that an error is about. -/
inductive Origin where
  | program
  | array (name : String)
  | kernel (id : Nat)
  | stagingVar (kernel : Nat) (name : String)
  deriving DecidableEq, Repr, Inhabited

namespace Origin

def text : Origin → String
  | program => "program"
  | array name => "array " ++ name
  | kernel id => "kernel " ++ toString id
  | stagingVar id name => "staging variable " ++ name ++ " of kernel " ++ toString id

/-- Puts the place in front of a message, unless it is the program as a whole. -/
def locate : Origin → String → String
  | program, message => message
  | origin, message => "in " ++ origin.text ++ ": " ++ message

end Origin

inductive ErrorKind where
  /-- The surroundings of a run do not allow it. -/
  | setup
  /-- The program model contradicts itself. -/
  | model
  deriving DecidableEq, Repr, Inhabited

/-- An error as it is shown to the user. -/
def ErrorKind.display : ErrorKind → (message : String) → String
  | setup, message => "OpenCL codegen setup error: " ++ message
  | model, message => "Inconsistent program model: " ++ message

/-- Why the file system refuses an operation. -/
inductive FileError where
  | notFound | busy | notDirectory | isDirectory | nameTooLong | nulByte
  deriving DecidableEq, Repr, Inhabited

def FileError.text : FileError → String
  | notFound => "No such file or directory (os error 2)"
  | busy => "Device or resource busy (os error 16)"
  | notDirectory => "Not a directory (os error 20)"
  | isDirectory => "Is a directory (os error 21)"
  | nameTooLong => "File name too long (os error 36)"
  | nulByte => "file name contained an unexpected NUL byte"

inductive Fault where
  | unknownSpace (kernel : Nat) (space : Space)
  | unknownBackingArray (kernel : Nat) (var array : String)
  | openExtent (kernel : Nat) (var : String) (extent : Expr)
  | undeclaredVar (kernel : Nat) (var : String)
  | unknownArray (kernel : Nat) (array : String)
  | localRank (kernel : Nat) (var : String) (used declared : Nat)
  | globalRank (array : String) (used declared : Nat)
  | nestedLaunch (outer inner : Nat)
  | copyOutsideKernel (var : String)
  | barrierOutsideKernel
  | unnamedOutput (path : String)
  | cannotWrite (path : String) (cause : FileError)
  | cannotCreate (path : String) (cause : FileError)
  deriving DecidableEq, Inhabited

namespace Fault

def kind : Fault → ErrorKind
  | unnamedOutput _ | cannotWrite .. | cannotCreate .. => .setup
  | _ => .model

def origin : Fault → Origin
  | unknownSpace kernel _ | undeclaredVar kernel _ | unknownArray kernel _
  | nestedLaunch kernel _ => .kernel kernel
  | unknownBackingArray kernel var _ | openExtent kernel var _
  | localRank kernel var _ _ => .stagingVar kernel var
  | globalRank array _ _ => .array array
  | copyOutsideKernel _ | barrierOutsideKernel | unnamedOutput _ | cannotWrite ..
  | cannotCreate .. => .program

/-- A copy with another number of indices than its operand has dimensions. -/
def rankText (used declared : Nat) (what : String) : String :=
  "copy uses " ++ toString used ++ " indices for a " ++ toString declared ++ "-dimensional " ++ what

def detail : Fault → String
  | unknownSpace _ space => "footprint refers to unknown space " ++ space.text
  | unknownBackingArray _ _ array => "unknown backing array " ++ array
  | openExtent _ _ extent => "extent " ++ extent.text ++ " is not a literal"
  | undeclaredVar _ var => "copy refers to undeclared staging variable " ++ var
  | unknownArray _ array => "copy refers to unknown array " ++ array
  | localRank _ _ used declared => rankText used declared "variable"
  | globalRank _ used declared => rankText used declared "array"
  | nestedLaunch _ inner => "kernel body launches kernel " ++ toString inner
  | copyOutsideKernel var => "copy of staging variable " ++ var ++ " outside of a kernel"
  | barrierOutsideKernel => "barrier outside of a kernel"
  | unnamedOutput path => "cannot derive output names from " ++ path
  | cannotWrite path cause => "cannot write " ++ path ++ ": " ++ cause.text
  | cannotCreate path cause => "cannot create " ++ path ++ ": " ++ cause.text

def message (fault : Fault) : String := fault.origin.locate fault.detail

/-- Two steps that can fail succeed together if both do. -/
theorem bind_eq_ok {ε α β : Type} {x : Except ε α} {next : α → Except ε β} {b : β} :
    x >>= next = .ok b ↔ ∃ a, x = .ok a ∧ next a = .ok b := by
  cases x with
  | ok a => simp [bind, Except.bind]
  | error cause => simp [bind, Except.bind]

end Fault

end Offload
