import Offload.Text

namespace Offload

inductive Scalar where
  | int8 | int16 | int32 | int64
  | uint8 | uint16 | uint32 | uint64
  | float32 | float64
  deriving DecidableEq, Repr, Inhabited

namespace Scalar

def all : List Scalar :=
  [.int8, .int16, .int32, .int64, .uint8, .uint16, .uint32, .uint64, .float32, .float64]

/-- The words that spell the type in C. -/
def spelling : Scalar → List String
  | .int8 => ["char"]
  | .int16 => ["short"]
  | .int32 => ["int"]
  | .int64 => ["long"]
  | .uint8 => ["unsigned", "char"]
  | .uint16 => ["unsigned", "short"]
  | .uint32 => ["unsigned", "int"]
  | .uint64 => ["unsigned", "long"]
  | .float32 => ["float"]
  | .float64 => ["double"]

/-- The scalar type spelled by the words; `unsigned` alone means `unsigned int`. -/
def ofWords? (words : List String) : Option Scalar :=
  if words = ["unsigned"] then some .uint32 else all.find? (·.spelling = words)

end Scalar

inductive ElemType where
  | scalar (type : Scalar)
  | named (text : String)
  deriving DecidableEq, Repr, Inhabited

namespace ElemType

/-- Reads a type from its words; a type that is no scalar keeps them, one space apart. -/
def ofText (text : String) : ElemType :=
  match Scalar.ofWords? (Text.words text) with
  | some type => .scalar type
  | none => .named (" ".intercalate (Text.words text))

def text : ElemType → String
  | .scalar type => " ".intercalate type.spelling
  | .named text => text

def isDouble (type : ElemType) : Bool := type = .scalar .float64

end ElemType

end Offload
