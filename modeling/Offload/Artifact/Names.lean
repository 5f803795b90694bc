import Offload.Fault
import Offload.Path

namespace Offload

structure OutputNames where
  host : String
  kernel : String
  header : String
  deriving DecidableEq, Repr, Inhabited

namespace OutputNames

/-- A file name made of a base and a suffix. -/
def withSuffix (base : List Char) (suffix : String) : Except Fault String :=
  match Path.addSuffix? base suffix.toList with
  | some path => .ok (String.ofList path)
  | none => .error (.unnamedOutput (String.ofList base))

/-- The names of a run. With an output path the host code goes there and the other
files beside it; without one all files are named after the input and stand in the
current directory. -/
def derive (input : String) : Option String → Except Fault OutputNames
  | some output => do
    let base := Path.dropExtension output.toList
    return {
      host := output
      kernel := ← withSuffix base "_kernel.cl"
      header := ← withSuffix base "_kernel.h" }
  | none =>
    match Path.stem? input.toList with
    | none => .error (.unnamedOutput input)
    | some base => do
      return {
        host := ← withSuffix base "_host.c"
        kernel := ← withSuffix base "_kernel.cl"
        header := ← withSuffix base "_kernel.h" }

/-- The name under which the host file includes the header, which stands beside it. -/
def headerName (names : OutputNames) : String :=
  String.ofList ((Path.fileName? names.header.toList).getD [])

/-- Where a file is written before it is moved into its place. -/
def stagingPath (path : String) : String := path ++ ".tmp"

def paths (names : OutputNames) : List String := [names.host, names.kernel, names.header]

def stagingPaths (names : OutputNames) : List String := names.paths.map stagingPath

end OutputNames

end Offload
