import Offload.Fault

namespace Offload

/-- A file system with states `σ`. A step that is refused may still have changed
the state. -/
structure Volume (σ : Type) where
  /-- Creates a file, or empties it, and writes the text. -/
  store : σ → (path text : String) → σ × Option FileError
  /-- Moves a file, in place of what the target was before. -/
  rename : σ → (source target : String) → σ × Option FileError
  /-- Removes a file; nothing happens if there is none. -/
  remove : σ → (path : String) → σ

inductive Entry where
  | file (text : String)
  | dir
  deriving DecidableEq, Repr, Inhabited

/-- Files and directories by their names, innermost first. The root is a directory
that is always there. -/
structure FileTree where
  entries : List (List String × Entry) := []
  deriving DecidableEq, Repr, Inhabited

namespace FileTree

def find? (tree : FileTree) : List String → Option Entry
  | [] => some .dir
  | place => (tree.entries.find? (·.1 == place)).map (·.2)

def erase (tree : FileTree) (place : List String) : FileTree :=
  ⟨tree.entries.filter (·.1 != place)⟩

def insert (tree : FileTree) (place : List String) (entry : Entry) : FileTree :=
  ⟨(place, entry) :: (tree.erase place).entries⟩

/-- The longest name of an entry and the longest path, in bytes. -/
def nameLimit : Nat := 255
def pathLimit : Nat := 4095

/-- The segments between the slashes of a path. -/
def segmentsOf : List Char → List (List Char)
  | [] => [[]]
  | '/' :: rest => [] :: segmentsOf rest
  | c :: rest =>
    match segmentsOf rest with
    | [] => [[c]]
    | segment :: others => (c :: segment) :: others

/-- A path as the system takes it: the segments that lead to a directory, the
last segment, and whether a slash follows it. -/
structure Address where
  route : List String
  last : String
  slash : Bool
  deriving DecidableEq, Repr

def Address.ofPath (path : String) : Except FileError Address :=
  let segments := ((segmentsOf path.toList).map String.ofList).reverse
  if path.toList.contains '\x00' then .error .nulByte
  else if path.utf8ByteSize > pathLimit then .error .nameTooLong
  else if path.isEmpty then .error .notFound
  else match segments.dropWhile (·.isEmpty) with
    | [] => .ok ⟨[], "", true⟩
    | last :: before => .ok ⟨before.reverse, last, segments.head? == some ""⟩

/-- Follows segments from a directory to the directory they lead to. -/
def walk (tree : FileTree) (place : List String) : List String → Except FileError (List String)
  | [] => .ok place
  | segment :: rest =>
    if segment = "" ∨ segment = "." then walk tree place rest
    else if segment = ".." then walk tree place.tail rest
    else if segment.utf8ByteSize > nameLimit then .error .nameTooLong
    else match tree.find? (segment :: place) with
      | none => .error .notFound
      | some (.file _) => .error .notDirectory
      | some .dir => walk tree (segment :: place) rest

/-- Whether the last segment stands for a directory that is already there. -/
def Address.isDots (address : Address) : Bool :=
  address.last = "" || address.last = "." || address.last = ".."

def store (tree : FileTree) (path text : String) : Except FileError FileTree := do
  let address ← Address.ofPath path
  let place ← tree.walk [] address.route
  if address.isDots || address.slash then throw .isDirectory
  if address.last.utf8ByteSize > nameLimit then throw .nameTooLong
  if tree.find? (address.last :: place) = some .dir then throw .isDirectory
  return tree.insert (address.last :: place) (.file text)

/-- Moves a regular file. -/
def rename (tree : FileTree) (source target : String) : Except FileError FileTree := do
  let sourceAddress ← Address.ofPath source
  let targetAddress ← Address.ofPath target
  let sourceDir ← tree.walk [] sourceAddress.route
  let targetDir ← tree.walk [] targetAddress.route
  if sourceAddress.isDots || targetAddress.isDots then throw .busy
  if sourceAddress.last.utf8ByteSize > nameLimit then throw .nameTooLong
  let sourcePlace := sourceAddress.last :: sourceDir
  match tree.find? sourcePlace with
  | none => throw .notFound
  | some .dir => throw .isDirectory
  | some (.file text) =>
    if targetAddress.last.utf8ByteSize > nameLimit then throw .nameTooLong
    if sourceAddress.slash || targetAddress.slash then throw .notDirectory
    let targetPlace := targetAddress.last :: targetDir
    if tree.find? targetPlace = some .dir then throw .isDirectory
    return (tree.erase sourcePlace).insert targetPlace (.file text)

/-- Removes a regular file, if the path leads to one. -/
def remove (tree : FileTree) (path : String) : FileTree :=
  match Address.ofPath path with
  | .error _ => tree
  | .ok address =>
    match tree.walk [] address.route with
    | .error _ => tree
    | .ok place =>
      match tree.find? (address.last :: place) with
      | some (.file _) => if address.slash then tree else tree.erase (address.last :: place)
      | _ => tree

/-- The names of a path, innermost first, with `..` worked out. -/
def placeOf (path : String) : List String :=
  ((segmentsOf path.toList).map String.ofList).foldl
    (fun place segment =>
      if segment = "" ∨ segment = "." then place
      else if segment = ".." then place.tail
      else segment :: place)
    []

def text? (tree : FileTree) (path : String) : Option String :=
  match tree.find? (placeOf path) with
  | some (.file text) => some text
  | _ => none

/-- Makes a directory and those it stands in. -/
def makeDirs (tree : FileTree) (path : String) : FileTree :=
  let rec make : List String → FileTree
    | [] => tree
    | name :: parents =>
      let tree := make parents
      if (tree.find? (name :: parents)).isSome then tree else tree.insert (name :: parents) .dir
  make (placeOf path)

/-- Removes an entry with everything below it. -/
def removeAll (tree : FileTree) (path : String) : FileTree :=
  ⟨tree.entries.filter fun (place, _) => !(placeOf path).isSuffixOf place⟩

/-- A step on a tree that stays as it was if the step is refused. -/
def attempt (tree : FileTree) : Except FileError FileTree → FileTree × Option FileError
  | .ok changed => (changed, none)
  | .error cause => (tree, some cause)

/-- A file tree as a volume; a refused step changes nothing. -/
def volume : Volume FileTree where
  store tree path text := attempt tree (tree.store path text)
  rename tree source target := attempt tree (tree.rename source target)
  remove tree path := tree.remove path

end FileTree

end Offload
