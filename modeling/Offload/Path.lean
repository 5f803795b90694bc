/-! Path names, read as text. A path names a file by its last segment; empty
segments and segments `.` are passed over, and slashes at the end do not count.
The functions here work from the end of a path, so several of them take the
characters in reverse. -/

namespace Offload.Path

/-- Drops what names nothing at the end of a reversed path: slashes other than
the root, and segments `.` that follow a slash. -/
def trimRev : List Char → List Char
  | '/' :: rest => if rest.isEmpty then ['/'] else trimRev rest
  | '.' :: '/' :: rest => trimRev ('/' :: rest)
  | path => path

/-- A path up to its last segment, reversed, and that segment. -/
def splitLast (path : List Char) : List Char × List Char :=
  let trimmed := trimRev path.reverse
  (trimmed.dropWhile (· ≠ '/'), (trimmed.takeWhile (· ≠ '/')).reverse)

/-- Whether a segment can be the name of a file. -/
def isName (segment : List Char) : Bool :=
  segment != [] && segment != ['.'] && segment != ['.', '.']

/-- The last segment, if it is a name. -/
def fileName? (path : List Char) : Option (List Char) :=
  let name := (splitLast path).2
  if isName name then some name else none

/-- Divides a name at its last point into stem and extension. A name whose only
point comes first is all stem. -/
def splitName (name : List Char) : List Char × Option (List Char) :=
  match name.reverse.dropWhile (· ≠ '.') with
  | _ :: c :: before => ((c :: before).reverse, some (name.reverse.takeWhile (· ≠ '.')).reverse)
  | _ => (name, none)

def stem? (path : List Char) : Option (List Char) :=
  (fileName? path).map (splitName · |>.1)

def extension? (path : List Char) : Option (List Char) :=
  (fileName? path).bind (splitName · |>.2)

/-- Cuts a path right after the stem of its name. -/
def cutAfterStem (path : List Char) : List Char :=
  match stem? path with
  | none => path
  | some stem => (splitLast path).1.reverse ++ stem

/-- Takes the extension off: as many characters as it has off the end of the
path, and then whatever still follows the stem. -/
def dropExtension (path : List Char) : List Char :=
  match extension? path with
  | none => cutAfterStem path
  | some extension => cutAfterStem (path.take (path.length - extension.length))

/-- Puts a name behind a directory, given in reverse. -/
def enter (dirRev name : List Char) : List Char :=
  match dirRev with
  | [] => name
  | '/' :: _ => dirRev.reverse ++ name
  | _ => dirRev.reverse ++ '/' :: name

/-- The directory of a path, reversed. -/
def directoryRev (path : List Char) : List Char := trimRev (splitLast path).1

/-- The same path with a suffix at its name, if it has a name. -/
def addSuffix? (path suffix : List Char) : Option (List Char) :=
  (fileName? path).map fun name => enter (directoryRev path) (name ++ suffix)

end Offload.Path
