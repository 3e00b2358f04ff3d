import CoreForge.Text.Ascii
import CoreForge.Document.Format
/-!
# Paths

A path is a text. Its pieces between slashes name the way to a file; a piece that is
empty or a single dot leads nowhere, except that a dot at the start tells two paths
apart.
-/

namespace CoreForge.Path

/-- The pieces of a path between its slashes. -/
def pieces (path : String) : List String := (Text.pieces '/' path.toList).map String.ofList

/-- The path starts at the root. -/
def isAbsolute (path : String) : Bool := path.toList.head? = some '/'

/-- A file can have such a name: it has at most 255 bytes. -/
def isName (piece : String) : Bool := piece.utf8ByteSize ≤ 255

/-- A path can be followed at all: it has less than 4096 bytes, and none of them is zero. -/
def isFollowable (path : String) : Bool := path.utf8ByteSize < 4096 && !path.toList.contains '\x00'

/-- A step of a path. -/
inductive Step
  | root
  | here
  | up
  | name (s : String)
deriving DecidableEq, Repr

/-- The step that a piece makes, unless it leads nowhere. -/
def Step.ofPiece? (piece : String) : Option Step :=
  if piece = "" ∨ piece = "." then none
  else if piece = ".." then some .up
  else some (.name piece)

/-- The steps of a path. Paths are the same when their steps are. -/
def steps (path : String) : List Step :=
  match pieces path with
  | [] => []
  | first :: rest =>
    let start : Option Step :=
      if isAbsolute path then some .root
      else if first = "." then some .here
      else Step.ofPiece? first
    start.toList ++ rest.filterMap Step.ofPiece?

/-- The name of the file that the path leads to. -/
def fileName? (path : String) : Option String :=
  match (steps path).getLast? with
  | some (.name s) => some s
  | _ => none

/-- What follows the last dot of the file name; none when there is no dot but at the
start. -/
def extension? (path : String) : Option String := do
  let name ← fileName? path
  let cs := name.toList.reverse
  match cs.dropWhile (· ≠ '.') with
  | _ :: _ :: _ => some (String.ofList (cs.takeWhile (· ≠ '.')).reverse)
  | _ => none

/-- The pieces of a path, from the last to the first, from the last one that leads
somewhere. The first piece of the path stays. -/
def dropIdle : List String → List String
  | p :: q :: rest => if p = "" ∨ p = "." then dropIdle (q :: rest) else p :: q :: rest
  | ps => ps

/-- The directory that a path leads into. A path without any step has none; the current
directory stands in for it. -/
def parent (path : String) : String :=
  match dropIdle (pieces path).reverse with
  | [] | [""] => "."
  | _ :: rest =>
    match dropIdle rest with
    | [""] => "/"
    | ps => "/".intercalate ps.reverse

/-- A path behind a directory. -/
def join (directory path : String) : String :=
  if directory = "" ∨ directory.toList.getLast? = some '/' then directory ++ path else directory ++ "/" ++ path

/-- A reference in a document, seen from the directory of the document. -/
def resolve (directory reference : String) : String :=
  if isAbsolute reference then reference else join directory reference

/-- The format of the document at a path, by its extension. -/
def format (path : String) : Format :=
  match extension? path with
  | some e => if Text.sameIgnoringCase e "json" then .json else .yaml
  | none => .yaml

end CoreForge.Path
