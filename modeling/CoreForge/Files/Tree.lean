import CoreForge.Failure
import CoreForge.Files.Path
/-!
# Files

A tree of directories with files in them, and a working directory that relative
paths start from. A path is followed piece by piece, and every piece but the last
has to lead to a directory.
-/

namespace CoreForge

/-- What stands at a place in the tree. -/
inductive FileNode
  | directory
  | file (bytes : ByteArray)

/-- A tree of files. -/
structure Files where
  /-- The names from the root to the working directory. -/
  here : List String
  /-- What stands at the places below the root, each given by the names on the way. -/
  nodes : List (List String × FileNode)

namespace Files

/-- An empty working directory. -/
def empty : Files := ⟨["work"], [(["work"], .directory)]⟩

/-- What stands at a place. -/
def node? (files : Files) (place : List String) : Option FileNode :=
  if place = [] then some .directory else (files.nodes.find? (·.1 = place)).map (·.2)

/-- The files with something put at a place. -/
def set (files : Files) (place : List String) (node : FileNode) : Files :=
  { files with nodes := (place, node) :: files.nodes.filter (·.1 ≠ place) }

/-- Why a path leads nowhere. -/
inductive Obstacle
  /-- Nothing stands there. -/
  | missing
  /-- A file stands where a directory should. -/
  | notDirectory
  /-- No file can have such a name or such a path. -/
  | unusable
deriving DecidableEq, Repr

/-- Follows the pieces of a path from a place on. -/
def follow (files : Files) (place : List String) : List String → Except Obstacle (List String)
  | [] => .ok place
  | p :: ps =>
    match files.node? place with
    | none => .error .missing
    | some (.file _) => .error .notDirectory
    | some .directory =>
      if ¬ Path.isName p then .error .unusable
      else if p = "" ∨ p = "." then files.follow place ps
      else if p = ".." then files.follow place.dropLast ps
      else files.follow (place ++ [p]) ps

/-- The place that a path starts from. -/
def origin (files : Files) (path : String) : List String := if Path.isAbsolute path then [] else files.here

/-- Follows some pieces of a path from where the path starts. -/
def reach (files : Files) (path : String) (pieces : List String) : Except Obstacle (List String) :=
  if Path.isFollowable path then files.follow (files.origin path) pieces else .error .unusable

/-- What a path leads to. -/
def find (files : Files) (path : String) : Except Obstacle FileNode :=
  if path = "" then .error .missing
  else do
    let place ← files.reach path (Path.pieces path)
    match files.node? place with
    | some node => .ok node
    | none => .error .missing

/-- A path leads to a file. -/
def isFile (files : Files) (path : String) : Bool :=
  match files.find path with
  | .ok (.file _) => true
  | _ => false

/-- The failure that an obstacle on a path is. -/
def Obstacle.failure (path : String) : Obstacle → Failure
  | .missing => .missingFile path
  | .notDirectory | .unusable => .io path

/-- Reads a text file. -/
def read (files : Files) (path : String) : Except Failure String :=
  match files.find path with
  | .error o => .error (o.failure path)
  | .ok .directory => .error (.io path)
  | .ok (.file bytes) =>
    match String.fromUTF8? bytes with
    | some text => .ok text
    | none => .error (.io path)

/-- Writes a file into a directory that exists, over a file that may be there. -/
def write (files : Files) (path : String) (bytes : ByteArray) : Except Failure Files :=
  match (Path.pieces path).reverse with
  | [] | [""] => .error (.missingFile path)
  | last :: before =>
    match files.reach path (before.reverse ++ [""]) with
    | .error o => .error (o.failure path)
    | .ok place =>
      if last = "" ∨ last = "." ∨ last = ".." ∨ ¬ Path.isName last then .error (.io path)
      else
        match files.node? (place ++ [last]) with
        | some .directory => .error (.io path)
        | _ => .ok (files.set (place ++ [last]) (.file bytes))

/-- Puts something at a place, in directories that are made where there are none. -/
def put (files : Files) (place : List String) (node : FileNode) : Files :=
  let withParents := (List.range place.length).foldl
    (fun files n =>
      match files.node? (place.take n) with
      | some _ => files
      | none => files.set (place.take n) .directory)
    files
  withParents.set place node

/-- The place that a path names, whether or not something stands there. -/
def placeOf (files : Files) (path : String) : List String :=
  (Path.pieces path).foldl
    (fun place p => if p = "" ∨ p = "." then place else if p = ".." then place.dropLast else place ++ [p])
    (files.origin path)

/-- The files without what stands at a place and below it. -/
def remove (files : Files) (place : List String) : Files :=
  { files with nodes := files.nodes.filter fun (p, _) => !place.isPrefixOf p }

/-- Reads what the document in a file says. -/
def readDocument (files : Files) (schema : Schema α) (path : String) : Except Failure α := do
  let text ← files.read path
  match (Path.format path).read? schema text with
  | some x => .ok x
  | none => .error (.malformedFile path)

end Files

end CoreForge
