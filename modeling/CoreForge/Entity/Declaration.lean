import CoreForge.Core.Port
import CoreForge.Entity.Width
/-!
# Generics and ports

The entries of a clause are separated by semicolons. Each is a list of names, a
colon, and what is declared of them. An entry that cannot be read is passed over.
-/

namespace CoreForge.Entity

open CoreForge.Text

/-- A declared generic. -/
structure GenericDecl where
  name : String
  type : String
  default : Option String
deriving DecidableEq, Repr, Inhabited

/-- A declared port. -/
structure PortDecl where
  name : String
  direction : Direction
  type : String
  width : WidthExpr
deriving DecidableEq, Repr, Inhabited

/-- An entry of a clause: its names, and what stands behind the colon. What is no
identifier is left out of the names, of which one must remain. -/
def entry? (cs : List Char) : Option (List (List Char) × List Char) := do
  let (names, rest) ← cut? [':'] cs
  let names := ((pieces ',' names).map trim).filter isIdentifier
  if names.isEmpty then none else some (names, trim rest)

/-- A type and the default behind it. -/
def typeAndDefault (cs : List Char) : List Char × Option (List Char) :=
  match cut? [':', '='] cs with
  | some (type, default) => (trim type, some (trim default))
  | none => (trim cs, none)

/-- The generics of a clause. -/
def GenericDecl.readAll (body : List Char) : List GenericDecl :=
  (splitTopLevel ';' body).flatMap fun piece =>
    match entry? piece with
    | some (names, rest) =>
      let (type, default) := typeAndDefault rest
      names.map fun name => ⟨String.ofList name, String.ofList type, default.map String.ofList⟩
    | none => []

/-- The directions by keyword, in the order in which they are tried. -/
def modes : List (List Char × Direction) :=
  [("inout".toList, .inout), ("in".toList, .input), ("out".toList, .output)]

/-- A direction at the start of a text, and what follows the gap behind it. The first
keyword that fits decides, even if no gap follows. -/
def mode? (cs : List Char) : Option (Direction × List Char) := do
  let (direction, rest) ← modes.findSome? fun (word, direction) => (afterWord? word cs).map fun rest => (direction, rest)
  let rest ← dropGaps1? rest
  some (direction, rest)

/-- The ports of a clause. A port has a direction and a type. -/
def PortDecl.readAll (body : List Char) : List PortDecl :=
  (splitTopLevel ';' body).flatMap fun piece =>
    match entry? piece with
    | some (names, rest) =>
      match mode? rest with
      | some (direction, rest) =>
        let (type, _) := typeAndDefault rest
        if type.isEmpty then []
        else names.map fun name => ⟨String.ofList name, direction, String.ofList type, inferWidth type⟩
      | none => []
    | none => []

end CoreForge.Entity
