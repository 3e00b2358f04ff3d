import CoreForge.Entity.Word
/-!
# Clauses of a declaration

A declaration is taken apart without regard to what its parts mean: comments are
removed, the header gives the name, the region reaches to the `end` that closes the
declaration, and a clause is a group in parentheses behind a keyword.
-/

namespace CoreForge.Entity

open CoreForge.Text

/-! ## Comments -/

/-- A line without the comment at its end. -/
def dropComment (line : List Char) : List Char :=
  match cut? ['-', '-'] line with
  | some (before, _) => before
  | none => line

/-- A text without its comments. Its line breaks are unified. -/
def stripComments (cs : List Char) : List Char := unlines ((lines cs).map dropComment)

/-! ## Parentheses -/

/-- The text up to the closing bracket that matches an opening one just before the
text, `depth` brackets being open besides, and the text from that bracket on. -/
def untilUnbalanced (opening closing : Char) : Nat → List Char → Option (List Char × List Char)
  | _, [] => none
  | depth, c :: cs =>
    let goOn (depth : Nat) :=
      (untilUnbalanced opening closing depth cs).map fun (inner, rest) => (c :: inner, rest)
    if c = opening then goOn (depth + 1)
    else if c = closing then
      match depth with
      | 0 => some ([], c :: cs)
      | depth + 1 => goOn depth
    else goOn depth

/-- The group in parentheses at the start of a text: what is inside, without the
gaps before it, and what follows the group. -/
def group? (cs : List Char) : Option (List Char × List Char) :=
  match dropGaps cs with
  | '(' :: cs => (untilUnbalanced '(' ')' 0 (dropGaps cs)).map fun (inner, rest) => (inner, rest.tail)
  | _ => none

/-- The change of depth that a character makes. -/
def depthChange (c : Char) : Int := if c = '(' then 1 else if c = ')' then -1 else 0

/-- The open parentheses of a text, less those that are closed without being open. -/
def parenDepth : List Char → Int
  | [] => 0
  | c :: cs => depthChange c + parenDepth cs

/-- The pieces of a text between separators outside of parentheses. -/
def topLevelPieces (sep : Char) : Int → List Char → List (List Char)
  | _, [] => [[]]
  | depth, c :: cs =>
    if c ≠ '(' ∧ c ≠ ')' ∧ c = sep ∧ depth = 0 then [] :: topLevelPieces sep depth cs
    else
      match topLevelPieces sep (depth + depthChange c) cs with
      | [] => [[c]]
      | p :: ps => (c :: p) :: ps

/-- The pieces of a text between separators outside of parentheses, trimmed, those
with nothing in them left out. -/
def splitTopLevel (sep : Char) (cs : List Char) : List (List Char) :=
  ((topLevelPieces sep 0 cs).map trim).filter fun p => !p.isEmpty

/-! ## The declaration -/

/-- What follows the word `entity` in the header of a declaration: the name, and
the text after the word `is`. -/
def header? (cs : List Char) : Option (List Char × List Char) := do
  let cs ← dropGaps1? cs
  let (name, cs) ← identifier? cs
  let cs ← dropGaps1? cs
  let rest ← afterWord? "is".toList cs
  if isBoundary rest.head? then some (name, rest) else none

/-- The first declaration of a text: its name, and the text after its header. -/
def declaration? (cs : List Char) : Option (List Char × List Char) :=
  (occurrences "entity".toList 0 none cs).findSome? fun (_, after) => header? after

/-- The text of a declaration, from behind its header to the word `end` that closes
it: the first one outside of parentheses, or the end of the text. -/
def region (cs : List Char) : List Char :=
  match (occurrences "end".toList 0 none cs).find? fun (before, _) => parenDepth before = 0 with
  | some (before, _) => before
  | none => cs

/-- What stands in the first group behind a keyword, nothing when there is no such
group. -/
def clauseBody (keyword : List Char) (cs : List Char) : List Char :=
  (((occurrences keyword 0 none cs).findSome? fun (_, after) => group? after).map (·.1)).getD []

end CoreForge.Entity
