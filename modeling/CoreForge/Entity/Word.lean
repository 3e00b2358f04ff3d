import CoreForge.Text.Blank
import CoreForge.Text.Ascii
/-!
# Words in a text

A keyword counts only as a whole word: no character of an identifier may stand
directly before or after it. Case does not matter.
-/

namespace CoreForge.Entity

open CoreForge.Text

/-- A place where no identifier goes on. -/
def isBoundary (c : Option Char) : Bool := !(c.map isIdentChar).getD false

/-- All places where the keyword stands as a whole word, each as the text before it
and the text after it. After every match, whole word or not, the search goes on
behind it. `skip` characters are still to be passed, and `previous` is the
character before the text. -/
def occurrences (keyword : List Char) : Nat → Option Char → List Char → List (List Char × List Char)
  | _, _, [] => []
  | skip + 1, _, c :: cs =>
    (occurrences keyword skip (some c) cs).map fun (before, after) => (c :: before, after)
  | 0, previous, c :: cs =>
    let later (skip : Nat) :=
      (occurrences keyword skip (some c) cs).map fun (before, after) => (c :: before, after)
    match afterWord? keyword (c :: cs) with
    | some after =>
      if isBoundary previous && isBoundary after.head? then
        ([], after) :: later (keyword.length - 1)
      else later (keyword.length - 1)
    | none => later 0

/-- The text before and after the first whole-word occurrence of the keyword;
`previous` is the character before the text. -/
def findWord? (keyword : List Char) (previous : Option Char) (cs : List Char) : Option (List Char × List Char) :=
  (occurrences keyword 0 previous cs).head?

end CoreForge.Entity
