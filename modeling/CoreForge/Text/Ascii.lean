/-!
# ASCII letters

Names are compared without regard to the case of ASCII letters; every other
character stands for itself. Texts are searched as lists of characters and
stored as strings.
-/

namespace CoreForge.Text

/-- A character that can be part of an identifier. -/
def isIdentChar (c : Char) : Bool := c.isAlphanum || c = '_'

/-- A character that an identifier can start with. -/
def isIdentStart (c : Char) : Bool := c.isAlpha || c = '_'

/-- The text is one identifier. -/
def isIdentifier : List Char → Bool
  | [] => false
  | c :: cs => isIdentStart c && cs.all isIdentChar

/-- The leading identifier of a text, and what follows it. -/
def identifier? : List Char → Option (List Char × List Char)
  | [] => none
  | c :: cs =>
    if isIdentStart c then some (c :: cs.takeWhile isIdentChar, cs.dropWhile isIdentChar) else none

/-- The text with its ASCII letters in lower case. -/
def lower (s : String) : String := String.ofList (s.toList.map Char.toLower)

/-- The text with its ASCII letters in upper case. -/
def upper (s : String) : String := String.ofList (s.toList.map Char.toUpper)

/-- The texts differ at most in the case of ASCII letters. -/
def sameIgnoringCase (s t : String) : Bool := lower s == lower t

/-- What follows the pattern, when the text starts with it. -/
def afterStart? : List Char → List Char → Option (List Char)
  | [], cs => some cs
  | _ :: _, [] => none
  | p :: ps, c :: cs => if c = p then afterStart? ps cs else none

/-- What follows the pattern, when the text starts with it in any case of its
ASCII letters. The pattern is given in lower case. -/
def afterWord? : List Char → List Char → Option (List Char)
  | [], cs => some cs
  | _ :: _, [] => none
  | p :: ps, c :: cs => if c.toLower = p then afterWord? ps cs else none

/-- The text before the last pattern, when the text ends with it. -/
def beforeEnd? (pattern cs : List Char) : Option (List Char) :=
  (afterStart? pattern.reverse cs.reverse).map List.reverse

/-- The text before the first occurrence of the pattern, and what follows it. -/
def cut? (pattern : List Char) : List Char → Option (List Char × List Char)
  | [] => if pattern = [] then some ([], []) else none
  | c :: cs =>
    match afterStart? pattern (c :: cs) with
    | some rest => some ([], rest)
    | none => (cut? pattern cs).map fun (before, rest) => (c :: before, rest)

/-- The text with every occurrence of the pattern replaced, from the left,
`skip` characters of a replaced occurrence being still to pass. -/
def replaceFrom (pattern new : List Char) : Nat → List Char → List Char
  | _, [] => []
  | skip + 1, _ :: cs => replaceFrom pattern new skip cs
  | 0, c :: cs =>
    match afterStart? pattern (c :: cs) with
    | some _ => new ++ replaceFrom pattern new (pattern.length - 1) cs
    | none => c :: replaceFrom pattern new 0 cs

/-- The text with every occurrence of the (non-empty) pattern replaced. -/
def replace (pattern new : List Char) (cs : List Char) : List Char := replaceFrom pattern new 0 cs

/-- The number of bytes of the text in UTF-8. -/
def byteLength : List Char → Nat
  | [] => 0
  | c :: cs => c.utf8Size + byteLength cs

/-- The text divided at a byte position that lies between two characters. -/
def splitAtByte? : Nat → List Char → Option (List Char × List Char)
  | 0, cs => some ([], cs)
  | _ + 1, [] => none
  | n + 1, c :: cs =>
    if c.utf8Size ≤ n + 1 then
      (splitAtByte? (n + 1 - c.utf8Size) cs).map fun (before, rest) => (c :: before, rest)
    else none

/-- The pieces between separators. -/
def pieces (sep : Char) : List Char → List (List Char)
  | [] => [[]]
  | c :: cs =>
    if c = sep then [] :: pieces sep cs
    else
      match pieces sep cs with
      | [] => [[c]]
      | p :: ps => (c :: p) :: ps

end CoreForge.Text
