/-!
# Blanks

Two classes of blank characters are in use. *White space* is the Unicode
property of that name; it is what trimming removes. *Gaps* are the four
characters that separate tokens: space, tab, carriage return and line feed.
-/

namespace CoreForge.Text

/-- A character with the Unicode property White_Space. -/
def isSpace (c : Char) : Bool :=
  let n := c.toNat
  (9 ≤ n && n ≤ 13) || n = 0x20 || n = 0x85 || n = 0xA0 || n = 0x1680 || (0x2000 ≤ n && n ≤ 0x200A) ||
    n = 0x2028 || n = 0x2029 || n = 0x202F || n = 0x205F || n = 0x3000

/-- A character that separates tokens. -/
def isGap (c : Char) : Bool := c = ' ' || c = '\t' || c = '\r' || c = '\n'

/-- The text without leading gaps. -/
def dropGaps (cs : List Char) : List Char := cs.dropWhile isGap

/-- The text after its leading gaps, of which there is at least one. -/
def dropGaps1? : List Char → Option (List Char)
  | [] => none
  | c :: cs => if isGap c then some (dropGaps cs) else none

/-- The text without the trailing characters of a class. -/
def dropTrailing (p : Char → Bool) (cs : List Char) : List Char := (cs.reverse.dropWhile p).reverse

/-- The text without leading and trailing white space. -/
def trim (cs : List Char) : List Char := dropTrailing isSpace (cs.dropWhile isSpace)

/-- The string without leading and trailing white space. -/
def trimText (s : String) : String := String.ofList (trim s.toList)

/-- Every gap is white space. -/
theorem isSpace_of_isGap {c : Char} (h : isGap c = true) : isSpace c = true := by
  simp only [isGap, Bool.or_eq_true, decide_eq_true_eq] at h
  rcases h with ((rfl | rfl) | rfl) | rfl <;> decide

/-- The lines of a text, without their line feeds and a carriage return just
before one. A line feed at the end starts no further line. -/
def lines : List Char → List (List Char)
  | [] => []
  | '\r' :: '\n' :: cs => [] :: lines cs
  | '\n' :: cs => [] :: lines cs
  | [c] => [[c]]
  | c :: d :: cs =>
    match lines (d :: cs) with
    | [] => [[c]]
    | l :: ls => (c :: l) :: ls

/-- The lines put together again with line feeds between them. -/
def unlines : List (List Char) → List Char
  | [] => []
  | [l] => l
  | l :: ls => l ++ '\n' :: unlines ls

end CoreForge.Text
