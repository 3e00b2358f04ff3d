import CoreForge.Yaml.Mark
import CoreForge.Number.Literal
/-!
# Block scalars

A block scalar is a header (`|` keeps line breaks, `>` folds them, with an
indentation and a sign that says what becomes of the breaks at the end) and the
lines below it that are indented far enough.
-/

namespace CoreForge.Yaml

/-- What becomes of the line breaks at the end of a block scalar. -/
inductive Chomp
  /-- One is kept. -/
  | clip
  | strip
  | keep
deriving DecidableEq

/-- What stands after the `|` or `>` of a block scalar. -/
structure BlockHeader where
  chomp : Chomp
  /-- The indentation of the content beyond the surrounding one, when it is given. -/
  indent : Option Nat

/-- The sign for what becomes of the breaks at the end. -/
def Chomp.ofChar? : Char → Option Chomp
  | '+' => some .keep
  | '-' => some .strip
  | _ => none

/-- A digit that can be an indentation. -/
def indentOfChar? (c : Char) : Option Nat :=
  if '1' ≤ c ∧ c ≤ '9' then some (c.toNat - '0'.toNat) else none

/-- Reads the sign and the indentation of a header, in either order. -/
def BlockHeader.read (ms : List Mark) : BlockHeader × List Mark :=
  match ms with
  | [] => (⟨.clip, none⟩, [])
  | m :: rest =>
    match Chomp.ofChar? m.char, indentOfChar? m.char with
    | some chomp, _ =>
      match rest with
      | n :: rest' =>
        match indentOfChar? n.char with
        | some i => (⟨chomp, some i⟩, rest')
        | none => (⟨chomp, none⟩, rest)
      | [] => (⟨chomp, none⟩, rest)
    | none, some i =>
      match rest with
      | n :: rest' =>
        match Chomp.ofChar? n.char with
        | some chomp => (⟨chomp, some i⟩, rest')
        | none => (⟨.clip, some i⟩, rest)
      | [] => (⟨.clip, some i⟩, rest)
    | none, none => (⟨.clip, none⟩, ms)

/-- The line goes on with a comment. -/
def startsComment : List Mark → Bool
  | m :: _ => m.char = '#'
  | [] => false

/-- What follows the line of a header, which may end with blanks and a comment. -/
def afterHeader? (ms : List Mark) : Option (List Mark) :=
  let ms := ms.dropWhile (fun m => isBlank m.char)
  let ms := if startsComment ms then ms.dropWhile (fun m => !isBreak m.char) else ms
  match ms with
  | [] => some []
  | m :: rest => if isBreak m.char then some rest else none

/-- The indentation that the lines themselves suggest: that of the first line with
content, or of a longer line of spaces before it. None when a tab stands in that place.
`most` is the longest line of spaces so far, and `spaces` counts those of this line. -/
def suggestedIndent? (most spaces : Nat) : List Mark → Option Nat
  | [] => some (max most spaces)
  | m :: ms =>
    if m.char = ' ' then suggestedIndent? most (spaces + 1) ms
    else if isBreak m.char then suggestedIndent? (max most spaces) 0 ms
    else if m.char = '\t' then none
    else some (max most spaces)

/-- The content of a block scalar as far as it is read. -/
structure BlockText where
  /-- What was read, in reverse. -/
  done : List Char
  /-- The break after the last line of content. -/
  lineBreak : List Char
  /-- The breaks of the blank lines after that, in reverse. -/
  blanks : List Char
  /-- The last line of content starts with a blank. -/
  indented : Bool

namespace BlockText

/-- Nothing is read yet. -/
def empty : BlockText := ⟨[], [], [], false⟩

/-- A new line of content starts with a character: what stands between it and the line
before is put down. -/
def startLine (t : BlockText) (folded : Bool) (c : Char) : BlockText :=
  let indented := isBlank c
  let joined :=
    if folded ∧ t.lineBreak = ['\n'] ∧ ¬ t.indented ∧ ¬ indented then
      if t.blanks = [] then [' '] else []
    else t.lineBreak
  ⟨c :: t.blanks ++ joined ++ t.done, [], [], indented⟩

/-- The characters of a block scalar, its end chomped. -/
def finish (t : BlockText) (chomp : Chomp) : List Char :=
  match chomp with
  | .strip => t.done.reverse
  | .clip => t.done.reverse ++ t.lineBreak
  | .keep => t.done.reverse ++ t.lineBreak ++ t.blanks.reverse

end BlockText

/-- Where the reader of a block scalar stands. -/
inductive BlockPlace
  /-- Behind some spaces at the start of a line. -/
  | margin (spaces : Nat)
  /-- In a line of content. -/
  | line

/-- Reads the lines of a block scalar: those that are blank or indented far enough. A tab
may not stand where the indentation should. -/
def blockLines (folded : Bool) (indent : Nat) (t : BlockText) :
    BlockPlace → List Mark → Option (BlockText × List Mark)
  | _, [] => some (t, [])
  | .margin spaces, m :: ms =>
    if m.char = ' ' ∧ spaces < indent then blockLines folded indent t (.margin (spaces + 1)) ms
    else if isBreak m.char then blockLines folded indent { t with blanks := m.char :: t.blanks } (.margin 0) ms
    else if spaces = indent then blockLines folded indent (t.startLine folded m.char) .line ms
    else if m.char = '\t' then none
    else some (t, m :: ms)
  | .line, m :: ms =>
    if isBreak m.char then blockLines folded indent { t with lineBreak := [m.char] } (.margin 0) ms
    else blockLines folded indent { t with done := m.char :: t.done } .line ms

/-- Reads a block scalar from behind its `|` or `>`. `around` is the column of
the surrounding collection, -1 outside of all. -/
def blockScalar? (folded : Bool) (around : Int) (ms : List Mark) : Option (List Char × List Mark) := do
  let (header, ms) := BlockHeader.read ms
  let ms ← afterHeader? ms
  let least := (max around 0).toNat
  let indent ←
    match header.indent with
    | some n => some (least + n)
    | none => (suggestedIndent? 0 0 ms).map fun n => max n (max (around + 1) 1).toNat
  let (text, rest) ← blockLines folded indent .empty (.margin 0) ms
  some (text.finish header.chomp, rest)

end CoreForge.Yaml
