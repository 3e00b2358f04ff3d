import CoreForge.Yaml.Block
import CoreForge.Yaml.Quoted
/-!
# Tokens of YAML

A text is divided into tokens that make its layout explicit: where a block list
or a block mapping starts and ends, and which scalars and collections are keys.
That a token is a key is seen only at the colon behind it, which must stand on the
same line and not too far away; then the key token is put in front of it.

Anchors, aliases, tags and directives are not part of the notation that
descriptions are written in, and are refused.
-/

namespace CoreForge.Yaml

/-- A token. -/
inductive Token
  /-- The line of dashes before a document. -/
  | documentStart
  /-- The line of dots after a document. -/
  | documentEnd
  | blockListStart
  | blockMapStart
  | blockEnd
  /-- The dash before an item of a block list. -/
  | item
  | flowListStart
  | flowListEnd
  | flowMapStart
  | flowMapEnd
  | comma
  | key
  | value
  | plain (source : String)
  | text (s : String)
deriving Repr

/-! ## Plain scalars -/

/-- Where a plain scalar ends in a flow collection, besides at a colon. -/
def isFlowPunctuation (c : Char) : Bool := c = ',' || c = '[' || c = ']' || c = '\x7b' || c = '\x7d'

/-- Reads on in a plain scalar whose further lines are indented to a column, or
not at all in a flow collection. Answers also whether a line break was passed at
the end. -/
def plainFrom (flow : Bool) (indent : Int) (done gap : List Char) :
    List Mark → Option (List Char × List Mark × Bool)
  | [] => some (done.reverse, [], gap.any isBreak)
  | m :: ms =>
    let c := m.char
    if isBlank c then
      if c = '\t' ∧ gap.any isBreak ∧ m.column < indent then none
      else plainFrom flow indent done (c :: gap) ms
    else if isBreak c then plainFrom flow indent done (c :: gap) ms
    else if gap ≠ [] ∧ ((¬ flow ∧ m.column < indent) ∨ atDocumentMarker (m :: ms) ∨ c = '#') then
      some (done.reverse, m :: ms, gap.any isBreak)
    else if flow ∧ c = ':' ∧ (ms.head?.map fun n => n.char = '?' || isFlowPunctuation n.char) = some true then none
    else if (c = ':' ∧ atBlank ms) ∨ (flow ∧ isFlowPunctuation c) then
      some (done.reverse, m :: ms, gap.any isBreak)
    else plainFrom flow indent (c :: ((foldGap false gap.reverse).reverse ++ done)) [] ms

/-- A character that no plain scalar starts with. -/
def isIndicator (c : Char) : Bool :=
  isFlowPunctuation c || c ∈ ['-', '?', ':', '#', '&', '*', '!', '|', '>', '\x27', '\x22', '%', '@', '\x60']

/-- A plain scalar starts here. -/
def startsPlain (flow : Bool) (c : Char) (rest : List Mark) : Bool :=
  !(isBlank c || isBreak c || isIndicator c) ||
    (c = '-' && !((rest.head?.map fun n => isBlank n.char).getD false)) ||
    (!flow && (c = '?' || c = ':') && !atBlank rest)

/-! ## The state between two tokens -/

/-- A place where a key may have started. -/
structure KeyStart where
  /-- The number of tokens before it. -/
  token : Nat
  mark : Mark
  /-- Nothing but a key can stand there. -/
  required : Bool

/-- A key that started at a place cannot end at another: it is on an earlier line,
or more than 1024 bytes before. -/
def KeyStart.isStale (k : KeyStart) (m : Mark) : Bool := k.mark.line < m.line || k.mark.index + 1024 < m.index

/-- What the reader of tokens knows. -/
structure Scan where
  tokens : Array Token
  /-- The columns of the open block collections, the innermost first. -/
  columns : List Nat
  /-- Where a key may have started in the blocks, outside of all flow collections. -/
  blockKey : Option KeyStart
  /-- Where a key may have started, for every open flow collection, the innermost first. -/
  flowKeys : List (Option KeyStart)
  /-- A key may start here. -/
  keyAllowed : Bool

namespace Scan

/-- The state at the start of a text. -/
def start : Scan := ⟨#[], [], none, [], true⟩

/-- A flow collection is open. -/
def inFlow (s : Scan) : Bool := !s.flowKeys.isEmpty

/-- The column of the innermost block collection, -1 outside of all. -/
def column (s : Scan) : Int := (s.columns.head?.map Int.ofNat).getD (-1)

/-- Appends a token. -/
def push (s : Scan) (t : Token) : Scan := { s with tokens := s.tokens.push t }

/-- Says whether a key may start next. -/
def allowKey (s : Scan) (allowed : Bool) : Scan := { s with keyAllowed := allowed }

/-- Where a key may have started in the innermost collection. -/
def key? (s : Scan) : Option KeyStart :=
  match s.flowKeys with
  | k :: _ => k
  | [] => s.blockKey

/-- Says where a key may have started in the innermost collection. -/
def setKey (s : Scan) (k : Option KeyStart) : Scan :=
  match s.flowKeys with
  | _ :: rest => { s with flowKeys := k :: rest }
  | [] => { s with blockKey := k }

/-- No key started in the innermost collection; an error when one had to. -/
def dropKey (s : Scan) : Option Scan :=
  match s.key? with
  | some k => if k.required then none else some (s.setKey none)
  | none => some s

/-- A key may start at a place, if one is allowed there. -/
def saveKey (s : Scan) (m : Mark) : Option Scan :=
  if s.keyAllowed then
    let required := !s.inFlow && s.column = m.column
    s.dropKey.map (·.setKey (some ⟨s.tokens.size, m, required⟩))
  else some s

/-- Nothing that has to be a key is left without an end at a place. -/
def keepsKeys (s : Scan) (m : Mark) : Bool :=
  match s.blockKey with
  | some k => !(k.required && k.isStale m)
  | none => true

/-- Closes the block collections that stand further right than a column. -/
def closeBlocks (s : Scan) (column : Int) : Scan :=
  if s.inFlow then s
  else
    let closed := (s.columns.takeWhile fun (c : Nat) => decide (column < (c : Int))).length
    { s with
      tokens := s.tokens ++ Array.replicate closed Token.blockEnd
      columns := s.columns.drop closed }

/-- Opens a block collection at a column, unless one is open there or further
right. `token` is the number of tokens before it. -/
def openBlock (s : Scan) (column : Nat) (token : Nat) (t : Token) : Scan :=
  if !s.inFlow ∧ s.column < column then
    { s with tokens := s.tokens.insertIdxIfInBounds token t, columns := column :: s.columns }
  else s

/-! ## Tokens one by one -/

/-- A document marker closes everything. -/
def documentMarker (s : Scan) (t : Token) : Option Scan := do
  let s ← (s.closeBlocks (-1)).dropKey
  some ((s.allowKey false).push t)

/-- The start of a flow collection. -/
def openFlow (s : Scan) (m : Mark) (t : Token) : Option Scan := do
  let s ← s.saveKey m
  some ({ s with flowKeys := none :: s.flowKeys }.allowKey true |>.push t)

/-- The end of a flow collection. -/
def closeFlow (s : Scan) (t : Token) : Option Scan := do
  let s ← s.dropKey
  some ({ s with flowKeys := s.flowKeys.tail }.allowKey false |>.push t)

/-- The comma between the parts of a flow collection. -/
def comma (s : Scan) : Option Scan := do
  let s ← s.dropKey
  some ((s.allowKey true).push .comma)

/-- The dash before an item of a block list. -/
def item (s : Scan) (m : Mark) : Option Scan := do
  if s.inFlow ∨ ¬ s.keyAllowed then none
  else
    let s ← (s.openBlock m.column s.tokens.size .blockListStart).dropKey
    some ((s.allowKey true).push .item)

/-- The question mark before a key that may be of any length and form. -/
def markedKey (s : Scan) (m : Mark) : Option Scan := do
  if s.inFlow then
    let s ← s.dropKey
    some ((s.allowKey false).push .key)
  else if s.keyAllowed then
    let s ← (s.openBlock m.column s.tokens.size .blockMapStart).dropKey
    some ((s.allowKey true).push .key)
  else none

/-- The colon between a key and its value. -/
def value (s : Scan) (m : Mark) : Option Scan :=
  match s.key?.filter (!·.isStale m) with
  | some k =>
    let s := { s with tokens := s.tokens.insertIdxIfInBounds k.token Token.key }
    let s := (s.setKey none).openBlock k.mark.column k.token .blockMapStart
    some ((s.allowKey false).push .value)
  | none =>
    if s.inFlow then some ((s.allowKey false).push .value)
    else if s.keyAllowed then
      some (((s.openBlock m.column s.tokens.size .blockMapStart).allowKey true).push .value)
    else none

/-- A scalar that may be a key, read from behind its first character. -/
def quoted (s : Scan) (m : Mark) (read : List Mark → Option (List Char × List Mark)) (rest : List Mark) :
    Option (Scan × List Mark) := do
  let s ← s.saveKey m
  let (cs, rest) ← read rest
  some ((s.allowKey false).push (.text (String.ofList cs)), rest)

/-- A block scalar. -/
def block (s : Scan) (folded : Bool) (rest : List Mark) : Option (Scan × List Mark) := do
  let s ← s.dropKey
  let (cs, rest) ← blockScalar? folded s.column rest
  some ((s.allowKey true).push (.text (String.ofList cs)), rest)

/-- A plain scalar. -/
def plain (s : Scan) (m : Mark) (rest : List Mark) : Option (Scan × List Mark) := do
  let s ← s.saveKey m
  let (cs, rest, crossed) ← plainFrom s.inFlow (s.column + 1) [] [] (m :: rest)
  some ((s.allowKey crossed).push (.plain (String.ofList cs)), rest)

/-- Passes blanks, comments, line breaks, and a byte order mark at the start of a line. A
new line may start a key in a block collection, and a tab may not stand where a key may
start. -/
def passBlanks (s : Scan) (comment : Bool) : List Mark → Scan × List Mark
  | [] => (s, [])
  | m :: ms =>
    if isBreak m.char then passBlanks (if s.inFlow then s else s.allowKey true) false ms
    else if comment then passBlanks s true ms
    else if m.char = ' ' || (m.char = '\t' && (s.inFlow || !s.keyAllowed)) then passBlanks s false ms
    else if m.char = '#' then passBlanks s true ms
    else if isByteOrderMark m.char && m.column = 0 then passBlanks s false ms
    else (s, m :: ms)

/-- Reads the token that starts with a character. -/
def next (s : Scan) (m : Mark) (rest : List Mark) : Option (Scan × List Mark) := do
  let s := s.closeBlocks m.column
  let c := m.char
  let and (s : Option Scan) : Option (Scan × List Mark) := s.map fun s => (s, rest)
  if ¬ s.keepsKeys m ∨ (c = '%' ∧ m.column = 0) then none
  else if atDocumentMarker (m :: rest) then
    let t := if c = '-' then Token.documentStart else .documentEnd
    (s.documentMarker t).map fun s => (s, rest.drop 2)
  else if c = '[' then and (s.openFlow m .flowListStart)
  else if c = '\x7b' then and (s.openFlow m .flowMapStart)
  else if c = ']' then and (s.closeFlow .flowListEnd)
  else if c = '\x7d' then and (s.closeFlow .flowMapEnd)
  else if c = ',' then and s.comma
  else if c = '-' ∧ atBlank rest then and (s.item m)
  else if c = '?' ∧ (s.inFlow ∨ atBlank rest) then and (s.markedKey m)
  else if c = ':' ∧ (s.inFlow ∨ atBlank rest) then and (s.value m)
  else if c = '|' ∧ ¬ s.inFlow then s.block false rest
  else if c = '>' ∧ ¬ s.inFlow then s.block true rest
  else if c = '\x27' then s.quoted m singleQuoted? rest
  else if c = '\x22' then s.quoted m doubleQuoted? rest
  else if startsPlain s.inFlow c rest then s.plain m rest
  else none

/-- Reads all tokens. Every token takes at least one character, so the length of
the text bounds their number. -/
def run : Nat → Scan → List Mark → Option Scan
  | 0, _, _ => none
  | fuel + 1, s, ms =>
    match s.passBlanks false ms with
    | (s, []) => (s.closeBlocks (-1)).dropKey
    | (s, m :: rest) =>
      match s.next m rest with
      | some (s, rest) => run fuel s rest
      | none => none

end Scan

/-- The tokens of a text. -/
def tokens? (s : String) : Option (List Token) := do
  let ms ← Mark.list? s
  let scan ← Scan.start.run (ms.length + 1) ms
  some scan.tokens.toList

end CoreForge.Yaml
