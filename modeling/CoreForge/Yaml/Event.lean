import CoreForge.Yaml.Token
/-!
# Events of YAML

The grammar turns the tokens of a text into the events that make up a document: its
scalars, and the starts and ends of its lists and mappings, whether they were written as
blocks or in brackets. What is left out becomes an empty plain scalar.

What the grammar still expects is kept as a stack of goals. A step takes the first goal,
looks at the next tokens, adds an event or none, and puts new goals in the place of the
first.
-/

namespace CoreForge.Yaml

/-- An event of a document. -/
inductive Event
  /-- A plain scalar, by its source. -/
  | plain (source : String)
  /-- A scalar in quotes or in a block. -/
  | text (s : String)
  | listStart
  | listEnd
  | mapStart
  | mapEnd
deriving DecidableEq, Repr

namespace Event

/-- A scalar that is left out. -/
def absent : Event := .plain ""

/-- Where a node stands. -/
inductive Setting
  /-- In brackets, where no block can start. -/
  | flow
  | block
  /-- In an entry of a block mapping, where a list needs no indentation of its own. -/
  | entry
deriving DecidableEq

/-- What the grammar expects. -/
inductive Goal
  /-- A scalar, a list or a mapping. -/
  | node (setting : Setting)
  /-- The items of a block list. -/
  | blockItems
  /-- The items of a block list without an indentation of its own. -/
  | looseItems
  /-- The entries of a block mapping. -/
  | blockEntries
  /-- The value of an entry in a block mapping, and the entries after it. -/
  | blockValue
  /-- The items of a list in brackets, from the first or from a later one on. -/
  | flowItems (first : Bool)
  /-- The entries of a mapping in brackets, from the first or from a later one on. -/
  | flowEntries (first : Bool)
  /-- The value of an entry in a mapping in brackets, and the entries after it. -/
  | flowValue
  /-- No value for a key that stands alone, and the entries after it. -/
  | noValue
  /-- The key of an item that is a single entry, and the items after it. -/
  | pairKey
  /-- The value of an item that is a single entry, and the items after it. -/
  | pairValue
  /-- The end of an item that is a single entry, and the items after it. -/
  | pairEnd

/-- What a step of the grammar comes to: an event or none, new goals, and the tokens left. -/
structure Step where
  event : Option Event
  goals : List Goal
  tokens : List Token

/-- A step for one goal; none when the tokens do not fit it. -/
def step (goal : Goal) (ts : List Token) : Option Step :=
  match goal, ts with
  | .node _, .plain source :: ts => some ⟨some (.plain source), [], ts⟩
  | .node _, .text s :: ts => some ⟨some (.text s), [], ts⟩
  | .node _, .flowListStart :: ts => some ⟨some .listStart, [.flowItems true], ts⟩
  | .node _, .flowMapStart :: ts => some ⟨some .mapStart, [.flowEntries true], ts⟩
  | .node .flow, _ => none
  | .node _, .blockListStart :: ts => some ⟨some .listStart, [.blockItems], ts⟩
  | .node _, .blockMapStart :: ts => some ⟨some .mapStart, [.blockEntries], ts⟩
  | .node .entry, .item :: ts => some ⟨some .listStart, [.looseItems], .item :: ts⟩
  | .node _, _ => none
  | .blockItems, .blockEnd :: ts => some ⟨some .listEnd, [], ts⟩
  | .blockItems, .item :: ts =>
    match ts with
    | .item :: _ | .blockEnd :: _ => some ⟨some absent, [.blockItems], ts⟩
    | _ => some ⟨none, [.node .block, .blockItems], ts⟩
  | .blockItems, _ => none
  | .looseItems, .item :: ts =>
    match ts with
    | .item :: _ | .key :: _ | .value :: _ | .blockEnd :: _ => some ⟨some absent, [.looseItems], ts⟩
    | _ => some ⟨none, [.node .block, .looseItems], ts⟩
  | .looseItems, ts => some ⟨some .listEnd, [], ts⟩
  | .blockEntries, .blockEnd :: ts => some ⟨some .mapEnd, [], ts⟩
  | .blockEntries, .key :: ts =>
    match ts with
    | .key :: _ | .value :: _ | .blockEnd :: _ => some ⟨some absent, [.blockValue], ts⟩
    | _ => some ⟨none, [.node .entry, .blockValue], ts⟩
  | .blockEntries, _ => none
  | .blockValue, .value :: ts =>
    match ts with
    | .key :: _ | .value :: _ | .blockEnd :: _ => some ⟨some absent, [.blockEntries], ts⟩
    | _ => some ⟨none, [.node .entry, .blockEntries], ts⟩
  | .blockValue, ts => some ⟨some absent, [.blockEntries], ts⟩
  | .flowItems _, .flowListEnd :: ts => some ⟨some .listEnd, [], ts⟩
  | .flowItems true, .key :: ts => some ⟨some .mapStart, [.pairKey], ts⟩
  | .flowItems true, ts => some ⟨none, [.node .flow, .flowItems false], ts⟩
  | .flowItems false, .comma :: ts => some ⟨none, [.flowItems true], ts⟩
  | .flowItems false, _ => none
  | .pairKey, .value :: ts | .pairKey, .comma :: ts | .pairKey, .flowListEnd :: ts =>
    -- A key that is left out takes the token behind its mark along.
    some ⟨some absent, [.pairValue], ts⟩
  | .pairKey, ts => some ⟨none, [.node .flow, .pairValue], ts⟩
  | .pairValue, .value :: ts =>
    match ts with
    | .comma :: _ | .flowListEnd :: _ => some ⟨some absent, [.pairEnd], ts⟩
    | _ => some ⟨none, [.node .flow, .pairEnd], ts⟩
  | .pairValue, ts => some ⟨some absent, [.pairEnd], ts⟩
  | .pairEnd, ts => some ⟨some .mapEnd, [.flowItems false], ts⟩
  | .flowEntries _, .flowMapEnd :: ts => some ⟨some .mapEnd, [], ts⟩
  | .flowEntries true, .key :: ts =>
    match ts with
    | .value :: _ | .comma :: _ | .flowMapEnd :: _ => some ⟨some absent, [.flowValue], ts⟩
    | _ => some ⟨none, [.node .flow, .flowValue], ts⟩
  | .flowEntries true, ts => some ⟨none, [.node .flow, .noValue], ts⟩
  | .flowEntries false, .comma :: ts => some ⟨none, [.flowEntries true], ts⟩
  | .flowEntries false, _ => none
  | .flowValue, .value :: ts =>
    match ts with
    | .comma :: _ | .flowMapEnd :: _ => some ⟨some absent, [.flowEntries false], ts⟩
    | _ => some ⟨none, [.node .flow, .flowEntries false], ts⟩
  | .flowValue, ts => some ⟨some absent, [.flowEntries false], ts⟩
  | .noValue, ts => some ⟨some absent, [.flowEntries false], ts⟩

/-- Takes steps until no goal is left, and answers the events, after those of `done` in
reverse, with the tokens left. -/
def run : Nat → List Goal → List Event → List Token → Option (List Event × List Token)
  | _, [], done, ts => some (done.reverse, ts)
  | 0, _ :: _, _, _ => none
  | fuel + 1, goal :: goals, done, ts =>
    match step goal ts with
    | some s => run fuel (s.goals ++ goals) (s.event.toList ++ done) s.tokens
    | none => none

/-- The events of a node that starts here, and the tokens behind it. A token is followed by
at most three steps that take none. -/
def node? (ts : List Token) : Option (List Event × List Token) :=
  run (4 * ts.length + 1) [.node .block] [] ts

/-- The tokens after a document: nothing but markers of its end. -/
def isEnd (ts : List Token) : Bool :=
  ts.all fun t =>
    match t with
    | .documentEnd => true
    | _ => false

/-- The events of a text that holds exactly one document. A text without a document is an
empty one. -/
def ofTokens? (ts : List Token) : Option (List Event) := do
  let (events, rest) ←
    match ts with
    | [] => some ([absent], [])
    | .documentStart :: ts =>
      match ts with
      | [] | .documentEnd :: _ => some ([absent], ts)
      | _ => node? ts
    | _ => node? ts
  if isEnd rest then some events else none

end Event

end CoreForge.Yaml
