import CoreForge.Entity.Declaration
import CoreForge.Collection.OrderedDict
import CoreForge.Bus.Declaration
/-!
# Buses among the ports of an entity

The ports of a bus interface have names made of a common stem and a suffix from the
vocabulary of the protocol. The stems of all ports are counted for each
vocabulary; the most frequent stem is a bus interface when it is frequent enough.
-/

namespace CoreForge.Entity

open CoreForge.Text

/-- The signal names of a protocol. -/
structure Vocabulary where
  protocol : String
  /-- The name of an interface whose stem is empty. -/
  defaultName : String
  suffixes : List String
  /-- The number of ports that make an interface. -/
  threshold : Nat
deriving DecidableEq, Repr

/-- The vocabularies; on a tie, the first one counts. -/
def vocabularies : List Vocabulary :=
  [ { protocol := "AXI4-Lite"
      defaultName := "s_axi"
      suffixes :=
        ["awaddr", "awprot", "awvalid", "awready", "wdata", "wstrb", "wvalid", "wready", "bresp", "bvalid",
          "bready", "araddr", "arprot", "arvalid", "arready", "rdata", "rresp", "rvalid", "rready"]
      threshold := 4 },
    { protocol := "Avalon-MM"
      defaultName := "avs"
      suffixes :=
        ["address", "read", "write", "writedata", "readdata", "waitrequest", "byteenable", "readdatavalid"]
      threshold := 3 } ]

/-- The shorter of two texts, the first one of two equally long ones. -/
def shorter (a b : List Char) : List Char := if b.length < a.length then b else a

/-- What is left of the name of a port, in lower case, without the longest suffix of
the vocabulary that it ends with. -/
def Vocabulary.stem? (v : Vocabulary) (name : String) : Option String :=
  match v.suffixes.filterMap fun s => beforeEnd? s.toList (lower name).toList with
  | [] => none
  | s :: ss => some (String.ofList (ss.foldl shorter s))

/-- The stems of the ports with their frequencies, in order of appearance. -/
def Vocabulary.tally (v : Vocabulary) (ports : List PortDecl) : OrderedDict String Nat :=
  (ports.filterMap fun p => v.stem? p.name).foldl (fun d stem => d.update stem 0 (· + 1)) .empty

/-- A stem that is frequent enough to be an interface. -/
structure Candidate where
  vocabulary : Vocabulary
  stem : String
  count : Nat
deriving DecidableEq, Repr

/-- The most frequent stem of a vocabulary, when it reaches the threshold. -/
def Vocabulary.candidate? (v : Vocabulary) (ports : List PortDecl) : Option Candidate :=
  match (v.tally ports).maxCount? with
  | some (stem, count) => if v.threshold ≤ count then some ⟨v, stem, count⟩ else none
  | none => none

/-- The first of the candidates with the largest count. -/
def best? : List Candidate → Option Candidate
  | [] => none
  | c :: cs => some (cs.foldl (fun best c => if best.count < c.count then c else best) c)

/-- A bus interface found among the ports. -/
structure DetectedBus where
  name : String
  protocol : String
  mode : BusMode
  physicalPrefix : String
  /-- The names of its ports, in order of declaration. -/
  members : List String
  signalCount : Nat
deriving DecidableEq, Repr

/-- The interface that a candidate stands for. -/
def Candidate.bus (c : Candidate) (ports : List PortDecl) : DetectedBus :=
  let name := dropTrailing (· = '_') c.stem.toList
  { name := if name.isEmpty then c.vocabulary.defaultName else String.ofList name
    protocol := c.vocabulary.protocol
    mode := .slave
    physicalPrefix := c.stem
    members := (ports.filter fun p => c.vocabulary.stem? p.name = some c.stem).map (·.name)
    signalCount := c.count }

/-- The bus interface among the ports. -/
def detectBus? (ports : List PortDecl) : Option DetectedBus :=
  (best? (vocabularies.filterMap fun v => v.candidate? ports)).map fun c => c.bus ports

end CoreForge.Entity
