import CoreForge.Text.Ascii
/-!
# Bus protocols

The protocols that interfaces can be generated for, and the spellings of their
names. Case and separators in a name do not matter.
-/

namespace CoreForge

/-- A bus protocol. -/
inductive Protocol
  | axi4Lite
  | axi4
  | axiStream
  | avalonMm
  | avalonSt
deriving DecidableEq, Repr

namespace Protocol

/-- The name of a protocol in a library. -/
def key : Protocol → String
  | .axi4Lite => "AXI4L"
  | .axi4 => "AXI4"
  | .axiStream => "AXIS"
  | .avalonMm => "AVALON_MM"
  | .avalonSt => "AVALON_ST"

/-- The short name that selects what is generated. -/
def tag : Protocol → String
  | .axi4Lite => "axil"
  | .axi4 => "axi4"
  | .axiStream => "axis"
  | .avalonMm => "avmm"
  | .avalonSt => "avst"

/-- A character between the parts of a name. -/
def isSeparator (c : Char) : Bool := c = '-' || c = '_' || c = ' ' || c = '.'

/-- A name in upper case without separators. -/
def squash (name : String) : String :=
  String.ofList ((name.toList.filter fun c => !isSeparator c).map Char.toUpper)

/-- The spellings of the protocols, in upper case and without separators. -/
def spellings : List (String × Protocol) :=
  [ ("AXI4LITE", .axi4Lite), ("AXI4L", .axi4Lite), ("AXIL", .axi4Lite), ("AXILITE", .axi4Lite),
    ("AXI4", .axi4), ("AXI4FULL", .axi4), ("AXI", .axi4),
    ("AXIS", .axiStream), ("AXI4STREAM", .axiStream), ("AXISTREAM", .axiStream),
    ("AVALONMM", .avalonMm), ("AVMM", .avalonMm), ("AVALON", .avalonMm),
    ("AVALONST", .avalonSt), ("AVST", .avalonSt) ]

/-- The protocol of a name. -/
def ofName? (name : String) : Option Protocol :=
  (spellings.find? fun s => s.1 = squash name).map (·.2)

end Protocol

end CoreForge
