import CoreForge.Bus.Library
/-!
# The built-in bus library

The ports of the known protocols, their directions seen from the master.
-/

namespace CoreForge.BusLibrary

/-- A port that the master drives. -/
def driven (name : String) (width : UInt32) : BusPort := ⟨name, width, .output, .required⟩

/-- A port that the master reads. -/
def sensed (name : String) (width : UInt32) : BusPort := ⟨name, width, .input, .required⟩

/-- A port that an interface need not have. -/
def optional (p : BusPort) : BusPort := { p with presence := .optional }

/-- The ports of AXI4-Lite. -/
def axi4LitePorts : List BusPort :=
  [sensed "ACLK" 1, sensed "ARESETN" 1, driven "AWADDR" 32, optional (driven "AWPROT" 3),
   driven "AWVALID" 1, sensed "AWREADY" 1, driven "WDATA" 32, driven "WSTRB" 4, driven "WVALID" 1,
   sensed "WREADY" 1, sensed "BRESP" 2, sensed "BVALID" 1, driven "BREADY" 1, driven "ARADDR" 32,
   optional (driven "ARPROT" 3), driven "ARVALID" 1, sensed "ARREADY" 1, sensed "RDATA" 32,
   sensed "RRESP" 2, sensed "RVALID" 1, driven "RREADY" 1]

/-- The ports of AXI4. -/
def axi4Ports : List BusPort :=
  [sensed "ACLK" 1, sensed "ARESETN" 1, optional (driven "AWID" 4), driven "AWADDR" 32,
   driven "AWLEN" 8, driven "AWSIZE" 3, driven "AWBURST" 2, optional (driven "AWLOCK" 1),
   optional (driven "AWCACHE" 4), optional (driven "AWPROT" 3), optional (driven "AWQOS" 4),
   driven "AWVALID" 1, sensed "AWREADY" 1, driven "WDATA" 32, driven "WSTRB" 4, driven "WLAST" 1,
   driven "WVALID" 1, sensed "WREADY" 1, optional (sensed "BID" 4), sensed "BRESP" 2, sensed "BVALID" 1,
   driven "BREADY" 1, optional (driven "ARID" 4), driven "ARADDR" 32, driven "ARLEN" 8,
   driven "ARSIZE" 3, driven "ARBURST" 2, optional (driven "ARLOCK" 1), optional (driven "ARCACHE" 4),
   optional (driven "ARPROT" 3), optional (driven "ARQOS" 4), driven "ARVALID" 1, sensed "ARREADY" 1,
   optional (sensed "RID" 4), sensed "RDATA" 32, sensed "RRESP" 2, sensed "RLAST" 1, sensed "RVALID" 1,
   driven "RREADY" 1]

/-- The ports of AXI4-Stream. -/
def axiStreamPorts : List BusPort :=
  [sensed "ACLK" 1, sensed "ARESETN" 1, driven "TDATA" 32, driven "TVALID" 1, sensed "TREADY" 1,
   optional (driven "TLAST" 1), optional (driven "TKEEP" 4), optional (driven "TSTRB" 4),
   optional (driven "TUSER" 1), optional (driven "TID" 1), optional (driven "TDEST" 1)]

/-- The ports of Avalon-MM. -/
def avalonMmPorts : List BusPort :=
  [sensed "CLK" 1, sensed "RESET" 1, driven "ADDRESS" 32, driven "READ" 1, driven "WRITE" 1,
   driven "WRITEDATA" 32, sensed "READDATA" 32, sensed "WAITREQUEST" 1,
   optional (driven "BYTEENABLE" 4), optional (sensed "READDATAVALID" 1),
   optional (driven "BURSTCOUNT" 8), optional (sensed "RESPONSE" 2)]

/-- The ports of Avalon-ST. -/
def avalonStPorts : List BusPort :=
  [sensed "CLK" 1, sensed "RESET" 1, driven "DATA" 32, driven "VALID" 1, sensed "READY" 1,
   optional (driven "STARTOFPACKET" 1), optional (driven "ENDOFPACKET" 1), optional (driven "EMPTY" 2),
   optional (driven "CHANNEL" 1), optional (driven "ERROR" 1)]

/-- The built-in library. -/
def builtin : BusLibrary :=
  ⟨SortedMap.ofList
    [(Protocol.axi4Lite.key, axi4LitePorts), (Protocol.axi4.key, axi4Ports), (Protocol.axiStream.key, axiStreamPorts),
      (Protocol.avalonMm.key, avalonMmPorts), (Protocol.avalonSt.key, avalonStPorts)]⟩

end CoreForge.BusLibrary
