import CoreForge.Value.Parameter
/-!
# Identity and parameters of a core

The four-part name of a core (vendor, library, name, version) and its
parameters.
-/

namespace CoreForge

open Document

/-- Vendor, library, name and version of a core. -/
structure Vlnv where
  vendor : String
  library : String
  name : String
  version : String
deriving DecidableEq, Repr, Inhabited

/-- How the four-part name is written. -/
def Vlnv.layout : Layout :=
  [⟨"vendor", [], .text⟩, ⟨"library", [], .text⟩, ⟨"name", [], .text⟩, ⟨"version", [], .text⟩]

/-- Reads the four-part name. -/
def Vlnv.decode (d : Document) : Option Vlnv := do
  let fields ← Record.ofDocument? layout d
  let vendor ← fields.text "vendor"
  let library ← fields.text "library"
  let name ← fields.text "name"
  let version ← fields.text "version"
  some { vendor, library, name, version }

/-- Four-part names in a document. -/
def Vlnv.schema : Schema Vlnv := .record layout decode

/-- Writes the four-part name. -/
def Vlnv.encode (v : Vlnv) : Document :=
  .object
    [entry "vendor" (.text v.vendor), entry "library" (.text v.library), entry "name" (.text v.name),
      entry "version" (.text v.version)]

/-- The four parts with colons between them. -/
def Vlnv.render (v : Vlnv) : String :=
  v.vendor ++ ":" ++ v.library ++ ":" ++ v.name ++ ":" ++ v.version

/-- A parameter of a core. -/
structure Parameter where
  name : String
  dataType : String
  value : ParameterValue
  description : String
deriving BEq, Repr, Inhabited

/-- How a parameter is written. -/
def Parameter.layout : Layout :=
  [ ⟨"name", [], .text⟩,
    ⟨"dataType", ["data_type", "type"], .text⟩,
    ⟨"value", ["default", "defaultValue", "default_value"], .any⟩,
    ⟨"description", [], .text⟩ ]

/-- Reads a parameter. -/
def Parameter.decode (d : Document) : Option Parameter := do
  let fields ← Record.ofDocument? layout d
  let name ← fields.text "name"
  let dataType ← fields.text "dataType"
  let value ← fields.field "value" (.text "") ParameterValue.decode
  let description ← fields.text "description"
  some { name, dataType, value, description }

/-- Parameters in a document. -/
def Parameter.schema : Schema Parameter := .record layout decode

/-- Writes a parameter. -/
def Parameter.encode (p : Parameter) : Document :=
  .object <|
    [entry "name" (.text p.name), entry "dataType" (.text p.dataType), entry "value" p.value.encode] ++
      entryIf (p.description ≠ "") "description" (.text p.description)

/-- The parameters as names with values, for looking up widths. -/
def parameterValues (ps : List Parameter) : List (String × ParameterValue) :=
  ps.map fun p => (p.name, p.value)

end CoreForge
