/-!
# Report formats
-/

namespace ScriptInventory.Report

/-- How a report is written. -/
inductive Format where
  | text
  | json
  | xml
deriving DecidableEq, Repr, Inhabited

namespace Format

def name : Format → String
  | .text => "text"
  | .json => "json"
  | .xml => "xml"

def ofName? (name : String) : Option Format :=
  [text, json, xml].find? fun f => f.name = name

end Format

/-- Why a report cannot be written. -/
inductive RenderError where
  /-- Page scans have no XML form. -/
  | noXmlForPages
deriving DecidableEq, Repr, Inhabited

/-- The message about a report that cannot be written. -/
def RenderError.message : RenderError → String
  | .noXmlForPages => "XML output is only available for directory scans"

end ScriptInventory.Report
