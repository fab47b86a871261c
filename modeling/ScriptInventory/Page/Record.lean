import ScriptInventory.GlobalScope
import ScriptInventory.Pattern.Inventory

/-!
# Records of a page scan

A page scan has one record for each source unit. Which sections a record has depends on
how its unit was scanned; a section without names is not the same as none. A unit that
failed has a reason in place of names.
-/

namespace ScriptInventory

/-- The lists of names that records have. -/
inductive Section where
  | classes
  | methods
  | properties
  | functions
  | «variables»
  | constants
deriving DecidableEq, Repr, Inhabited

namespace Section

/-- All sections, in the order of reports. -/
def all : List Section := [.classes, .methods, .properties, .functions, .variables, .constants]

def name : Section → String
  | .classes => "classes"
  | .methods => "methods"
  | .properties => "properties"
  | .functions => "functions"
  | .variables => "variables"
  | .constants => "constants"

def title : Section → String
  | .classes => "Classes"
  | .methods => "Methods"
  | .properties => "Properties"
  | .functions => "Functions"
  | .variables => "Variables"
  | .constants => "Constants"

end Section

/-- What is known of one unit of a page: names in any of the sections, and an error. -/
structure UnitRecord where
  source : SourceUnit
  classes : Option (List String) := none
  methods : Option (List String) := none
  properties : Option (List String) := none
  functions : Option (List String) := none
  «variables» : Option (List String) := none
  constants : Option (List String) := none
  /-- Why the unit failed. -/
  error : Option String := none
deriving DecidableEq, Repr, Inhabited

namespace UnitRecord

/-- The names in the syntax tree of a script. -/
def structural (i : Inventory) : UnitRecord where
  source := i.source
  classes := i.classes.toList
  methods := i.methods.toList
  properties := i.properties.toList
  functions := i.functions.toList
  «variables» := i.variables.toList

/-- What the patterns find in a text. -/
def pattern (source : SourceUnit) (f : Pattern.Findings) : UnitRecord where
  source := source
  classes := f.classes.toList
  functions := f.functions.toList
  «variables» := f.variables.toList
  constants := f.constants.toList

def globals (g : GlobalSnapshot) : UnitRecord where
  source := .globalScope
  functions := g.functions
  «variables» := g.variables

def failed (source : SourceUnit) (error : String) : UnitRecord where
  source := source
  error := error

/-- The names of a section, if the record has that section. -/
def names? (r : UnitRecord) : Section → Option (List String)
  | .classes => r.classes
  | .methods => r.methods
  | .properties => r.properties
  | .functions => r.functions
  | .variables => r.variables
  | .constants => r.constants

def isError (r : UnitRecord) : Bool := r.error.isSome

def sections (r : UnitRecord) : List (Section × List String) :=
  Section.all.filterMap fun s => (r.names? s).map fun names => (s, names)

end UnitRecord

/-- The records of a page. -/
structure PageScan where
  records : List UnitRecord

def PageScan.errors (s : PageScan) : Nat := s.records.countP UnitRecord.isError

end ScriptInventory
