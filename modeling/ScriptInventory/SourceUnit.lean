/-!
# Source units

Where the text of a script comes from.
-/

namespace ScriptInventory

/-- The origin of a script. -/
inductive SourceUnit where
  | file (path : String)
  | url (address : String)
  /-- A script that is embedded in a page. -/
  | inline
  /-- What the page itself defines. -/
  | globalScope
deriving DecidableEq, Repr, Inhabited

namespace SourceUnit

/-- The label of a unit in reports, where a path has forward slashes. An embedded
script has none. -/
def label? : SourceUnit → Option String
  | .file path => some (String.ofList (path.toList.map fun c => if c = '\\' then '/' else c))
  | .url address => some address
  | .inline => none
  | .globalScope => some "Global Scope"

/-- The label of a unit, or a word for it. -/
def display (u : SourceUnit) : String := u.label?.getD "inline"

end SourceUnit

end ScriptInventory
