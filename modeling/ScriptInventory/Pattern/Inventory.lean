import ScriptInventory.Inventory
import ScriptInventory.Pattern.Scan

/-!
# Inventories of raw text

What the four patterns find in a text. Methods and properties are beyond them.
-/

namespace ScriptInventory.Pattern

/-- What the patterns find; constants stay apart here. -/
structure Findings where
  classes : OrderedNames
  functions : OrderedNames
  «variables» : OrderedNames
  constants : OrderedNames

def find (text : String) : Findings :=
  ⟨classPattern.names text, functionPattern.names text, variablePattern.names text,
    constantPattern.names text⟩

/-- The findings as an inventory, in which constants are variables. -/
def Findings.toInventory (f : Findings) (source : SourceUnit) : Inventory :=
  let i : Inventory := ⟨source, f.classes, .empty, .empty, f.functions, f.variables⟩
  i.recordAll .variable f.constants.toList

def inventory (source : SourceUnit) (text : String) : Inventory :=
  (find text).toInventory source

end ScriptInventory.Pattern
