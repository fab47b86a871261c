import ScriptInventory.Script.Damage
import ScriptInventory.Script.Plain.Read
import ScriptInventory.Script.Tolerant.Recovery

/-!
# The tree of a script

A plain script is read directly, and any other text, damaged or not, by the tolerant
reader.
-/

namespace ScriptInventory.Script

/-- The syntax tree of a text, damaged or not. -/
def tree (text : String) : Node :=
  match Plain.read? text with
  | some root => root
  | none => Tolerant.read text

/-- The syntax tree of a text that is a script. -/
def parse (text : String) : Except Damage Node := (tree text).sound?

end ScriptInventory.Script
