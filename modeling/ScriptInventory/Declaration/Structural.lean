import ScriptInventory.Declaration.Shape
import ScriptInventory.Script.Parse

/-!
# Inventories of scripts

The inventory of a script is what the declarations in its syntax tree declare, to
any depth and in the order of the text. A text that is no script has none.
-/

namespace ScriptInventory.Declaration

open Script

/-- Records what the node at a cursor declares. -/
def visit (i : Inventory) (c : Cursor) : Inventory :=
  match Shape.classify (c.parent?.map Node.kind) c.node with
  | some shape => collect shape c.node i
  | none => i

/-- Records what all nodes of a tree declare. -/
def collectTree (root : Node) (i : Inventory) : Inventory :=
  (Cursor.ofRoot root).walk visit i

/-- The inventory of a text, if it is a script. -/
def structural (source : SourceUnit) (text : String) : Except Damage Inventory :=
  (parse text).map fun root => collectTree root (.empty source)

end ScriptInventory.Declaration
