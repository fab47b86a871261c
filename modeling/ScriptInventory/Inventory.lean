import ScriptInventory.Names
import ScriptInventory.SourceUnit
import ScriptInventory.Symbol

/-!
# Inventories

The names that one source unit declares, by kind. `record` is the only way to add
to an inventory; it changes the names of one kind and keeps all else
(`names_record`).
-/

namespace ScriptInventory

/-- The names that a source unit declares. -/
structure Inventory where
  source : SourceUnit
  classes : OrderedNames
  methods : OrderedNames
  properties : OrderedNames
  functions : OrderedNames
  «variables» : OrderedNames
deriving Inhabited

namespace Inventory

def empty (source : SourceUnit) : Inventory := ⟨source, .empty, .empty, .empty, .empty, .empty⟩

def names (i : Inventory) : SymbolKind → OrderedNames
  | .class => i.classes
  | .method => i.methods
  | .property => i.properties
  | .function => i.functions
  | .variable => i.variables

def modify (i : Inventory) (f : OrderedNames → OrderedNames) : SymbolKind → Inventory
  | .class => { i with classes := f i.classes }
  | .method => { i with methods := f i.methods }
  | .property => { i with properties := f i.properties }
  | .function => { i with functions := f i.functions }
  | .variable => { i with «variables» := f i.variables }

def record (i : Inventory) (kind : SymbolKind) (name : String) : Inventory :=
  i.modify (fun names => names.insert name) kind

def recordAll (i : Inventory) (kind : SymbolKind) (names : List String) : Inventory :=
  names.foldl (fun i name => i.record kind name) i

def symbols (i : Inventory) : List Symbol :=
  SymbolKind.all.flatMap fun kind => (i.names kind).toList.map fun name => ⟨kind, name⟩

/-- Whether there are no names at all. -/
def isEmpty (i : Inventory) : Bool := SymbolKind.all.all fun kind => (i.names kind).isEmpty

theorem names_modify (i : Inventory) (f : OrderedNames → OrderedNames) (k l : SymbolKind) :
    (i.modify f k).names l = if k = l then f (i.names l) else i.names l := by
  cases k <;> cases l <;> rfl

theorem names_record (i : Inventory) (k l : SymbolKind) (name : String) :
    (i.record k name).names l = if k = l then (i.names l).insert name else i.names l :=
  names_modify i _ k l

@[simp] theorem source_record (i : Inventory) (k : SymbolKind) (name : String) :
    (i.record k name).source = i.source := by
  cases k <;> rfl

end Inventory

end ScriptInventory
