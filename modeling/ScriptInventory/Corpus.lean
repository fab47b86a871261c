import ScriptInventory.Inventory

/-!
# Corpora

A corpus joins the inventories of many source units: the names of each kind, each
where it was first found, and the units that failed, with the reasons.
-/

namespace ScriptInventory

/-- A unit that gave nothing, and why. -/
structure UnitFailure where
  source : SourceUnit
  error : String
deriving DecidableEq, Repr, Inhabited

/-- The names of many units. -/
structure Corpus where
  classes : OrderedNames := .empty
  methods : OrderedNames := .empty
  properties : OrderedNames := .empty
  functions : OrderedNames := .empty
  «variables» : OrderedNames := .empty
  /-- The number of inventories that were joined. -/
  unitsMerged : Nat := 0
  failures : List UnitFailure := []
deriving Inhabited

namespace Corpus

def empty : Corpus := {}

def names (c : Corpus) : SymbolKind → OrderedNames
  | .class => c.classes
  | .method => c.methods
  | .property => c.properties
  | .function => c.functions
  | .variable => c.variables

def merge (c : Corpus) (i : Inventory) : Corpus where
  classes := c.classes.extend i.classes
  methods := c.methods.extend i.methods
  properties := c.properties.extend i.properties
  functions := c.functions.extend i.functions
  «variables» := c.variables.extend i.variables
  unitsMerged := c.unitsMerged + 1
  failures := c.failures

def recordFailure (c : Corpus) (source : SourceUnit) (error : String) : Corpus :=
  { c with failures := c.failures ++ [⟨source, error⟩] }

/-- The number of names of all kinds. -/
def totalSymbols (c : Corpus) : Nat :=
  SymbolKind.all.foldl (fun n k => n + (c.names k).size) 0

@[simp] theorem names_merge (c : Corpus) (i : Inventory) (k : SymbolKind) :
    (c.merge i).names k = (c.names k).extend (i.names k) := by
  cases k <;> rfl

@[simp] theorem names_recordFailure (c : Corpus) (source : SourceUnit) (error : String)
    (k : SymbolKind) : (c.recordFailure source error).names k = c.names k := by
  cases k <;> rfl

end Corpus

end ScriptInventory
