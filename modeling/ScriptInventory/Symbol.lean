/-!
# Symbols

The five kinds of names that a script can declare.
-/

namespace ScriptInventory

/-- What a declared name stands for; constants count as variables. -/
inductive SymbolKind where
  | «class»
  | method
  | property
  | function
  | variable
deriving DecidableEq, Repr, Inhabited

namespace SymbolKind

/-- All kinds, in the order of reports. -/
def all : List SymbolKind := [.class, .method, .property, .function, .variable]

def name : SymbolKind → String
  | .class => "class"
  | .method => "method"
  | .property => "property"
  | .function => "function"
  | .variable => "variable"

/-- The name for several symbols of a kind, as reports use it. -/
def plural : SymbolKind → String
  | .class => "classes"
  | .method => "methods"
  | .property => "properties"
  | .function => "functions"
  | .variable => "variables"

def ofName? (name : String) : Option SymbolKind :=
  all.find? fun k => k.name = name

end SymbolKind

/-- A declared name. -/
structure Symbol where
  kind : SymbolKind
  name : String
deriving DecidableEq, Repr, Inhabited

end ScriptInventory
