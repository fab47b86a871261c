import ScriptInventory.Dictionary
import ScriptInventory.Inventory
import ScriptInventory.Json.Read

/-!
# The global scope of a page

What a page defines by itself, outside of any script text: names that can be called
and names that cannot. A snapshot has both in order and without repetition. A host
may hand over its names with the sort of value that each one has, of which only
`function` can be called.
-/

namespace ScriptInventory

/-- A name that a page defines. -/
structure GlobalBinding where
  name : String
  isCallable : Bool
deriving DecidableEq, Repr, Inhabited

/-- Leaves one of several equal neighbours. In a sorted list equal names are neighbours, and
one of each is left. -/
def withoutRepeats : List String → List String
  | [] => []
  | [a] => [a]
  | a :: b :: rest => if a = b then withoutRepeats (b :: rest) else a :: withoutRepeats (b :: rest)

/-- Names in order, each of them once. -/
def sortedNames (names : List String) : List String :=
  withoutRepeats (names.mergeSort fun a b => decide (a ≤ b))

/-- The names of a page at one time. -/
structure GlobalSnapshot where
  functions : List String
  «variables» : List String
deriving DecidableEq, Repr, Inhabited

namespace GlobalSnapshot

def ofBindings (bindings : List GlobalBinding) : GlobalSnapshot :=
  ⟨sortedNames ((bindings.filter fun b => b.isCallable).map GlobalBinding.name),
    sortedNames ((bindings.filter fun b => !b.isCallable).map GlobalBinding.name)⟩

def toInventory (s : GlobalSnapshot) : Inventory :=
  ((Inventory.empty .globalScope).recordAll .function s.functions).recordAll .variable s.variables

end GlobalSnapshot

/-- Names with the sort of value that each one has. -/
structure TypeSnapshot where
  types : Dictionary String

namespace TypeSnapshot

def read : Json.Reader TypeSnapshot := fun i =>
  (Json.readMap Json.readText i).map fun (entries, i) => (⟨.ofList entries⟩, i)

def ofText (text : String) : Except Json.Fault TypeSnapshot := Json.readWhole read text

/-- The bindings of a snapshot, in the order of their names. -/
def bindings (s : TypeSnapshot) : List GlobalBinding :=
  s.types.entries.map fun (name, type) => ⟨name, type = "function"⟩

end TypeSnapshot

end ScriptInventory
