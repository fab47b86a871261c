import ScriptInventory.Declaration.Binding
import ScriptInventory.Declaration.NumberKey
import ScriptInventory.Declaration.StringKey
import ScriptInventory.Inventory
import ScriptInventory.Text.WhiteSpace

/-!
# Shapes of declarations

Which nodes of a syntax tree declare names, and which names they declare. A class
member whose key is computed, or a class without a name, declares nothing.
-/

namespace ScriptInventory.Declaration

open Script

/-- The shapes that a declaration can have. -/
inductive Shape where
  | «class»
  | method
  | property
  | function
  | variable
  /-- The head of a loop such as `for (const x of xs)`. -/
  | loopBinding
deriving DecidableEq, Repr, Inhabited

namespace Shape

/-- The kind of symbol that a shape declares. -/
def kind : Shape → SymbolKind
  | .class => .class
  | .method => .method
  | .property => .property
  | .function => .function
  | .variable | .loopBinding => .variable

/-- The shape of a node below a given parent. Methods of objects are no class
members, and a class expression declares a name only where it is exported. -/
def classify (parent : Option Kind) (n : Node) : Option Shape :=
  match n.kind with
  | .classDeclaration => some .class
  | .classExpression => if parent = some .exportStatement then some .class else none
  | .methodDefinition => if parent = some .classBody then some .method else none
  | .fieldDefinition => if parent = some .classBody then some .property else none
  | .functionDeclaration | .generatorFunctionDeclaration => some .function
  | .variableDeclarator => some .variable
  | .forInStatement => if (n.child? .kind).isSome then some .loopBinding else none
  | _ => none

end Shape

/-- A text as a name. A tree may have an empty text where something is missing, and nothing is
named by that. -/
def nonempty (text : String) : List String := if text.isEmpty then [] else [text]

/-- The name that a class or a function declares. -/
def declaredName (n : Node) : List String :=
  match n.child? .name with
  | none => []
  | some name => nonempty (String.ofList (Text.trim name.text.toList))

/-- The name that the key of a class member stands for. -/
def keyName (key : Node) : List String :=
  match key.kind with
  | .propertyIdentifier | .identifier => nonempty key.text
  | .number => nonempty (NumberKey.name key.text)
  | .privatePropertyIdentifier =>
    nonempty (String.ofList (key.text.toList.dropWhile (· = '#')))
  | .string => nonempty (StringKey.name key.text)
  | _ => []

/-- The name of a class member with its key in a role. -/
def memberName (n : Node) (role : Role) : List String :=
  match n.child? role with
  | none => []
  | some key => keyName key

/-- The names that a node of some shape declares, with repetitions. -/
def names (shape : Shape) (n : Node) : List String :=
  match shape with
  | .class | .function => declaredName n
  | .method => memberName n .name
  | .property => memberName n .property
  | .variable => boundByChild n .name
  | .loopBinding => boundByChild n .left

/-- Records the names that a node of some shape declares. -/
def collect (shape : Shape) (n : Node) (i : Inventory) : Inventory :=
  i.recordAll shape.kind (names shape n)

end ScriptInventory.Declaration
