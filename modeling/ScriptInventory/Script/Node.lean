import ScriptInventory.Script.Kind
import ScriptInventory.Script.Place

/-!
# Syntax trees

A node has a kind, the place where its first token starts, the source text if it
is a leaf, and its children in source order. A node of a damaged text may also
be a fault itself, and `damaged` is set on every node that is or holds one.
-/

namespace ScriptInventory.Script

/-- What is wrong at a node of a damaged text. -/
inductive Fault where
  /-- Text that fits nowhere. -/
  | error
  /-- A token that the text lacks. -/
  | missing
deriving DecidableEq, Repr, Inhabited

/-- A node of a syntax tree, with the subtree below it. -/
structure Node where
  role : Option Role
  kind : Kind
  start : Place
  text : String
  fault : Option Fault
  damaged : Bool
  children : List Node
deriving Repr, Inhabited

namespace Node

def leaf (kind : Kind) (start : Place) (text : String) : Node :=
  ⟨none, kind, start, text, none, false, []⟩

def branch (kind : Kind) (start : Place) (children : List Node) : Node :=
  ⟨none, kind, start, "", none, false, children⟩

/-- The same node in the role `role`. -/
def withRole (role : Role) (n : Node) : Node :=
  { n with role := some role }

/-- The first child that plays `role`. -/
def child? (n : Node) (role : Role) : Option Node :=
  n.children.find? fun c => c.role = some role

mutual

/-- All nodes of a subtree, a parent before its children and siblings in source
order. -/
def preorder : Node → List Node
  | ⟨role, kind, start, text, fault, damaged, children⟩ =>
    ⟨role, kind, start, text, fault, damaged, children⟩ :: preorderAll children

/-- The nodes of several subtrees, one subtree after the other. -/
def preorderAll : List Node → List Node
  | [] => []
  | n :: rest => preorder n ++ preorderAll rest

end

@[simp] theorem preorderAll_nil : preorderAll [] = [] := by
  simp [preorderAll]

@[simp] theorem preorderAll_cons (n : Node) (rest : List Node) :
    preorderAll (n :: rest) = n.preorder ++ preorderAll rest := by
  simp [preorderAll]

theorem preorder_eq (n : Node) : n.preorder = n :: preorderAll n.children := by
  cases n
  simp [preorder]

end Node

end ScriptInventory.Script
