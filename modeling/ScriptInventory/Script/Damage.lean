import ScriptInventory.Script.Cursor

/-!
# Where a text is damaged

The damage of a text is reported at the first fault of its syntax tree. Subtrees
that are not marked as damaged are left out of the search.
-/

namespace ScriptInventory.Script

/-- What is wrong with a text. -/
inductive Damage where
  /-- Something at a place fits nowhere. -/
  | misfit (place : Place)
  /-- Something is missing at a place. -/
  | missing (kind : Kind) (place : Place)
  /-- Nothing in particular can be shown. -/
  | unlocated
deriving DecidableEq, Repr, Inhabited

namespace Damage

def atPlace (p : Place) : String := s!"at line {p.line}, column {p.column}"

def message : Damage → String
  | .misfit place => "syntax error " ++ atPlace place
  | .missing kind place => "missing `" ++ kind.label ++ "` " ++ atPlace place
  | .unlocated => "syntax error"

/-- The damage that a faulty node stands for. -/
def ofNode (n : Node) : Damage :=
  match n.fault with
  | some .missing => .missing n.kind n.start
  | _ => .misfit n.start

end Damage

namespace Node

def firstFault? (root : Node) : Option Node :=
  (Cursor.ofRoot root).search (fun n => n.fault.isSome) Node.damaged

/-- The tree itself if it is sound, and what is wrong with it otherwise. -/
def sound? (root : Node) : Except Damage Node :=
  if root.damaged then .error ((root.firstFault?.map Damage.ofNode).getD .unlocated)
  else .ok root

end Node

end ScriptInventory.Script
