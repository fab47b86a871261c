import ScriptInventory.Script.Node

/-!
# Names that a pattern binds

A binding target is a name, or a pattern that takes an object or an array apart to
any depth. `bindInto` adds the names it binds to those found before, in the order of the
text and with repetitions; what stands in keys and defaults is not bound. Anything else,
such as `a.b`, binds nothing. `boundNames` gives the names alone, and adding them is
all that `bindInto` does (`bindInto_eq`).
-/

namespace ScriptInventory.Declaration

open Script

/-! ## Collecting -/

mutual

/-- Adds the names that a binding target binds to those found before. -/
def bindInto (found : List String) : Node → List String
  | ⟨_, kind, _, text, _, _, children⟩ =>
    match kind with
    | .identifier | .shorthandPropertyIdentifierPattern =>
      if text.isEmpty then found else found ++ [text]
    | .objectPattern | .arrayPattern => bindAllInto found children
    | .pairPattern => bindRoleInto found .value children
    | .assignmentPattern | .objectAssignmentPattern => bindRoleInto found .left children
    | .restPattern => bindFirstInto found children
    | _ => found

/-- Adds the names that several nodes bind, one node after the other. -/
def bindAllInto (found : List String) : List Node → List String
  | [] => found
  | n :: rest => bindAllInto (bindInto found n) rest

/-- Adds the names that the first node in a role binds. -/
def bindRoleInto (found : List String) (role : Role) : List Node → List String
  | [] => found
  | n :: rest => if n.role = some role then bindInto found n else bindRoleInto found role rest

/-- Adds the names that the first node binds that is no mere token. A comment is no token, so
one in front of the target is taken for it, and binds nothing. -/
def bindFirstInto (found : List String) : List Node → List String
  | [] => found
  | n :: rest => if n.kind.isToken then bindFirstInto found rest else bindInto found n

end

/-- The names that the child in a role binds; without such a child, none. -/
def boundByChild (n : Node) (role : Role) : List String :=
  match n.child? role with
  | none => []
  | some target => bindInto [] target

/-! ## The names alone -/

mutual

/-- The names that a binding target binds. -/
def boundNames : Node → List String
  | ⟨_, kind, _, text, _, _, children⟩ =>
    match kind with
    | .identifier | .shorthandPropertyIdentifierPattern =>
      if text.isEmpty then [] else [text]
    | .objectPattern | .arrayPattern => boundByAll children
    | .pairPattern => boundByRole .value children
    | .assignmentPattern | .objectAssignmentPattern => boundByRole .left children
    | .restPattern => boundByFirst children
    | _ => []

/-- The names that all of several nodes bind. -/
def boundByAll : List Node → List String
  | [] => []
  | n :: rest => boundNames n ++ boundByAll rest

/-- The names that the first node in a role binds. -/
def boundByRole (role : Role) : List Node → List String
  | [] => []
  | n :: rest => if n.role = some role then boundNames n else boundByRole role rest

/-- The names that the first node binds that is no mere token. -/
def boundByFirst : List Node → List String
  | [] => []
  | n :: rest => if n.kind.isToken then boundByFirst rest else boundNames n

end

mutual

/-- What was found before stays, and the names of the target follow. -/
theorem bindInto_eq (found : List String) (n : Node) :
    bindInto found n = found ++ boundNames n := by
  obtain ⟨_, kind, _, text, _, _, children⟩ := n
  unfold bindInto boundNames
  cases kind
  case identifier => by_cases h : text.isEmpty <;> simp [h]
  case shorthandPropertyIdentifierPattern => by_cases h : text.isEmpty <;> simp [h]
  case objectPattern => exact bindAllInto_eq found children
  case arrayPattern => exact bindAllInto_eq found children
  case pairPattern => exact bindRoleInto_eq found .value children
  case assignmentPattern => exact bindRoleInto_eq found .left children
  case objectAssignmentPattern => exact bindRoleInto_eq found .left children
  case restPattern => exact bindFirstInto_eq found children
  all_goals exact (List.append_nil found).symm

theorem bindAllInto_eq (found : List String) (ns : List Node) :
    bindAllInto found ns = found ++ boundByAll ns := by
  cases ns with
  | nil => rw [bindAllInto, boundByAll, List.append_nil]
  | cons n rest =>
    rw [bindAllInto, boundByAll, bindInto_eq found n, bindAllInto_eq _ rest, List.append_assoc]

theorem bindRoleInto_eq (found : List String) (role : Role) (ns : List Node) :
    bindRoleInto found role ns = found ++ boundByRole role ns := by
  cases ns with
  | nil => rw [bindRoleInto, boundByRole, List.append_nil]
  | cons n rest =>
    rw [bindRoleInto, boundByRole]
    by_cases h : n.role = some role
    · rw [if_pos h, if_pos h, bindInto_eq found n]
    · rw [if_neg h, if_neg h, bindRoleInto_eq found role rest]

theorem bindFirstInto_eq (found : List String) (ns : List Node) :
    bindFirstInto found ns = found ++ boundByFirst ns := by
  cases ns with
  | nil => rw [bindFirstInto, boundByFirst, List.append_nil]
  | cons n rest =>
    rw [bindFirstInto, boundByFirst]
    by_cases h : n.kind.isToken
    · rw [if_pos h, if_pos h, bindFirstInto_eq found rest]
    · rw [if_neg h, if_neg h, bindInto_eq found n]

end

theorem boundNames_eq (n : Node) :
    boundNames n =
      match n.kind with
      | .identifier | .shorthandPropertyIdentifierPattern => if n.text.isEmpty then [] else [n.text]
      | .objectPattern | .arrayPattern => boundByAll n.children
      | .pairPattern => boundByRole .value n.children
      | .assignmentPattern | .objectAssignmentPattern => boundByRole .left n.children
      | .restPattern => boundByFirst n.children
      | _ => [] := by
  cases n
  unfold boundNames
  rfl

theorem boundByRole_eq (role : Role) (ns : List Node) :
    boundByRole role ns =
      match ns.find? fun c => c.role = some role with
      | none => []
      | some target => boundNames target := by
  induction ns with
  | nil => rw [boundByRole, List.find?_nil]
  | cons c rest ih =>
    rw [boundByRole, List.find?_cons]
    by_cases h : c.role = some role
    · simp [h]
    · simp [h, ih]

theorem boundByChild_eq (n : Node) (role : Role) :
    boundByChild n role = boundByRole role n.children := by
  rw [boundByRole_eq, boundByChild, Node.child?]
  split
  · rfl
  · exact bindInto_eq [] _

end ScriptInventory.Declaration
