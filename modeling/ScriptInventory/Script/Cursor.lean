import ScriptInventory.Script.Node

/-!
# Walking a tree without a stack of calls

A cursor stands on a node of a tree and can move to the first child, to the next
sibling and to the parent. `Cursor.next?` is the node that comes next in the order
of the text, `Cursor.skip?` the one that comes next if the nodes below are left
out. Each of the two leaves fewer nodes ahead (`ahead_next?`, `ahead_skip?`), so a
walk comes to its end.
-/

namespace ScriptInventory.Script

/-- A node in a tree: its siblings to the right, and for each of its ancestors,
nearest first, the ancestor and the siblings to its right. -/
structure Cursor where
  node : Node
  right : List Node
  above : List (Node × List Node)

namespace Cursor

/-- The cursor on the root of a tree. -/
def ofRoot (root : Node) : Cursor := ⟨root, [], []⟩

def parent? (c : Cursor) : Option Node := c.above.head?.map Prod.fst

def firstChild? (c : Cursor) : Option Cursor :=
  match c.node.children with
  | [] => none
  | first :: rest => some ⟨first, rest, (c.node, c.right) :: c.above⟩

def nextSibling? (c : Cursor) : Option Cursor :=
  match c.right with
  | [] => none
  | next :: rest => some ⟨next, rest, c.above⟩

def goParent? (c : Cursor) : Option Cursor :=
  match c.above with
  | [] => none
  | (parent, right) :: above => some ⟨parent, right, above⟩

theorem goParent?_above {c p : Cursor} (h : c.goParent? = some p) :
    p.above.length < c.above.length := by
  unfold goParent? at h
  split at h
  · cases h
  · rename_i hc
    cases h
    simp [hc]

/-- The next node that is not below this one: the next sibling of the node, or of
the nearest ancestor that has one. -/
def skip? (c : Cursor) : Option Cursor :=
  match c.nextSibling? with
  | some d => some d
  | none =>
    match _h : c.goParent? with
    | none => none
    | some p => p.skip?
termination_by c.above.length
decreasing_by exact goParent?_above _h

/-- The next node: the first child if there is one. -/
def next? (c : Cursor) : Option Cursor := c.firstChild?.or c.skip?

/-- The nodes that come behind this one. -/
def behindAll (right : List Node) : List (Node × List Node) → List Node
  | [] => Node.preorderAll right
  | (_, upper) :: above => Node.preorderAll right ++ behindAll upper above

/-- The nodes that are still to come, those below this one included. -/
def toCome (c : Cursor) : List Node :=
  Node.preorderAll c.node.children ++ behindAll c.right c.above

/-- How many nodes are still to come. -/
def ahead (c : Cursor) : Nat := c.toCome.length

theorem behindAll_cons (n : Node) (right : List Node) (above : List (Node × List Node)) :
    behindAll (n :: right) above = n.preorder ++ behindAll right above := by
  cases above <;> simp [behindAll]

theorem behindAll_of_skip? {c d : Cursor} (h : c.skip? = some d) :
    behindAll c.right c.above = d.node :: d.toCome := by
  obtain ⟨node, right, above⟩ := c
  induction above generalizing node right with
  | nil =>
    cases right with
    | nil => simp [skip?, nextSibling?, goParent?] at h
    | cons n rest =>
      rw [skip?] at h
      simp only [nextSibling?, Option.some.injEq] at h
      subst h
      simp [behindAll_cons, toCome, Node.preorder_eq n]
  | cons a above ih =>
    cases right with
    | nil =>
      rw [skip?] at h
      simp only [nextSibling?, goParent?] at h
      simpa [behindAll] using ih a.1 a.2 h
    | cons n rest =>
      rw [skip?] at h
      simp only [nextSibling?, Option.some.injEq] at h
      subst h
      simp [behindAll_cons, toCome, Node.preorder_eq n]

theorem toCome_next? {c d : Cursor} (h : c.next? = some d) :
    c.toCome = d.node :: d.toCome := by
  unfold next? firstChild? at h
  split at h
  · rename_i hc
    simp only [Option.none_or] at h
    simpa [toCome, hc] using behindAll_of_skip? h
  · rename_i first rest hc
    simp only [Option.some_or, Option.some.injEq] at h
    subst h
    simp [toCome, hc, behindAll, Node.preorder_eq first]

theorem ahead_next? {c d : Cursor} (h : c.next? = some d) : d.ahead < c.ahead := by
  simp [ahead, toCome_next? h]

theorem ahead_skip? {c d : Cursor} (h : c.skip? = some d) : d.ahead < c.ahead := by
  have := congrArg List.length (behindAll_of_skip? h)
  simp only [ahead, toCome, List.length_append, List.length_cons] at *
  omega

/-- All positions of a walk from a cursor on, in order. -/
def walk {α : Type} (visit : α → Cursor → α) (start : α) (c : Cursor) : α :=
  let result := visit start c
  match _h : c.next? with
  | none => result
  | some d => walk visit result d
termination_by c.ahead
decreasing_by exact ahead_next? _h

/-- The first node for which `wanted` holds, where the nodes below a node are only
looked at if `enter` holds of it. -/
def search (wanted enter : Node → Bool) (c : Cursor) : Option Node :=
  if wanted c.node then some c.node
  else
    match _h : if enter c.node then c.next? else c.skip? with
    | none => none
    | some d => search wanted enter d
termination_by c.ahead
decreasing_by
  split at _h
  · exact ahead_next? _h
  · exact ahead_skip? _h

end Cursor

end ScriptInventory.Script
