import Mathlib.Logic.Function.Iterate
import ScriptInventory.Declaration.Structural
import ScriptInventory.Proofs.Names

/-!
# The walk over a tree

A walk is a loop around a cursor: no stack, no recursion, only steps down, to the
right and up. Main statement: the loop ends after exactly two turns for each node, and
what it leaves is the plain recursive fold over the nodes in the order of the text
(`collectTree_eq_preorder_fold`).

* `Loop.turn` is one turn of the loop, with the three moves of the cursor only.
* `Loop.run_below` runs it over a subtree: the invariant is that the cursor comes back
  to where it started, with everything below visited once.
* `Loop.run_walk` ties the loop to `Cursor.walk`.
-/

namespace ScriptInventory.Script

/-! ## The loop -/

namespace Cursor

theorem skip?_eq (c : Cursor) : c.skip? = c.nextSibling?.or (c.goParent?.bind skip?) := by
  rw [skip?]
  split
  · rename_i d hd
    rw [hd, Option.some_or]
  · rename_i hd
    rw [hd, Option.none_or]
    split
    · rename_i hp
      rw [hp, Option.bind_none]
    · rename_i p hp
      rw [hp, Option.bind_some]

theorem walk_eq {α : Type} (visit : α → Cursor → α) (a : α) (c : Cursor) :
    walk visit a c =
      match c.next? with
      | none => visit a c
      | some d => walk visit (visit a c) d := by
  rw [walk]
  split
  · rename_i h
    rw [h]
  · rename_i d h
    rw [h]

/-- Where the loop of a walk stands. -/
inductive Stage where
  /-- On a node that it has just come to. -/
  | arrived (c : Cursor)
  /-- On a node that is done, with all below it. -/
  | leaving (c : Cursor)
  | ended

/-- The loop of a walk: where it stands, and what it has gathered. -/
structure Loop (α : Type) where
  stage : Stage
  result : α

namespace Loop

variable {α : Type} (visit : α → Cursor → α)

/-- One turn: a node is visited on arrival and entered if it has children; behind a
node the loop goes on to the right, or else up. -/
def turn (l : Loop α) : Loop α :=
  match l.stage with
  | .arrived c =>
    match c.firstChild? with
    | some d => ⟨.arrived d, visit l.result c⟩
    | none => ⟨.leaving c, visit l.result c⟩
  | .leaving c =>
    match c.nextSibling? with
    | some d => ⟨.arrived d, l.result⟩
    | none =>
      match c.goParent? with
      | some p => ⟨.leaving p, l.result⟩
      | none => ⟨.ended, l.result⟩
  | .ended => l

def atRoot (root : Node) (start : α) : Loop α := ⟨.arrived (.ofRoot root), start⟩

/-! ### The loop and the walk -/

/-- Behind a node, the loop climbs to where `skip?` says. -/
theorem run_skip (c : Cursor) (a : α) :
    ∃ n, (turn visit)^[n] ⟨.leaving c, a⟩ =
      match c.skip? with
      | some d => ⟨.arrived d, a⟩
      | none => ⟨.ended, a⟩ := by
  induction c using skip?.induct with
  | case1 c d hd =>
    refine ⟨1, ?_⟩
    simp only [Function.iterate_one, turn, skip?_eq c, hd, Option.some_or]
  | case2 c hd hp =>
    refine ⟨1, ?_⟩
    simp only [Function.iterate_one, turn, skip?_eq c, hd, hp, Option.none_or, Option.bind_none]
  | case3 c hd p hp ih =>
    -- no sibling: one turn up, and on from the parent
    obtain ⟨n, hn⟩ := ih
    have hturn : turn visit ⟨.leaving c, a⟩ = ⟨.leaving p, a⟩ := by
      simp only [turn, hd, hp]
    have hskip : c.skip? = p.skip? := by
      rw [skip?_eq c, hd, hp, Option.none_or, Option.bind_some]
    refine ⟨n + 1, ?_⟩
    rw [Function.iterate_succ_apply, hturn, hn, hskip]

/-- From a node that it arrives at, the loop gets to where `next?` says. -/
theorem run_next (c : Cursor) (a : α) :
    ∃ n, (turn visit)^[n] ⟨.arrived c, a⟩ =
      match c.next? with
      | some d => ⟨.arrived d, visit a c⟩
      | none => ⟨.ended, visit a c⟩ := by
  cases hfirst : c.firstChild? with
  | some d =>
    refine ⟨1, ?_⟩
    simp only [Function.iterate_one, turn, next?, hfirst, Option.some_or]
  | none =>
    obtain ⟨n, hn⟩ := run_skip visit c (visit a c)
    have hturn : turn visit ⟨.arrived c, a⟩ = ⟨.leaving c, visit a c⟩ := by
      simp only [turn, hfirst]
    refine ⟨n + 1, ?_⟩
    rw [Function.iterate_succ_apply, hturn, hn, next?, hfirst, Option.none_or]

/-- The loop ends, with what the walk gathers. -/
theorem run_walk (c : Cursor) (a : α) :
    ∃ n, (turn visit)^[n] ⟨.arrived c, a⟩ = ⟨.ended, walk visit a c⟩ := by
  -- on the number of nodes ahead, which `next?` lowers
  induction hahead : c.ahead using Nat.strongRecOn generalizing c a with
  | _ k ih =>
    obtain ⟨n, hn⟩ := run_next visit c a
    rw [walk_eq]
    cases hnext : c.next? with
    | none => exact ⟨n, by rw [hn, hnext]⟩
    | some d =>
      obtain ⟨m, hm⟩ := ih d.ahead (hahead ▸ ahead_next? hnext) d (visit a c) rfl
      exact ⟨m + n, by rw [Function.iterate_add_apply, hn, hnext, hm]⟩

/-- An ended loop stays as it is. -/
theorem run_ended (n : Nat) (a : α) :
    (turn visit)^[n] ⟨.ended, a⟩ = ⟨.ended, a⟩ :=
  Function.iterate_fixed rfl n

/-- The end that a loop comes to does not depend on how many turns it gets. -/
theorem ended_unique {l : Loop α} {m n : Nat} {a b : α}
    (hm : (turn visit)^[m] l = ⟨.ended, a⟩) (hn : (turn visit)^[n] l = ⟨.ended, b⟩) :
    a = b := by
  have hboth : (turn visit)^[m + n] l = ⟨.ended, a⟩ := by
    rw [Nat.add_comm, Function.iterate_add_apply, hm, run_ended]
  rw [Function.iterate_add_apply, hn, run_ended] at hboth
  injection hboth with _ hab
  exact hab.symm

end Loop

/-! ## Positions -/

mutual

/-- The positions in the subtree of a node, in the order of the text. -/
def positions (right : List Node) (above : List (Node × List Node)) : Node → List Cursor
  | ⟨role, kind, start, text, fault, damaged, children⟩ =>
    ⟨⟨role, kind, start, text, fault, damaged, children⟩, right, above⟩ ::
      positionsAll ((⟨role, kind, start, text, fault, damaged, children⟩, right) :: above)
        children

/-- The positions in several subtrees, one subtree after the other. -/
def positionsAll (above : List (Node × List Node)) : List Node → List Cursor
  | [] => []
  | n :: rest => positions rest above n ++ positionsAll above rest

end

theorem positions_eq (right : List Node) (above : List (Node × List Node)) (n : Node) :
    positions right above n =
      ⟨n, right, above⟩ :: positionsAll ((n, right) :: above) n.children := by
  cases n
  simp only [positions]

mutual

/-- The positions in a subtree are those of its nodes. -/
theorem map_node_positions (right : List Node) (above : List (Node × List Node)) :
    ∀ n : Node, (positions right above n).map node = n.preorder
  | ⟨role, kind, start, text, fault, damaged, children⟩ => by
    simp only [positions, List.map_cons, Node.preorder, map_node_positionsAll _ children]

theorem map_node_positionsAll (above : List (Node × List Node)) :
    ∀ ns : List Node, (positionsAll above ns).map node = Node.preorderAll ns
  | [] => by simp only [positionsAll, List.map_nil, Node.preorderAll_nil]
  | n :: rest => by
    simp only [positionsAll, List.map_append, Node.preorderAll_cons,
      map_node_positions rest above n, map_node_positionsAll above rest]

end

namespace Loop

variable {α : Type} (visit : α → Cursor → α)

/-- Where the loop stands when, of the children of a node, those in the list are still
to come. -/
def before (parent : Node) (right : List Node) (above : List (Node × List Node)) :
    List Node → Stage
  | [] => .leaving ⟨parent, right, above⟩
  | n :: rest => .arrived ⟨n, rest, (parent, right) :: above⟩

theorem turn_arrived (n : Node) (right : List Node) (above : List (Node × List Node)) (a : α) :
    turn visit ⟨.arrived ⟨n, right, above⟩, a⟩ =
      ⟨before n right above n.children, visit a ⟨n, right, above⟩⟩ := by
  obtain ⟨role, kind, start, text, fault, damaged, children⟩ := n
  cases children <;> rfl

theorem turn_leaving (n parent : Node) (ns right : List Node)
    (above : List (Node × List Node)) (a : α) :
    turn visit ⟨.leaving ⟨n, ns, (parent, right) :: above⟩, a⟩ =
      ⟨before parent right above ns, a⟩ := by
  cases ns <;> rfl

mutual

/-- Over a subtree: two turns for each node below the first one and one more, and the
cursor is back at the node, with every position visited once. -/
theorem run_below (right : List Node) (above : List (Node × List Node)) :
    ∀ (n : Node) (a : α),
      (turn visit)^[2 * (Node.preorderAll n.children).length + 1]
          ⟨.arrived ⟨n, right, above⟩, a⟩ =
        ⟨.leaving ⟨n, right, above⟩, (positions right above n).foldl visit a⟩
  | ⟨role, kind, start, text, fault, damaged, children⟩, a => by
    rw [Function.iterate_succ_apply, turn_arrived,
      run_belowAll right above ⟨role, kind, start, text, fault, damaged, children⟩ children,
      positions_eq, List.foldl_cons]

/-- Over the children of a node that are still to come: two turns for each node, and
the cursor is back at the parent. -/
theorem run_belowAll (right : List Node) (above : List (Node × List Node)) (parent : Node) :
    ∀ (ns : List Node) (a : α),
      (turn visit)^[2 * (Node.preorderAll ns).length] ⟨before parent right above ns, a⟩ =
        ⟨.leaving ⟨parent, right, above⟩,
          (positionsAll ((parent, right) :: above) ns).foldl visit a⟩
  | [], a => by
    rw [Node.preorderAll_nil, positionsAll]
    rfl
  | n :: ns, a => by
    have hcount : 2 * (Node.preorderAll (n :: ns)).length =
        2 * (Node.preorderAll ns).length +
          (1 + (2 * (Node.preorderAll n.children).length + 1)) := by
      rw [Node.preorderAll_cons, Node.preorder_eq, List.length_append, List.length_cons]
      omega
    -- the subtree of the first child, the turn behind it, and the other children
    rw [hcount, Function.iterate_add_apply, Function.iterate_add_apply, before,
      run_below ns ((parent, right) :: above) n, Function.iterate_one, turn_leaving,
      run_belowAll right above parent ns, positionsAll, List.foldl_append]

end

/-- The loop over a whole tree ends after exactly two turns for each node. -/
theorem run_tree (root : Node) (a : α) :
    (turn visit)^[2 * root.preorder.length] (atRoot root a) =
      ⟨.ended, (positions [] [] root).foldl visit a⟩ := by
  have hcount : 2 * root.preorder.length =
      1 + (2 * (Node.preorderAll root.children).length + 1) := by
    rw [Node.preorder_eq, List.length_cons]
    omega
  rw [hcount, Function.iterate_add_apply, atRoot, ofRoot, run_below visit [] [] root a]
  rfl

end Loop

/-- A walk from the root is a fold over all positions. -/
theorem walk_ofRoot {α : Type} (visit : α → Cursor → α) (root : Node) (a : α) :
    walk visit a (ofRoot root) = (positions [] [] root).foldl visit a := by
  obtain ⟨n, hn⟩ := Loop.run_walk visit (ofRoot root) a
  exact Loop.ended_unique visit hn (Loop.run_tree visit root a)

end Cursor

end ScriptInventory.Script

/-! ## Nodes below their parents -/

namespace ScriptInventory.Script.Node

mutual

/-- The nodes of a subtree in the order of the text, each with the kind of its parent. -/
def placed (parent : Option Kind) : Node → List (Option Kind × Node)
  | ⟨role, kind, start, text, fault, damaged, children⟩ =>
    (parent, ⟨role, kind, start, text, fault, damaged, children⟩) :: placedAll kind children

/-- The nodes of several subtrees with the same parent. -/
def placedAll (parent : Kind) : List Node → List (Option Kind × Node)
  | [] => []
  | n :: rest => placed (some parent) n ++ placedAll parent rest

end

theorem placedAll_eq_flatMap (parent : Kind) (ns : List Node) :
    placedAll parent ns = ns.flatMap (placed (some parent)) := by
  induction ns with
  | nil => simp [placedAll]
  | cons n rest ih => simp [placedAll, ih]

theorem placed_eq (parent : Option Kind) (n : Node) :
    n.placed parent = (parent, n) :: n.children.flatMap (placed (some n.kind)) := by
  cases n
  simp only [placed, placedAll_eq_flatMap]

mutual

theorem map_snd_placed (parent : Option Kind) :
    ∀ n : Node, (n.placed parent).map Prod.snd = n.preorder
  | ⟨role, kind, start, text, fault, damaged, children⟩ => by
    simp only [placed, preorder, List.map_cons, map_snd_placedAll kind children]

theorem map_snd_placedAll (parent : Kind) :
    ∀ ns : List Node, (placedAll parent ns).map Prod.snd = preorderAll ns
  | [] => by simp only [placedAll, preorderAll, List.map_nil]
  | n :: rest => by
    simp only [placedAll, preorderAll, List.map_append, map_snd_placed (some parent) n,
      map_snd_placedAll parent rest]

end

end ScriptInventory.Script.Node

/-! ## Declarations below a node -/

namespace ScriptInventory.Declaration

open Script

/-- Records what a node below a given parent declares. -/
def collectAt (parent : Option Kind) (n : Node) (i : Inventory) : Inventory :=
  match Shape.classify parent n with
  | some shape => collect shape n i
  | none => i

/-- The names of a kind that a node below a given parent declares. -/
def declaredAt (k : SymbolKind) (parent : Option Kind) (n : Node) : List String :=
  match Shape.classify parent n with
  | some shape => if shape.kind = k then names shape n else []
  | none => []

mutual

/-- Records the declarations of a subtree: those of the node, then those below it. -/
def collectBelow (parent : Option Kind) : Node → Inventory → Inventory
  | ⟨role, kind, start, text, fault, damaged, children⟩, i =>
    collectBelowAll kind children
      (collectAt parent ⟨role, kind, start, text, fault, damaged, children⟩ i)

/-- Records the declarations of several subtrees with the same parent. -/
def collectBelowAll (parent : Kind) : List Node → Inventory → Inventory
  | [], i => i
  | n :: rest, i => collectBelowAll parent rest (collectBelow (some parent) n i)

end

mutual

/-- The names of a kind that a subtree declares, in the order of the text and with
repetitions. -/
def declaredBelow (k : SymbolKind) (parent : Option Kind) : Node → List String
  | ⟨role, kind, start, text, fault, damaged, children⟩ =>
    declaredAt k parent ⟨role, kind, start, text, fault, damaged, children⟩ ++
      declaredBelowAll k kind children

/-- The names of a kind that several subtrees with the same parent declare. -/
def declaredBelowAll (k : SymbolKind) (parent : Kind) : List Node → List String
  | [] => []
  | n :: rest => declaredBelow k (some parent) n ++ declaredBelowAll k parent rest

end

theorem collectBelow_eq (parent : Option Kind) (n : Node) (i : Inventory) :
    collectBelow parent n i = collectBelowAll n.kind n.children (collectAt parent n i) := by
  cases n
  simp only [collectBelow]

theorem declaredBelow_eq (k : SymbolKind) (parent : Option Kind) (n : Node) :
    declaredBelow k parent n = declaredAt k parent n ++ declaredBelowAll k n.kind n.children := by
  cases n
  simp only [declaredBelow]

mutual

/-- A subtree declares what its nodes declare where they are placed. -/
theorem declaredBelow_eq_flatMap (k : SymbolKind) (parent : Option Kind) :
    ∀ n : Node, declaredBelow k parent n = (n.placed parent).flatMap fun a => declaredAt k a.1 a.2
  | ⟨role, kind, start, text, fault, damaged, children⟩ => by
    simp only [declaredBelow, Node.placed, List.flatMap_cons,
      declaredBelowAll_eq_flatMap k kind children]

theorem declaredBelowAll_eq_flatMap (k : SymbolKind) (parent : Kind) :
    ∀ ns : List Node, declaredBelowAll k parent ns =
      (Node.placedAll parent ns).flatMap fun a => declaredAt k a.1 a.2
  | [] => by simp only [declaredBelowAll, Node.placedAll, List.flatMap_nil]
  | n :: rest => by
    simp only [declaredBelowAll, Node.placedAll, List.flatMap_append,
      declaredBelow_eq_flatMap k (some parent) n, declaredBelowAll_eq_flatMap k parent rest]

end

theorem visit_eq_collectAt (i : Inventory) (c : Cursor) :
    visit i c = collectAt (c.parent?.map Node.kind) c.node i := rfl

@[simp] theorem source_collectAt (parent : Option Kind) (n : Node) (i : Inventory) :
    (collectAt parent n i).source = i.source := by
  unfold collectAt
  split
  · exact Inventory.source_recordAll i _ _
  · rfl

theorem toList_collectAt (k : SymbolKind) (parent : Option Kind) (n : Node) (i : Inventory) :
    ((collectAt parent n i).names k).toList =
      firstOccurrences ((i.names k).toList ++ declaredAt k parent n) := by
  unfold collectAt declaredAt
  split
  · exact Inventory.toList_recordAll i _ k _
  · rw [List.append_nil, firstOccurrences_of_nodup (i.names k).nodup]

mutual

/-- Folding over the positions of a subtree is recording its declarations. -/
theorem foldl_visit_positions (right : List Node) (above : List (Node × List Node)) :
    ∀ (n : Node) (i : Inventory),
      (Cursor.positions right above n).foldl visit i =
        collectBelow ((above.head?.map Prod.fst).map Node.kind) n i
  | ⟨role, kind, start, text, fault, damaged, children⟩, i => by
    rw [Cursor.positions_eq, List.foldl_cons, foldl_visit_positionsAll right above _ children,
      collectBelow_eq, visit_eq_collectAt]
    rfl

theorem foldl_visit_positionsAll (right : List Node) (above : List (Node × List Node))
    (parent : Node) :
    ∀ (ns : List Node) (i : Inventory),
      (Cursor.positionsAll ((parent, right) :: above) ns).foldl visit i =
        collectBelowAll parent.kind ns i
  | [], i => by simp only [Cursor.positionsAll, List.foldl_nil, collectBelowAll]
  | n :: rest, i => by
    rw [Cursor.positionsAll, List.foldl_append,
      foldl_visit_positions rest ((parent, right) :: above) n,
      foldl_visit_positionsAll right above parent rest, collectBelowAll]
    rfl

end

/-- The walk over a tree records what the plain recursion records. -/
theorem collectTree_eq_collectBelow (root : Node) (i : Inventory) :
    collectTree root i = collectBelow none root i := by
  rw [collectTree, Cursor.walk_ofRoot, foldl_visit_positions]
  rfl

mutual

@[simp] theorem source_collectBelow (parent : Option Kind) :
    ∀ (n : Node) (i : Inventory), (collectBelow parent n i).source = i.source
  | ⟨role, kind, start, text, fault, damaged, children⟩, i => by
    rw [collectBelow_eq, source_collectBelowAll kind children, source_collectAt]

@[simp] theorem source_collectBelowAll (parent : Kind) :
    ∀ (ns : List Node) (i : Inventory), (collectBelowAll parent ns i).source = i.source
  | [], i => by rw [collectBelowAll]
  | n :: rest, i => by
    rw [collectBelowAll, source_collectBelowAll parent rest, source_collectBelow (some parent) n]

end

mutual

/-- Recording a subtree adds the names that it declares. -/
theorem toList_collectBelow (k : SymbolKind) (parent : Option Kind) :
    ∀ (n : Node) (i : Inventory),
      ((collectBelow parent n i).names k).toList =
        firstOccurrences ((i.names k).toList ++ declaredBelow k parent n)
  | ⟨role, kind, start, text, fault, damaged, children⟩, i => by
    rw [collectBelow_eq, toList_collectBelowAll k kind children, toList_collectAt,
      firstOccurrences_append_left, List.append_assoc, declaredBelow_eq]

theorem toList_collectBelowAll (k : SymbolKind) (parent : Kind) :
    ∀ (ns : List Node) (i : Inventory),
      ((collectBelowAll parent ns i).names k).toList =
        firstOccurrences ((i.names k).toList ++ declaredBelowAll k parent ns)
  | [], i => by
    rw [collectBelowAll, declaredBelowAll, List.append_nil,
      firstOccurrences_of_nodup (i.names k).nodup]
  | n :: rest, i => by
    rw [collectBelowAll, toList_collectBelowAll k parent rest,
      toList_collectBelow k (some parent) n, firstOccurrences_append_left, List.append_assoc,
      declaredBelowAll]

end

theorem source_collectTree (root : Node) (i : Inventory) :
    (collectTree root i).source = i.source := by
  rw [collectTree_eq_collectBelow, source_collectBelow]

/-- The names of a kind after a walk: those that were there, and those that the tree
declares, each where it first occurs. -/
theorem toList_collectTree (root : Node) (i : Inventory) (k : SymbolKind) :
    ((collectTree root i).names k).toList =
      firstOccurrences ((i.names k).toList ++ declaredBelow k none root) := by
  rw [collectTree_eq_collectBelow, toList_collectBelow]

/-- **The walk is the recursive fold.** For every tree and every inventory to start
from, the loop around the cursor ends after two turns for each node; it comes to every
node once, in the order of the text; and what it leaves is what the recursion over
classification and collection leaves: of each kind, the first occurrences of the names
that were there and of those that the nodes declare. The source unit stays. -/
theorem collectTree_eq_preorder_fold (root : Node) (i : Inventory) :
    (Cursor.Loop.turn visit)^[2 * root.preorder.length] (.atRoot root i) =
        ⟨.ended, collectTree root i⟩ ∧
      (Cursor.Loop.turn fun seen c => seen ++ [c.node])^[2 * root.preorder.length]
          (.atRoot root []) = ⟨.ended, root.preorder⟩ ∧
      collectTree root i = collectBelow none root i ∧
      (∀ k, ((collectTree root i).names k).toList =
        firstOccurrences ((i.names k).toList ++ declaredBelow k none root)) ∧
      (collectTree root i).source = i.source := by
  refine ⟨?_, ?_, collectTree_eq_collectBelow root i, toList_collectTree root i,
    source_collectTree root i⟩
  · rw [Cursor.Loop.run_tree, collectTree, Cursor.walk_ofRoot]
  · have hfold : ∀ (cs : List Cursor) (seen : List Node),
        cs.foldl (fun seen c => seen ++ [c.node]) seen = seen ++ cs.map Cursor.node := by
      intro cs
      induction cs with
      | nil => intro seen; simp
      | cons c rest ih => intro seen; simp [ih]
    rw [Cursor.Loop.run_tree, hfold, List.nil_append, Cursor.map_node_positions]

end ScriptInventory.Declaration
