import Mathlib.Logic.Function.Iterate
import ScriptInventory.Proofs.Walk

/-!
# The search in a tree

A search is a loop around a cursor, like a walk, but it ends at the first node that is wanted,
and it enters only some nodes. Main statement: if every node with something wanted below it is
entered, the search finds what comes first in the order of the text
(`search_ofRoot_eq_find?`).

* `Search.turn` is one turn of the loop, with the three moves of the cursor only.
* `Search.run_below` runs it over a subtree: the invariant is that the loop has ended at the
  first wanted node of the subtree, or that the cursor comes back to where it started and
  nothing of the subtree is wanted. At most two turns are needed for each node.
* `Search.run_search` ties the loop to `Cursor.search`.
-/

namespace ScriptInventory.Script

theorem Node.mem_preorder_self (n : Node) : n ∈ n.preorder := by
  rw [preorder_eq]
  exact List.mem_cons_self

namespace Cursor

/-! ## The loop -/

theorem search_eq (wanted enter : Node → Bool) (c : Cursor) :
    search wanted enter c =
      if wanted c.node then some c.node
      else (if enter c.node then c.next? else c.skip?).bind (search wanted enter) := by
  rw [search]
  split
  · rfl
  · split
    · rename_i hnone
      rw [hnone, Option.bind_none]
    · rename_i d hsome
      rw [hsome, Option.bind_some]

/-- Where the loop of a search stands. -/
inductive Search where
  /-- On a node that it has just come to. -/
  | arrived (c : Cursor)
  /-- On a node that is done, with all below it. -/
  | leaving (c : Cursor)
  | ended (found : Option Node)

namespace Search

variable (wanted enter : Node → Bool)

/-- One turn: the loop ends on a node that is wanted, and goes to the first child of one that
is entered and has children; behind a node it goes on to the right, or else up. -/
def turn : Search → Search
  | .arrived c =>
    if wanted c.node then .ended (some c.node)
    else
      match if enter c.node then c.firstChild? else none with
      | some d => .arrived d
      | none => .leaving c
  | .leaving c =>
    match c.nextSibling? with
    | some d => .arrived d
    | none =>
      match c.goParent? with
      | some p => .leaving p
      | none => .ended none
  | .ended found => .ended found

def atRoot (root : Node) : Search := .arrived (.ofRoot root)

/-- An ended loop stays as it is. -/
theorem run_ended (n : Nat) (found : Option Node) :
    (turn wanted enter)^[n] (.ended found) = .ended found :=
  Function.iterate_fixed rfl n

/-- The end that a loop comes to does not depend on how many turns it gets. -/
theorem ended_unique {s : Search} {m n : Nat} {a b : Option Node}
    (hm : (turn wanted enter)^[m] s = .ended a) (hn : (turn wanted enter)^[n] s = .ended b) :
    a = b := by
  have hboth : (turn wanted enter)^[m + n] s = .ended a := by
    rw [Nat.add_comm, Function.iterate_add_apply, hm, run_ended]
  rw [Function.iterate_add_apply, hn, run_ended] at hboth
  injection hboth with hab
  exact hab.symm

/-! ### The loop and the search -/

/-- The loop arrives at a position, or there is none and it has ended. -/
def arrivedOr : Option Cursor → Search
  | some d => .arrived d
  | none => .ended none

/-- Behind a node, the loop climbs to where `skip?` says. -/
theorem run_skip (c : Cursor) : ∃ n, (turn wanted enter)^[n] (.leaving c) = arrivedOr c.skip? := by
  induction c using skip?.induct with
  | case1 c d hd =>
    refine ⟨1, ?_⟩
    rw [skip?_eq c, hd, Option.some_or]
    simp only [Function.iterate_one, turn, hd, arrivedOr]
  | case2 c hd hp =>
    refine ⟨1, ?_⟩
    rw [skip?_eq c, hd, hp, Option.none_or, Option.bind_none]
    simp only [Function.iterate_one, turn, hd, hp, arrivedOr]
  | case3 c hd p hp ih =>
    -- no sibling: one turn up, and on from the parent
    obtain ⟨n, hn⟩ := ih
    have hturn : turn wanted enter (.leaving c) = .leaving p := by
      simp only [turn, hd, hp]
    have hskip : c.skip? = p.skip? := by
      rw [skip?_eq c, hd, hp, Option.none_or, Option.bind_some]
    refine ⟨n + 1, ?_⟩
    rw [Function.iterate_succ_apply, hturn, hn, hskip]

/-- From a node that is not wanted, the loop gets to the next one that is looked at. -/
theorem run_arrived {c : Cursor} (hwanted : wanted c.node = false) :
    ∃ n, (turn wanted enter)^[n] (.arrived c) =
      arrivedOr (if enter c.node then c.next? else c.skip?) := by
  obtain ⟨n, hn⟩ := run_skip wanted enter c
  by_cases henter : enter c.node = true
  · rw [if_pos henter]
    cases hfirst : c.firstChild? with
    | some d =>
      refine ⟨1, ?_⟩
      rw [next?, hfirst, Option.some_or]
      simp [turn, hwanted, henter, hfirst, arrivedOr]
    | none =>
      have hturn : turn wanted enter (.arrived c) = .leaving c := by
        simp [turn, hwanted, hfirst]
      refine ⟨n + 1, ?_⟩
      rw [Function.iterate_succ_apply, hturn, hn, next?, hfirst, Option.none_or]
  · have hturn : turn wanted enter (.arrived c) = .leaving c := by
      simp [turn, hwanted, henter]
    refine ⟨n + 1, ?_⟩
    rw [Function.iterate_succ_apply, hturn, hn, if_neg henter]

/-- The loop ends, with what the search finds. -/
theorem run_search (c : Cursor) :
    ∃ n, (turn wanted enter)^[n] (.arrived c) = .ended (search wanted enter c) := by
  -- on the number of nodes ahead, which both moves lower
  induction hahead : c.ahead using Nat.strongRecOn generalizing c with
  | _ k ih =>
    rw [search_eq]
    cases hwanted : wanted c.node with
    | true =>
      refine ⟨1, ?_⟩
      simp [turn, hwanted]
    | false =>
      rw [if_neg Bool.false_ne_true]
      obtain ⟨n, hn⟩ := run_arrived wanted enter hwanted
      cases hnext : if enter c.node then c.next? else c.skip? with
      | none =>
        rw [hnext] at hn
        exact ⟨n, hn⟩
      | some d =>
        rw [hnext] at hn
        have hlower : d.ahead < c.ahead := by
          split at hnext
          · exact ahead_next? hnext
          · exact ahead_skip? hnext
        obtain ⟨m, hm⟩ := ih d.ahead (hahead ▸ hlower) d rfl
        refine ⟨m + n, ?_⟩
        rw [Function.iterate_add_apply, hn, arrivedOr, hm, Option.bind_some]

/-! ## The loop over a subtree -/

/-- Where the loop stands when, of the children of a node, those in the list are still to
come. -/
def before (parent : Node) (right : List Node) (above : List (Node × List Node)) :
    List Node → Search
  | [] => .leaving ⟨parent, right, above⟩
  | n :: rest => .arrived ⟨n, rest, (parent, right) :: above⟩

/-- The loop has ended with what was found, or stands where it went on because nothing was. -/
def endedOr (found : Option Node) (s : Search) : Search :=
  match found with
  | some n => .ended (some n)
  | none => s

/-- In a subtree, every node with something below it that is wanted is entered. -/
def Leads (n : Node) : Prop :=
  ∀ m ∈ n.preorder, ∀ f ∈ Node.preorderAll m.children, wanted f = true → enter m = true

variable {wanted enter}

theorem Leads.children {n : Node} (h : Leads wanted enter n) :
    ∀ m ∈ Node.preorderAll n.children, ∀ f ∈ Node.preorderAll m.children,
      wanted f = true → enter m = true := by
  intro m hm
  apply h m
  rw [Node.preorder_eq]
  exact List.mem_cons_of_mem _ hm

/-- Nothing that is wanted is below a node that is not entered. -/
theorem Leads.find?_eq_none {n : Node} (h : Leads wanted enter n) (henter : enter n = false) :
    (Node.preorderAll n.children).find? wanted = none := by
  rw [List.find?_eq_none]
  intro f hf hwanted
  have henters := h n n.mem_preorder_self f hf hwanted
  rw [henter] at henters
  cases henters

theorem turn_arrived {n : Node} (hwanted : wanted n = false) (henter : enter n = true)
    (right : List Node) (above : List (Node × List Node)) :
    turn wanted enter (.arrived ⟨n, right, above⟩) = before n right above n.children := by
  obtain ⟨role, kind, start, text, fault, damaged, children⟩ := n
  cases children <;> simp [turn, hwanted, henter, firstChild?, before]

theorem turn_leaving (n parent : Node) (ns right : List Node)
    (above : List (Node × List Node)) :
    turn wanted enter (.leaving ⟨n, ns, (parent, right) :: above⟩) =
      before parent right above ns := by
  cases ns <;> rfl

/-- The turn on a node, given what the loop does with its children if it enters it. -/
theorem run_node {n : Node} (h : Leads wanted enter n) {right : List Node}
    {above : List (Node × List Node)}
    (hbelow : ∃ turns ≤ 2 * (Node.preorderAll n.children).length,
      (turn wanted enter)^[turns] (before n right above n.children) =
        endedOr ((Node.preorderAll n.children).find? wanted) (.leaving ⟨n, right, above⟩)) :
    ∃ turns ≤ 2 * (Node.preorderAll n.children).length + 1,
      (turn wanted enter)^[turns] (.arrived ⟨n, right, above⟩) =
        endedOr (n.preorder.find? wanted) (.leaving ⟨n, right, above⟩) := by
  rw [Node.preorder_eq]
  cases hwanted : wanted n with
  | true =>
    refine ⟨1, by omega, ?_⟩
    rw [List.find?_cons_of_pos hwanted]
    simp [turn, hwanted, endedOr]
  | false =>
    rw [List.find?_cons_of_neg (by simp [hwanted])]
    cases henter : enter n with
    | true =>
      obtain ⟨turns, hle, hturns⟩ := hbelow
      refine ⟨turns + 1, by omega, ?_⟩
      rw [Function.iterate_succ_apply, turn_arrived hwanted henter, hturns]
    | false =>
      refine ⟨1, by omega, ?_⟩
      rw [h.find?_eq_none henter]
      simp [turn, hwanted, henter, endedOr]

mutual

/-- Over a subtree: within two turns for each node below the first one and one more, the loop
has ended at the first wanted node, or nothing is wanted and the cursor is back at the first
one. -/
theorem run_below (right : List Node) (above : List (Node × List Node)) :
    ∀ n : Node, Leads wanted enter n →
      ∃ turns ≤ 2 * (Node.preorderAll n.children).length + 1,
        (turn wanted enter)^[turns] (.arrived ⟨n, right, above⟩) =
          endedOr (n.preorder.find? wanted) (.leaving ⟨n, right, above⟩)
  | ⟨_, _, _, _, _, _, children⟩, h =>
    run_node h (run_belowAll right above _ children h.children)

/-- Over the children of a node that are still to come: within two turns for each node, the
loop has ended at the first wanted one, or nothing is wanted and the cursor is back at the
parent. -/
theorem run_belowAll (right : List Node) (above : List (Node × List Node)) (parent : Node) :
    ∀ ns : List Node,
      (∀ m ∈ Node.preorderAll ns, ∀ f ∈ Node.preorderAll m.children,
        wanted f = true → enter m = true) →
      ∃ turns ≤ 2 * (Node.preorderAll ns).length,
        (turn wanted enter)^[turns] (before parent right above ns) =
          endedOr ((Node.preorderAll ns).find? wanted) (.leaving ⟨parent, right, above⟩)
  | [], _ => ⟨0, Nat.zero_le _, rfl⟩
  | n :: ns, h => by
    rw [Node.preorderAll_cons] at h ⊢
    have hfirst : Leads wanted enter n := fun m hm => h m (List.mem_append_left _ hm)
    obtain ⟨turns, hle, hturns⟩ := run_below ns ((parent, right) :: above) n hfirst
    obtain ⟨more, hmoreLe, hmore⟩ := run_belowAll right above parent ns fun m hm =>
      h m (List.mem_append_right _ hm)
    have hcount : (n.preorder ++ Node.preorderAll ns).length =
        (Node.preorderAll n.children).length + 1 + (Node.preorderAll ns).length := by
      rw [Node.preorder_eq, List.length_append, List.length_cons]
    rw [List.find?_append, hcount, before]
    cases hfind : n.preorder.find? wanted with
    | some f =>
      refine ⟨turns, by omega, ?_⟩
      rw [hturns, hfind, Option.some_or]
      rfl
    | none =>
      -- the subtree of the first child, the turn behind it, and the other children
      refine ⟨more + (1 + turns), by omega, ?_⟩
      rw [Function.iterate_add_apply, Function.iterate_add_apply, hturns, hfind, endedOr,
        Function.iterate_one, turn_leaving, hmore, Option.none_or]

end

/-- Over a whole tree the loop ends within two turns for each node. -/
theorem run_tree {root : Node} (h : Leads wanted enter root) :
    ∃ turns ≤ 2 * root.preorder.length,
      (turn wanted enter)^[turns] (atRoot root) = .ended (root.preorder.find? wanted) := by
  obtain ⟨turns, hle, hturns⟩ := run_below [] [] root h
  refine ⟨1 + turns, ?_, ?_⟩
  · rw [Node.preorder_eq, List.length_cons]
    omega
  · rw [Function.iterate_add_apply, atRoot, ofRoot, hturns]
    cases root.preorder.find? wanted <;> rfl

end Search

/-- The search from the root finds the first wanted node in the order of the text. -/
theorem search_ofRoot_eq_find? {wanted enter : Node → Bool} {root : Node}
    (h : Search.Leads wanted enter root) :
    (ofRoot root).search wanted enter = root.preorder.find? wanted := by
  obtain ⟨turns, -, hturns⟩ := Search.run_tree h
  obtain ⟨n, hn⟩ := Search.run_search wanted enter (ofRoot root)
  exact Search.ended_unique wanted enter hn hturns

end Cursor

end ScriptInventory.Script
