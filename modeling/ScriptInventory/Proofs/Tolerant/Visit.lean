import ScriptInventory.Proofs.Tolerant.Tree
import ScriptInventory.Proofs.Walk

/-!
# The nodes of a tree

A tree is visited in a role and perhaps under a new kind, which the step that it fills gives
(`Visit`). What a visit gives is one node, or else what the visits below it give. So nothing
that is visited is lost: the nodes that it gives are placed in the syntax tree of the whole
(`placed_of_leads`), and a position that a sound tree covers is covered by a leaf that is
visited (`exists_leaf`).
-/

namespace ScriptInventory.Script.Tolerant

open Grammar

variable {x : Context}

/-- A tree with the kind and the role that the step it fills gives its nodes. -/
structure Visit where
  renamed : Option Kind
  role : Option Role
  tree : Tree

/-- The kinds and roles that the steps of a tree give. -/
def Tree.names (x : Context) (t : Tree) : List (Option Kind × Option Role) :=
  ((t.production.bind fun p => x.automaton.grammar.productions[p]?).map
    fun p => p.slots.toList).getD [] |>.map fun s => (s.renamed, s.role)

/-- Visits of the children of a tree; `role` is the role of a hidden parent. -/
def visits (names : List (Option Kind × Option Role)) (role : Option Role) :
    List Tree → List Visit
  | [] => []
  | t :: rest =>
    if t.extra then ⟨none, none, t⟩ :: visits names role rest
    else
      ⟨names.head?.bind Prod.fst, (names.head?.bind Prod.snd).or role, t⟩ ::
        visits names.tail role rest

namespace Visit

def nodes (x : Context) (v : Visit) : List Node := v.tree.nodes x v.renamed v.role

/-- Whether a visit gives a node of its own. -/
def hasNode (v : Visit) : Bool := v.tree.visible || v.renamed.isSome

def below (x : Context) (v : Visit) : List Visit :=
  visits (v.tree.names x) (if v.hasNode then none else v.role) v.tree.children

/-- The node of a visit that has one. -/
def node (x : Context) (v : Visit) : Node :=
  let kind := v.renamed.getD (v.tree.kind x)
  let fault :=
    if v.tree.missing then some .missing
    else if v.tree.label = .error then some .error else none
  ⟨v.role, kind, x.text.place v.tree.start, v.tree.source x kind, fault, 0 < v.tree.cost,
    (v.below x).flatMap (nodes x)⟩

end Visit

theorem nodesAll_eq_flatMap (slots : List Slot) (role : Option Role) (trees : List Tree) :
    Tree.nodesAll x slots role trees =
      (visits (slots.map fun s => (s.renamed, s.role)) role trees).flatMap (Visit.nodes x) := by
  induction trees generalizing slots with
  | nil => simp [Tree.nodesAll, visits]
  | cons t rest ih =>
    rw [Tree.nodesAll.eq_def, visits]
    dsimp only
    cases t.extra with
    | true =>
      rw [if_pos rfl, if_pos rfl, List.flatMap_cons, ih]
      rfl
    | false =>
      rw [if_neg Bool.false_ne_true, if_neg Bool.false_ne_true, List.flatMap_cons]
      cases slots with
      | nil => exact congrArg _ (ih [])
      | cons s slots => exact congrArg _ (ih slots)

namespace Visit

variable {v u : Visit}

theorem nodes_of_hasNode (h : v.hasNode) : v.nodes x = [v.node x] := by
  obtain ⟨renamed, role, t⟩ := v
  obtain ⟨label, children, production, reach, start, stop, extra, missing, keyword, visible,
    damage, weight, shown, shownBelow⟩ := t
  have hcond : (visible || renamed.isSome) = true := h
  rw [nodes, node, below, h, if_pos rfl]
  dsimp only
  rw [Tree.nodes, if_pos hcond, nodesAll_eq_flatMap]
  rfl

theorem nodes_of_not (h : v.hasNode = false) : v.nodes x = (v.below x).flatMap (nodes x) := by
  obtain ⟨renamed, role, t⟩ := v
  obtain ⟨label, children, production, reach, start, stop, extra, missing, keyword, visible,
    damage, weight, shown, shownBelow⟩ := t
  have hcond : ¬(visible || renamed.isSome) = true := by
    rw [show (visible || renamed.isSome) = false from h]
    exact Bool.false_ne_true
  rw [nodes, below, h, if_neg Bool.false_ne_true]
  dsimp only
  rw [Tree.nodes, if_neg hcond, nodesAll_eq_flatMap]
  rfl

end Visit

/-! ## Visits of children -/

/-- Every child is visited. -/
theorem exists_mem_visits (names : List (Option Kind × Option Role)) (role : Option Role)
    {trees : List Tree} {t : Tree} (ht : t ∈ trees) :
    ∃ u ∈ visits names role trees, u.tree = t := by
  induction trees generalizing names with
  | nil => cases ht
  | cons c rest ih =>
    rw [visits]
    split <;> rcases List.mem_cons.1 ht with rfl | ht
    · exact ⟨_, List.mem_cons_self, rfl⟩
    · obtain ⟨u, hu, heq⟩ := ih names ht
      exact ⟨u, List.mem_cons_of_mem _ hu, heq⟩
    · exact ⟨_, List.mem_cons_self, rfl⟩
    · obtain ⟨u, hu, heq⟩ := ih names.tail ht
      exact ⟨u, List.mem_cons_of_mem _ hu, heq⟩

/-! ## Where nodes are placed -/

namespace Visit

variable {v u : Visit}

/-- What a visit below gives is below what the visit gives. -/
theorem placed_of_mem_below (h : u ∈ v.below x) (parent : Option Kind) :
    ∃ parent', ∀ a ∈ (u.nodes x).flatMap (Node.placed parent'),
      a ∈ (v.nodes x).flatMap (Node.placed parent) := by
  cases hnode : v.hasNode with
  | true =>
    refine ⟨some (v.node x).kind, fun a ha => ?_⟩
    rw [nodes_of_hasNode hnode, List.flatMap_singleton, Node.placed_eq]
    obtain ⟨n, hn, ha⟩ := List.mem_flatMap.1 ha
    exact List.mem_cons_of_mem _ (List.mem_flatMap.2 ⟨n, List.mem_flatMap.2 ⟨u, h, hn⟩, ha⟩)
  | false =>
    refine ⟨parent, fun a ha => ?_⟩
    rw [nodes_of_not hnode]
    obtain ⟨n, hn, ha⟩ := List.mem_flatMap.1 ha
    exact List.mem_flatMap.2 ⟨n, List.mem_flatMap.2 ⟨u, h, hn⟩, ha⟩

/-- One visit comes below another one, or is it. -/
def Leads (x : Context) : Visit → Visit → Prop :=
  Relation.ReflTransGen fun v u => u ∈ v.below x

theorem placed_of_leads (h : Leads x v u) (parent : Option Kind) :
    ∃ parent', ∀ a ∈ (u.nodes x).flatMap (Node.placed parent'),
      a ∈ (v.nodes x).flatMap (Node.placed parent) := by
  induction h with
  | refl => exact ⟨parent, fun a ha => ha⟩
  | tail _ hbelow ih =>
    obtain ⟨middle, hmiddle⟩ := ih
    obtain ⟨parent', hparent'⟩ := placed_of_mem_below hbelow middle
    exact ⟨parent', fun a ha => hmiddle a (hparent' a ha)⟩

end Visit

/-! ## Leaves and positions -/

/-- A position is in the blanks in front of a tree or in the tree. -/
def Tree.Covers (t : Tree) (i : Nat) : Prop := t.reach ≤ i ∧ i < t.stop

theorem Abreast.exists_covers {i j k : Nat} {trees : List Tree} (h : Abreast i trees j)
    (hi : i ≤ k) (hj : k < j) : ∃ t ∈ trees, t.Covers k := by
  induction trees generalizing i with
  | nil =>
    obtain rfl : i = j := h
    omega
  | cons t rest ih =>
    by_cases hk : k < t.stop
    · exact ⟨t, List.mem_cons_self, h.1 ▸ hi, hk⟩
    · obtain ⟨u, hu, hcovers⟩ := ih h.2 (Nat.le_of_not_lt hk)
      exact ⟨u, List.mem_cons_of_mem _ hu, hcovers⟩

/-- A position in a sound tree is in a leaf that is visited: in the tree itself, or below a
branch. -/
theorem Tree.Sound.exists_leaf {t : Tree} (h : t.Sound x) {k : Nat} (hk : t.Covers k)
    (v : Visit) (hv : v.tree = t) : (∃ n terminal, t.IsLeaf x n terminal) ∨
      ∃ w, v.Leads x w ∧ ∃ u ∈ w.below x,
        (∃ n terminal, u.tree.IsLeaf x n terminal) ∧ u.tree.Covers k := by
  induction h generalizing v with
  | leaf h => exact .inl ⟨_, _, h⟩
  | @branch t c noted filled h below ih =>
    right
    obtain ⟨child, hchild, hcovers⟩ := h.abreast.exists_covers hk.1 hk.2
    obtain ⟨u, hu, rfl⟩ : ∃ u ∈ v.below x, u.tree = child :=
      exists_mem_visits _ _ (hv ▸ hchild)
    rcases ih u.tree hchild hcovers u rfl with hleaf | ⟨w, hleads, hw⟩
    · exact ⟨v, .refl, u, hu, hleaf, hcovers⟩
    · exact ⟨w, .head hu hleads, hw⟩

end ScriptInventory.Script.Tolerant
