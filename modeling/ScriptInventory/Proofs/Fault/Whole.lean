import ScriptInventory.Proofs.Plain.Sound
import ScriptInventory.Proofs.Tolerant.Keyword
import ScriptInventory.Script.Parse

/-!
# Trees of texts

Two facts about the tree of a text. A text that is parsed has a tree without faults
(`whole_of_parse`): the reader of plain scripts makes none, and what the tolerant reader does
not mark as damaged follows the grammar (`Tolerant.whole_of_read`). And every node of a tree,
be the text damaged or not, starts at a place of the text and has only characters of it
(`isOf_of_tree`).
-/

namespace ScriptInventory.Script

/-! ## Whole nodes -/

namespace Node

/-- A node that is no fault and has none below it. -/
def Whole (n : Node) : Prop := ∀ m ∈ n.preorder, m.fault = none

theorem whole_of_children {n : Node} (hfault : n.fault = none)
    (hbelow : ∀ c ∈ n.children, c.Whole) : n.Whole := by
  intro m hm
  rw [preorder_eq] at hm
  rcases List.mem_cons.1 hm with rfl | hm
  · exact hfault
  · obtain ⟨c, hc, hm⟩ := mem_preorderAll.1 hm
    exact hbelow c hc m hm

/-- A node that starts at a place of a text and has only characters of the text. -/
def IsOf (text : String) (n : Node) : Prop :=
  Place.IsIn text n.start ∧ n.text.toList ⊆ text.toList

theorem preorderAll_append (a b : List Node) :
    preorderAll (a ++ b) = preorderAll a ++ preorderAll b := by
  induction a with
  | nil => simp
  | cons n a ih => simp [ih]

end Node

/-! ## The tolerant reader -/

namespace Tolerant

open Grammar Node

variable {x : Context}

theorem tree_mem_of_mem_visits {names : List (Option Kind × Option Role)} {role : Option Role}
    {trees : List Tree} {u : Visit} (hu : u ∈ visits names role trees) : u.tree ∈ trees := by
  induction trees generalizing names with
  | nil => cases hu
  | cons t rest ih =>
    rw [visits] at hu
    split at hu
    · rcases List.mem_cons.1 hu with rfl | hu
      · exact List.mem_cons_self
      · exact List.mem_cons_of_mem _ (ih hu)
    · rcases List.mem_cons.1 hu with rfl | hu
      · exact List.mem_cons_self
      · exact List.mem_cons_of_mem _ (ih hu)

/-- The nodes of a visit are whole if its tree is no fault and what is below it is whole. -/
theorem Visit.whole_nodes {v : Visit} (hmissing : v.tree.missing = false)
    (hlabel : v.tree.label ≠ .error) (hbelow : ∀ u ∈ v.below x, ∀ n ∈ u.nodes x, n.Whole) :
    ∀ n ∈ v.nodes x, n.Whole := by
  have hchildren : ∀ n ∈ (v.below x).flatMap (Visit.nodes x), n.Whole := by
    intro n hn
    obtain ⟨u, hu, hn⟩ := List.mem_flatMap.1 hn
    exact hbelow u hu n hn
  cases hnode : v.hasNode with
  | true =>
    rw [nodes_of_hasNode hnode]
    intro n hn
    obtain rfl := List.mem_singleton.1 hn
    apply whole_of_children
    · simp [Visit.node, hmissing, hlabel]
    · exact hchildren
  | false =>
    rw [nodes_of_not hnode]
    exact hchildren

/-- A tree that follows the grammar gives whole nodes. -/
theorem Tree.Sound.whole_nodes {t : Tree} (h : t.Sound x) {v : Visit} (hv : v.tree = t) :
    ∀ n ∈ v.nodes x, n.Whole := by
  induction h generalizing v with
  | leaf h =>
    subst hv
    have hlabel : v.tree.label ≠ .error := by
      rw [h.label]
      simp
    apply Visit.whole_nodes h.missing hlabel
    intro u hu
    have hmem := tree_mem_of_mem_visits hu
    rw [h.children] at hmem
    cases hmem
  | branch h below ih =>
    subst hv
    have hlabel : v.tree.label ≠ .error := by
      rw [h.label]
      simp
    apply Visit.whole_nodes h.missing hlabel
    intro u hu
    exact ih u.tree (tree_mem_of_mem_visits hu) rfl

theorem IsRoot.whole_nodes {root : Tree} (h : IsRoot x root) :
    ∀ n ∈ (Visit.ofRoot root).nodes x, n.Whole := by
  have hlabel : root.label ≠ .error := by
    rw [h.label]
    simp
  apply Visit.whole_nodes (v := .ofRoot root) h.missing hlabel
  intro u hu
  exact (h.sound u.tree (tree_mem_of_mem_visits hu)).whole_nodes rfl

/-- What the tolerant reader does not mark as damaged has no fault. -/
theorem whole_of_read {text : String} (h : (read text).damaged = false) :
    (read text).Whole := by
  cases hbest : (drive (.ofText text) (fuelFor text) .initial 0).best with
  | none =>
    rw [damaged_of_best hbest] at h
    cases h
  | some root =>
    have hfinished := isFinished_of_drive (reads_ofText text) (fuelFor text) hbest
    obtain ⟨hnodes, hroot⟩ := hfinished.nodes_eq (x := .ofText text) rfl
    rw [read_of_best hbest] at h ⊢
    have hcost : root.cost = 0 := by
      rw [hroot] at h
      exact Nat.eq_zero_of_not_pos (of_decide_eq_false h)
    apply (hfinished.isRoot hcost).whole_nodes
    rw [hnodes]
    exact List.mem_cons_self

/-! ### Places -/

theorem Tree.source_subset (t : Tree) (kind : Kind) :
    (t.source x kind).toList ⊆ x.text.rest t.start := by
  unfold source
  split
  · rw [String.toList_ofList, Text.between]
    exact List.take_subset _ _
  · exact List.nil_subset _

theorem isIn_place (text : String) (i : Nat) :
    Place.IsIn text ((Text.ofString text).place i) := by
  by_cases h : i ≤ text.toList.length
  · rw [Text.place_ofString text h]
    exact Place.isIn_after (List.take_append_drop i text.toList).symm
  · -- behind the end of the text there are no places
    have hsize : (Text.ofString text).places.size = text.toList.length + 1 := by
      rw [← Array.length_toList, Text.ofString,
        (Text.toList_go text.toList #[] #[] #[] .start 0).2]
      simp
    rw [Text.place, Array.getD_eq_getD_getElem?, Array.getElem?_eq_none (by omega)]
    exact Place.isIn_start text

mutual

/-- The nodes of a tree start at positions and have only characters that stand there. -/
theorem exists_position (renamed : Option Kind) (role : Option Role) :
    ∀ t : Tree, ∀ n ∈ preorderAll (t.nodes x renamed role),
      ∃ i, n.start = x.text.place i ∧ n.text.toList ⊆ x.text.rest i
  | ⟨label, children, production, reach, start, stop, extra, missing, keyword, visible,
      damage, weight, shown, shownBelow⟩, n, hn => by
    rw [Tree.nodes] at hn
    dsimp only at hn
    split at hn
    · rw [preorderAll_cons, preorder_eq, preorderAll_nil, List.append_nil] at hn
      rcases List.mem_cons.1 hn with rfl | hn
      · exact ⟨start, rfl, Tree.source_subset _ _⟩
      · exact exists_position_all _ none children n hn
    · exact exists_position_all _ role children n hn

/-- So do those of several trees. -/
theorem exists_position_all (slots : List Grammar.Slot) (role : Option Role) :
    ∀ trees : List Tree, ∀ n ∈ preorderAll (Tree.nodesAll x slots role trees),
      ∃ i, n.start = x.text.place i ∧ n.text.toList ⊆ x.text.rest i
  | [], n, hn => by
    rw [Tree.nodesAll] at hn
    cases hn
  | t :: rest, n, hn => by
    have hfirst : ∀ renamed role, n ∈ preorderAll (t.nodes x renamed role) →
        ∃ i, n.start = x.text.place i ∧ n.text.toList ⊆ x.text.rest i :=
      fun renamed role => exists_position renamed role t n
    have hrest : ∀ slots, n ∈ preorderAll (Tree.nodesAll x slots role rest) →
        ∃ i, n.start = x.text.place i ∧ n.text.toList ⊆ x.text.rest i :=
      fun slots => exists_position_all slots role rest n
    rw [Tree.nodesAll.eq_def] at hn
    dsimp only at hn
    split at hn
    · rw [preorderAll_append, List.mem_append] at hn
      exact hn.elim (hfirst _ _) (hrest _)
    · split at hn
      · rw [preorderAll_append, List.mem_append] at hn
        exact hn.elim (hfirst _ _) (hrest _)
      · rw [preorderAll_append, List.mem_append] at hn
        exact hn.elim (hfirst _ _) (hrest _)

end

/-- Whatever the tolerant reader finds in a text, it starts at a place of the text and has
only characters of the text. -/
theorem isOf_of_read (text : String) : ∀ n ∈ (read text).preorder, n.IsOf text := by
  intro n hn
  cases hbest : (drive (.ofText text) (fuelFor text) .initial 0).best with
  | none =>
    rw [read_of_none hbest, preorder_eq] at hn
    obtain rfl := List.mem_singleton.1 hn
    exact ⟨Place.isIn_start text, List.nil_subset _⟩
  | some root =>
    rw [read_of_best hbest, Tree.toNode] at hn
    cases hnodes : root.nodes (.ofText text) none none with
    | nil =>
      rw [hnodes] at hn
      obtain rfl := List.mem_singleton.1 hn
      exact ⟨Place.isIn_start text, List.nil_subset _⟩
    | cons first rest =>
      rw [hnodes] at hn
      have hmem : n ∈ preorderAll (root.nodes (.ofText text) none none) := by
        rw [hnodes, preorderAll_cons]
        exact List.mem_append_left _ hn
      obtain ⟨i, hi, htext⟩ := exists_position none none root n hmem
      change n.text.toList ⊆ (Text.ofString text).rest i at htext
      rw [Text.rest_ofString] at htext
      exact ⟨hi ▸ isIn_place text i, List.Subset.trans htext (List.drop_subset i _)⟩

end Tolerant

/-! ## Texts -/

/-- Every node in the tree of a text starts at a place of the text and has only characters of
the text. -/
theorem isOf_of_tree (text : String) : ∀ n ∈ (tree text).preorder, n.IsOf text := by
  intro n hn
  unfold tree at hn
  cases hplain : Plain.read? text with
  | some root =>
    rw [hplain] at hn
    exact (Plain.sound_of_read? hplain n hn).2
  | none =>
    rw [hplain] at hn
    exact Tolerant.isOf_of_read text n hn

theorem isIn_of_tree (text : String) : ∀ n ∈ (tree text).preorder, Place.IsIn text n.start :=
  fun n hn => (isOf_of_tree text n hn).1

/-- A tree of a text that is not marked as damaged has no fault. -/
theorem whole_of_tree {text : String} (h : (tree text).damaged = false) : (tree text).Whole := by
  unfold tree at h ⊢
  cases hplain : Plain.read? text with
  | some root => exact fun n hn => (Plain.sound_of_read? hplain n hn).1
  | none =>
    rw [hplain] at h
    exact Tolerant.whole_of_read h

/-- What a text is parsed to is its tree, and that has no fault. -/
theorem whole_of_parse {text : String} {t : Node} (h : parse text = .ok t) :
    t = tree text ∧ t.Whole := by
  unfold parse Node.sound? at h
  split at h
  · cases h
  · next hdamaged =>
    cases h
    exact ⟨rfl, whole_of_tree (Bool.not_eq_true _ ▸ hdamaged)⟩

end ScriptInventory.Script
