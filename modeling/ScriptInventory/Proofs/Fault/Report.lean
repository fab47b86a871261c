import ScriptInventory.Proofs.Fault.Search
import ScriptInventory.Proofs.Fault.Whole

/-!
# What is reported about a damaged text

Main statement: the search for a fault leaves out what is not marked as damaged, and still
finds the first fault of the tree in the order of the text; that one is reported, with its line
and its column, and no tree with a fault is given back (`first_fault_is_reported`).

* `Node.Marked`: which marks the search relies on. There may be more of them.
* `Reports`: what is said about a fault.
-/

namespace ScriptInventory.Script

/-! ## The first fault -/

namespace Node

/-- The nodes that are damaged are marked, as far as the search relies on it: those with a
fault below them, and the root if it is one. Others may be marked, too. -/
structure Marked (root : Node) : Prop where
  below : ∀ n ∈ root.preorder, ∀ f ∈ preorderAll n.children, f.fault.isSome = true →
    n.damaged = true
  self : root.fault.isSome = true → root.damaged = true

variable {root : Node}

/-- It is enough that every fault is marked, and all nodes above it. -/
theorem Marked.of_above (h : ∀ n ∈ root.preorder, ∀ f ∈ n.preorder, f.fault.isSome = true →
    n.damaged = true) : root.Marked where
  below n hn f hf := by
    apply h n hn f
    rw [preorder_eq]
    exact List.mem_cons_of_mem _ hf
  self := h root root.mem_preorder_self root root.mem_preorder_self

theorem Marked.firstFault?_eq (h : root.Marked) :
    root.firstFault? = root.preorder.find? fun n => n.fault.isSome :=
  Cursor.search_ofRoot_eq_find? h.below

theorem Marked.firstFault?_eq_none_iff (h : root.Marked) :
    root.firstFault? = none ↔ root.Whole := by
  rw [h.firstFault?_eq, List.find?_eq_none, Whole]
  simp

/-- The loop of the search ends with the first fault. -/
theorem Marked.run_firstFault (h : root.Marked) :
    ∃ turns ≤ 2 * root.preorder.length,
      (Cursor.Search.turn (fun n => n.fault.isSome) damaged)^[turns] (.atRoot root) =
        .ended root.firstFault? := by
  rw [h.firstFault?_eq]
  exact Cursor.Search.run_tree h.below

/-- Where a fault is, the root is marked. -/
theorem Marked.whole (h : root.Marked) (hdamaged : root.damaged = false) : root.Whole := by
  intro n hn
  by_contra hfault
  have hsome : n.fault.isSome = true := Option.isSome_iff_ne_none.2 hfault
  have hmarked : root.damaged = true := by
    rw [preorder_eq root] at hn
    rcases List.mem_cons.1 hn with rfl | hn
    · exact h.self hsome
    · exact h.below root root.mem_preorder_self n hn hsome
  rw [hdamaged] at hmarked
  cases hmarked

end Node

/-! ## Reports -/

/-- What is said about a text with the first fault of its tree: where it is, and of what is
missing the kind. Only if there is no fault, nothing more is said. -/
inductive Reports : Option Node → String → Prop
  | misfit {n : Node} (h : n.fault = some .error) : Reports (some n)
      s!"syntax error at line {n.start.line}, column {n.start.column}"
  | missing {n : Node} (h : n.fault = some .missing) : Reports (some n)
      s!"missing `{n.kind.label}` at line {n.start.line}, column {n.start.column}"
  | unlocated : Reports none "syntax error"

theorem Damage.message_misfit (p : Place) :
    (misfit p).message = s!"syntax error at line {p.line}, column {p.column}" := by
  have hjoin : "syntax error " ++ "at line " = "syntax error at line " := by decide
  show "syntax error " ++ ("at line " ++ toString p.line ++ ", column " ++ toString p.column) =
    "syntax error at line " ++ toString p.line ++ ", column " ++ toString p.column
  rw [← hjoin]
  simp only [String.append_assoc]

theorem Damage.message_missing (kind : Kind) (p : Place) :
    (missing kind p).message =
      s!"missing `{kind.label}` at line {p.line}, column {p.column}" := by
  have hjoin : "` " ++ "at line " = "` at line " := by decide
  show "missing `" ++ kind.label ++ "` " ++
      ("at line " ++ toString p.line ++ ", column " ++ toString p.column) =
    "missing `" ++ kind.label ++ "` at line " ++ toString p.line ++ ", column " ++
      toString p.column
  rw [← hjoin]
  simp only [String.append_assoc]

/-- What is reported is the first fault. -/
theorem Node.Marked.reports {root : Node} (h : root.Marked) :
    Reports root.firstFault? ((root.firstFault?.map Damage.ofNode).getD .unlocated).message := by
  cases hfirst : root.firstFault? with
  | none => exact .unlocated
  | some n =>
    have hsome : n.fault.isSome = true := by
      rw [h.firstFault?_eq, List.find?_eq_some_iff_append] at hfirst
      exact hfirst.1
    rw [Option.map_some, Option.getD_some, Damage.ofNode]
    cases hfault : n.fault with
    | none =>
      rw [hfault] at hsome
      cases hsome
    | some f =>
      cases f with
      | error =>
        dsimp only
        rw [Damage.message_misfit]
        exact .misfit hfault
      | missing =>
        dsimp only
        rw [Damage.message_missing]
        exact .missing hfault

/-- A tree with its root marked is given back as damage, with what is said about its first
fault. -/
theorem Node.Marked.sound?_eq {root : Node} (h : root.Marked) (hdamaged : root.damaged = true) :
    ∃ damage, root.sound? = .error damage ∧
      Reports (root.preorder.find? fun n => n.fault.isSome) damage.message := by
  refine ⟨(root.firstFault?.map Damage.ofNode).getD .unlocated, ?_, ?_⟩
  · rw [sound?, if_pos hdamaged]
  · rw [← h.firstFault?_eq]
    exact h.reports

/-- A tree that is given back is the tree itself, and it has no fault. -/
theorem Node.Marked.whole_of_sound? {root t : Node} (h : root.Marked)
    (ht : root.sound? = .ok t) : t = root ∧ t.Whole := by
  unfold sound? at ht
  split at ht
  · cases ht
  · next hdamaged =>
    cases ht
    exact ⟨rfl, h.whole (Bool.not_eq_true _ ▸ hdamaged)⟩

/-- **The first fault is reported.** In every tree whose damaged nodes are marked, the loop of
the search ends within two turns for each node, with the first fault of all nodes in the order
of the text, and with nothing if and only if there is none. If the root is marked, that fault
is reported, with its line and column and, if it is missing, its kind; and a tree that is given
back has no fault. A text is parsed to its tree if that is given back, and then, whatever the
text, there is no fault in it; and the lines and columns of its nodes are counted from one, by
line feeds and by bytes. -/
theorem first_fault_is_reported :
    (∀ root : Node, root.Marked →
      (∃ turns ≤ 2 * root.preorder.length,
        (Cursor.Search.turn (fun n => n.fault.isSome) Node.damaged)^[turns] (.atRoot root) =
          .ended root.firstFault?) ∧
      (root.firstFault? = root.preorder.find? fun n => n.fault.isSome) ∧
      (root.firstFault? = none ↔ ∀ n ∈ root.preorder, n.fault = none) ∧
      (root.damaged = true → ∃ damage, root.sound? = .error damage ∧
        Reports (root.preorder.find? fun n => n.fault.isSome) damage.message) ∧
      ∀ t, root.sound? = .ok t → t = root ∧ ∀ n ∈ t.preorder, n.fault = none) ∧
    ∀ text : String,
      parse text = (tree text).sound? ∧
      (∀ t, parse text = .ok t → ∀ n ∈ t.preorder, n.fault = none) ∧
      ∀ n ∈ (tree text).preorder, ∃ front rest, text.toList = front ++ rest ∧
        n.start.line = front.count '\n' + 1 ∧
        n.start.column = ((lastLine front).map Char.utf8Size).sum + 1 := by
  constructor
  · intro root h
    exact ⟨h.run_firstFault, h.firstFault?_eq, h.firstFault?_eq_none_iff, h.sound?_eq,
      fun t ht => h.whole_of_sound? ht⟩
  · intro text
    refine ⟨rfl, fun t ht => (whole_of_parse ht).2, ?_⟩
    intro n hn
    obtain ⟨front, rest, hsplit, hplace⟩ := isIn_of_tree text n hn
    refine ⟨front, rest, hsplit, ?_, ?_⟩
    · rw [hplace, Place.behind]
    · rw [hplace, Place.behind]

/-- The closing parenthesis that the second line of a script lacks. -/
def lackingParenthesis : Node :=
  ⟨none, .token ")", ⟨2, 3⟩, "", some .missing, true, []⟩

/-- A script with a call in its second line that is not closed. The statement in the first line
is marked, too, but has no fault. -/
def unclosedCall : Node :=
  ⟨none, .program, ⟨1, 1⟩, "", none, true,
    [⟨none, .expressionStatement, ⟨1, 1⟩, "", none, true,
      [.leaf .identifier ⟨1, 1⟩ "a", .leaf (.token ";") ⟨1, 2⟩ ";"]⟩,
    ⟨none, .expressionStatement, ⟨2, 1⟩, "", none, true,
      [⟨none, .callExpression, ⟨2, 1⟩, "", none, true,
        [.leaf .identifier ⟨2, 1⟩ "f",
          ⟨none, .arguments, ⟨2, 2⟩, "", none, true,
            [.leaf (.token "(") ⟨2, 2⟩ "(", lackingParenthesis]⟩]⟩]⟩]⟩

theorem unclosedCall_marked : unclosedCall.Marked := by
  apply Node.Marked.of_above
  decide +kernel

/-- Of the call that is not closed, the parenthesis is reported, behind a marked statement in
which there is no fault; and a script that is parsed has no fault. -/
theorem unclosedCall_is_reported :
    unclosedCall.Marked ∧ unclosedCall.firstFault? = some lackingParenthesis ∧
      (∃ damage, unclosedCall.sound? = .error damage ∧
        damage.message = "missing `)` at line 2, column 3") ∧
      ∃ t, parse "let a;" = .ok t ∧ ∀ n ∈ t.preorder, n.fault = none := by
  obtain ⟨htrees, htexts⟩ := first_fault_is_reported
  obtain ⟨-, hfirst, -, hreported, -⟩ := htrees unclosedCall unclosedCall_marked
  have hfind : (unclosedCall.preorder.find? fun n => n.fault.isSome) =
      some lackingParenthesis := rfl
  refine ⟨unclosedCall_marked, hfirst.trans hfind, ?_, ?_⟩
  · obtain ⟨damage, hdamage, hmessage⟩ := hreported rfl
    refine ⟨damage, hdamage, ?_⟩
    rw [hfind] at hmessage
    generalize damage.message = message at hmessage
    cases hmessage with
    | misfit h => cases h
    | missing h => decide +kernel
  · have hscript : (parse "let a;").toOption.isSome = true := by decide +kernel
    cases hparse : parse "let a;" with
    | error damage =>
      rw [hparse] at hscript
      cases hscript
    | ok t => exact ⟨t, rfl, (htexts "let a;").2.1 t hparse⟩

end ScriptInventory.Script
