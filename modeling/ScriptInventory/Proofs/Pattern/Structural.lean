import ScriptInventory.Declaration.Structural
import ScriptInventory.Proofs.Plain.Keyword
import ScriptInventory.Proofs.Tolerant.Keyword

/-!
# Patterns and trees

The patterns of classes and functions look at raw text, and what they find in a script need not
be declared there. Main statement: in every text that is a script, whatever its characters, each
name that one of them finds comes from a match where the first letter of the keyword is in
another leaf of the tree, or the keyword opens an expression or a node that has no name, or the
inventory of the script has the name (`explained_of_parse`).
-/

namespace ScriptInventory.Script

open Grammar

variable {text : String} {root : Node}

namespace Grammar.Keyword

/-- The names that a keyword declares. -/
def symbolKind : Keyword → SymbolKind
  | .class => .class
  | .function => .function

/-- A node of what a keyword opens is an expression. A class that is exported as it stands is
none. -/
def IsExpression (k : Keyword) (parent : Option Kind) (n : Node) : Prop :=
  match k with
  | .class => n.kind = .classExpression ∧ parent ≠ some .exportStatement
  | .function => n.kind = .functionExpression ∨ n.kind = .generatorFunction

/-- The keyword at a place opens an expression, or a node that has no name. -/
def OpensUnnamed (k : Keyword) (root : Node) (p : Place) : Prop :=
  ∃ a ∈ root.placed none, a.2.OpensWith k p ∧
    (k.IsExpression a.1 a.2 ∨ Declaration.declaredName a.2 = [])

/-- How the tree and the inventory of a script explain a name that the pattern of a keyword finds
in the text. It comes from a match, and one of three holds: the first letter of the keyword is
in a leaf that is not the keyword, the keyword opens an expression or a node that has no name,
or the inventory has the name. -/
def Explained (k : Keyword) (text : List Char) (root : Node) (inventory : Inventory)
    (name : String) : Prop :=
  ∃ s, k.pattern.MatchesIn text s ∧ name = String.ofList s.name ∧
    (k.Inside text root s.start ∨ k.OpensUnnamed root (Place.start.after (text.take s.start)) ∨
      ∃ d ∈ (inventory.names k.symbolKind).toList, k.Names s.name d)

/-- What is recorded for a node that a keyword opens is its name, unless it is an expression. -/
theorem declaredAt_eq {k : Keyword} {parent : Option Kind} {n : Node} (hkind : n.kind ∈ k.kinds)
    (hexpression : ¬k.IsExpression parent n) :
    Declaration.declaredAt k.symbolKind parent n = Declaration.declaredName n := by
  obtain ⟨shape, hshape, hnames⟩ : ∃ shape, Declaration.Shape.classify parent n = some shape ∧
      (shape = .class ∧ k = .class ∨ shape = .function ∧ k = .function) := by
    cases k with
    | «class» =>
      refine ⟨.class, ?_, .inl ⟨rfl, rfl⟩⟩
      rcases List.mem_pair.1 hkind with hkind | hkind
      · rw [Declaration.Shape.classify, hkind]
      · have hexport : parent = some .exportStatement :=
          Classical.not_not.1 fun hparent => hexpression ⟨hkind, hparent⟩
        rw [Declaration.Shape.classify, hkind, hexport]
        rfl
    | function =>
      refine ⟨.function, ?_, .inr ⟨rfl, rfl⟩⟩
      simp only [kinds, List.mem_cons, List.not_mem_nil, or_false] at hkind
      rcases hkind with hkind | hkind | hkind | hkind
      · rw [Declaration.Shape.classify, hkind]
      · rw [Declaration.Shape.classify, hkind]
      · exact absurd (.inl hkind) hexpression
      · exact absurd (.inr hkind) hexpression
  rw [Declaration.declaredAt, hshape]
  rcases hnames with ⟨rfl, rfl⟩ | ⟨rfl, rfl⟩ <;> rfl

/-- What the pattern of a keyword finds. -/
theorem reports_inventory (k : Keyword) (source : SourceUnit) (text : String) :
    k.pattern.Reports text ((Pattern.inventory source text).names k.symbolKind) := by
  obtain ⟨hfirst, spans, hspans, hfound⟩ : k.pattern.Reports text (k.pattern.names text) := by
    cases k
    · exact Pattern.reports_names Pattern.classPattern_definite text
    · exact Pattern.reports_names Pattern.functionPattern_definite text
  refine ⟨hfirst, spans, hspans, ?_⟩
  rw [Pattern.inventory, Pattern.Findings.toInventory, Inventory.toList_recordAll,
    if_neg (by cases k <;> decide), List.append_nil,
    firstOccurrences_of_nodup (OrderedNames.nodup _), ← hfound]
  cases k <;> rfl

end Grammar.Keyword

/-- The tree of a script accounts for every place at which the pattern of a keyword matches. -/
theorem accounted_of_parse (h : parse text = .ok root) {k : Keyword} {s : Pattern.Span}
    (hs : k.pattern.MatchesIn text.toList s) : k.Accounted text.toList root s.start s.name := by
  obtain ⟨behind, blanks, rest, hkeyword, hbehind⟩ := Keyword.behind_of_matchesAs hs.2
  rw [parse, Node.sound?] at h
  split at h
  · cases h
  · next hsound =>
    cases h
    unfold tree at hsound ⊢
    split
    · next root hroot => exact Plain.accounted_of_read? hroot hkeyword hbehind
    · next hnone =>
      rw [hnone] at hsound
      exact Tolerant.accounted_of_read (Bool.eq_false_iff.2 hsound) hkeyword hbehind

/-- Names in a script that the pattern of classes cuts off: a dollar sign is no part of a name
there. -/
theorem find_not_subset_structural :
    ¬ ∀ (source : SourceUnit) (text : String) (inventory : Inventory),
      (∀ c ∈ text.toList, c ∉ ['\'', '"', '`', '/', '<', '>', '#']) →
      Declaration.structural source text = .ok inventory →
      ∀ k : Keyword, ∀ name ∈ ((Pattern.inventory source text).names k.symbolKind).toList,
        name ∈ (inventory.names k.symbolKind).toList := by
  intro hall
  have hstructural : (Declaration.structural .inline "class A$ {}").toOption.map
      (fun i => i.classes.toList) = some ["A$"] := by decide +kernel
  cases hinventory : Declaration.structural .inline "class A$ {}" with
  | error damage =>
    rw [hinventory] at hstructural
    cases hstructural
  | ok inventory =>
    rw [hinventory] at hstructural
    have hclasses : inventory.classes.toList = ["A$"] := Option.some.inj hstructural
    have hmem := hall .inline "class A$ {}" inventory (by decide) hinventory .class "A"
      (by decide +kernel)
    change "A" ∈ inventory.classes.toList at hmem
    rw [hclasses] at hmem
    exact absurd hmem (by decide)

/-- **Patterns in scripts.** A text that is a script has an inventory, and each name that the
pattern of classes or that of functions finds in the text is explained. -/
theorem explained_of_parse (source : SourceUnit) (h : parse text = .ok root) :
    ∃ inventory, Declaration.structural source text = .ok inventory ∧
      ∀ k : Keyword, ∀ name ∈ ((Pattern.inventory source text).names k.symbolKind).toList,
        k.Explained text.toList root inventory name := by
  refine ⟨Declaration.collectTree root (.empty source), by rw [Declaration.structural, h]; rfl,
    fun k name hname => ?_⟩
  obtain ⟨-, spans, hspans, hfound⟩ := k.reports_inventory source text
  rw [hfound, mem_firstOccurrences] at hname
  obtain ⟨s, hs, rfl⟩ := List.mem_map.1 hname
  have hmatch := (hspans.sound s hs).1
  refine ⟨s, hmatch, rfl, ?_⟩
  rcases accounted_of_parse h hmatch with hinside | ⟨a, ha, hopens, hnames⟩
  · exact .inl hinside
  · right
    by_cases hexpression : k.IsExpression a.1 a.2
    · exact .inl ⟨a, ha, hopens, .inl hexpression⟩
    · cases hname : Declaration.declaredName a.2 with
      | nil => exact .inl ⟨a, ha, hopens, .inr hname⟩
      | cons d _ =>
        have hd : d ∈ Declaration.declaredName a.2 := hname ▸ List.mem_cons_self
        refine .inr ⟨d, ?_, hnames d hd⟩
        rw [Declaration.toList_collectTree, mem_firstOccurrences,
          Declaration.declaredBelow_eq_flatMap]
        refine List.mem_append_right _ (List.mem_flatMap.2 ⟨a, ha, ?_⟩)
        rwa [Keyword.declaredAt_eq hopens.1 hexpression]

/-- A class and a function of a script. -/
theorem explained_class_function :
    ∃ root inventory, parse "class A {} function f() {}" = .ok root ∧
      Declaration.structural .inline "class A {} function f() {}" = .ok inventory ∧
      Keyword.class.Explained "class A {} function f() {}".toList root inventory "A" ∧
      Keyword.function.Explained "class A {} function f() {}".toList root inventory "f" := by
  have hscript : (parse "class A {} function f() {}").toOption.isSome := by decide +kernel
  cases hroot : parse "class A {} function f() {}" with
  | error damage =>
    rw [hroot] at hscript
    cases hscript
  | ok root =>
    obtain ⟨inventory, hinventory, hall⟩ := explained_of_parse .inline hroot
    exact ⟨root, inventory, rfl, hinventory, hall .class "A" (by decide +kernel),
      hall .function "f" (by decide +kernel)⟩

end ScriptInventory.Script
