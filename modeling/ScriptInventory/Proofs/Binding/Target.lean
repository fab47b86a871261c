import ScriptInventory.Declaration.Binding
import ScriptInventory.Proofs.Text.Runs

/-!
# Binding targets

What stands where names are bound, apart from any text: names, patterns for objects and
arrays to any depth, renamed properties, defaults and rest elements, and anything else,
such as `a.b`. `BindingTarget.boundNames` says which names a target binds, and
`BindingTarget.IsTree` which syntax trees it has; keys and defaults may be any nodes.
Main statement: of a tree without comments, exactly the names of its target are added to
those found before, in their order and as often as they occur (`BindingTarget.bindInto_isTree`).
-/

namespace ScriptInventory.Declaration

open Script

/-- A name that is bound. -/
structure BoundName where
  text : String
  ne : text ≠ ""

/-- The kinds of nodes that a search for bound names looks at or into. -/
def bindingKinds : List Kind :=
  [.identifier, .shorthandPropertyIdentifierPattern, .objectPattern, .arrayPattern, .pairPattern,
    .assignmentPattern, .objectAssignmentPattern, .restPattern]

/-- What names are bound by. A hole of an array pattern is nothing at all: two commas
stand side by side. -/
inductive BindingTarget where
  | identifier (name : BoundName)
  | shorthand (name : BoundName)
  | object (entries : List BindingTarget)
  | array (elements : List BindingTarget)
  | pair (key : Node) (value : BindingTarget)
  | withDefault (target : BindingTarget) (value : Node)
  | rest (operand : BindingTarget)
  /-- Anything that binds nothing. -/
  | other (kind : Kind) (isOther : kind ∉ bindingKinds ∧ kind.isToken = false)

namespace BindingTarget

/-! ## The names of a target -/

mutual

/-- The names that a target binds. Keys and defaults bind nothing, whatever is in them. -/
def boundNames : BindingTarget → List String
  | .identifier name | .shorthand name => [name.text]
  | .object entries => boundNamesAll entries
  | .array elements => boundNamesAll elements
  | .pair _ value => value.boundNames
  | .withDefault target _ => target.boundNames
  | .rest operand => operand.boundNames
  | .other _ _ => []

/-- The names that several targets bind, one target after the other. -/
def boundNamesAll : List BindingTarget → List String
  | [] => []
  | t :: more => t.boundNames ++ boundNamesAll more

end

/-! ## The trees of a target -/

/-- Punctuation, which plays no role. -/
def IsMark (n : Node) : Prop := n.kind.isToken = true ∧ n.role = none

mutual

/-- A node is a tree of a target, without comments in its patterns. -/
inductive IsTree : BindingTarget → Node → Prop
  | identifier {name : BoundName} {n : Node} :
      n.kind = .identifier → n.text = name.text → IsTree (.identifier name) n
  | shorthand {name : BoundName} {n : Node} :
      n.kind = .shorthandPropertyIdentifierPattern → n.text = name.text → IsTree (.shorthand name) n
  | object {entries : List BindingTarget} {n : Node} :
      n.kind = .objectPattern → AreTrees entries n.children → IsTree (.object entries) n
  | array {elements : List BindingTarget} {n : Node} :
      n.kind = .arrayPattern → AreTrees elements n.children → IsTree (.array elements) n
  | pair {key v n : Node} {value : BindingTarget} {marks : List Node} :
      n.kind = .pairPattern → n.children = key :: (marks ++ [v]) → key.role ≠ some .value →
      (∀ m ∈ marks, IsMark m) → v.role = some .value → IsTree value v → IsTree (.pair key value) n
  | withDefault {target : BindingTarget} {left value n : Node} {marks : List Node} :
      n.kind = .assignmentPattern ∨ n.kind = .objectAssignmentPattern →
      n.children = left :: (marks ++ [value]) → (∀ m ∈ marks, IsMark m) →
      left.role = some .left → IsTree target left → IsTree (.withDefault target value) n
  | rest {operand : BindingTarget} {o n : Node} {marks : List Node} :
      n.kind = .restPattern → n.children = marks ++ [o] → (∀ m ∈ marks, IsMark m) →
      IsTree operand o → IsTree (.rest operand) n
  | other {kind : Kind} {isOther : kind ∉ bindingKinds ∧ kind.isToken = false} {n : Node} :
      n.kind = kind → IsTree (.other kind isOther) n

/-- Nodes are the trees of several targets, with punctuation anywhere between them. -/
inductive AreTrees : List BindingTarget → List Node → Prop
  | nil : AreTrees [] []
  | mark {m : Node} {ts : List BindingTarget} {ns : List Node} :
      IsMark m → AreTrees ts ns → AreTrees ts (m :: ns)
  | cons {t : BindingTarget} {n : Node} {ts : List BindingTarget} {ns : List Node} :
      IsTree t n → AreTrees ts ns → AreTrees (t :: ts) (n :: ns)

end

theorem IsTree.isToken {t : BindingTarget} {n : Node} (h : t.IsTree n) :
    n.kind.isToken = false := by
  cases h with
  | identifier hkind | shorthand hkind | object hkind | array hkind | pair hkind | rest hkind =>
    rw [hkind]
    rfl
  | withDefault hkind =>
    rcases hkind with hkind | hkind <;> rw [hkind] <;> rfl
  | @other kind isOther n hkind => exact hkind ▸ isOther.2

/-! ## Names of trees -/

theorem BoundName.isEmpty (name : BoundName) : name.text.isEmpty = false := by
  simpa [String.isEmpty_iff] using name.ne

theorem not_mem_bindingKinds {kind : Kind} (h : kind.isToken = true) : kind ∉ bindingKinds := by
  intro hmem
  cases kind with
  | token text => simp [bindingKinds] at hmem
  | _ => cases h

/-- Nothing else binds anything. -/
theorem boundNames_of_not_mem {n : Node} (h : n.kind ∉ bindingKinds) :
    Declaration.boundNames n = [] := by
  rw [boundNames_eq]
  split
  all_goals first
    | rfl
    | next hkind => exact absurd (by rw [hkind]; decide) h

theorem IsMark.boundNames_eq {n : Node} (h : IsMark n) : Declaration.boundNames n = [] :=
  boundNames_of_not_mem (not_mem_bindingKinds h.1)

/-- Behind punctuation, the first node in a role is the one that plays it. -/
theorem boundByRole_marks {marks : List Node} (hmarks : ∀ m ∈ marks, IsMark m) {n : Node}
    {role : Role} (hrole : n.role = some role) (more : List Node) :
    boundByRole role (marks ++ n :: more) = Declaration.boundNames n := by
  induction marks with
  | nil => rw [List.nil_append, boundByRole, if_pos hrole]
  | cons m marks ih =>
    obtain ⟨hm, hmarks⟩ := List.forall_mem_cons.1 hmarks
    have hne : m.role ≠ some role := by simp [hm.2]
    rw [List.cons_append, boundByRole, if_neg hne, ih hmarks]

/-- Behind punctuation, the first node is what is no punctuation. -/
theorem boundByFirst_marks {marks : List Node} (hmarks : ∀ m ∈ marks, IsMark m) {n : Node}
    (hn : n.kind.isToken = false) (more : List Node) :
    boundByFirst (marks ++ n :: more) = Declaration.boundNames n := by
  induction marks with
  | nil => rw [List.nil_append, boundByFirst, hn, if_neg Bool.false_ne_true]
  | cons m marks ih =>
    obtain ⟨hm, hmarks⟩ := List.forall_mem_cons.1 hmarks
    rw [List.cons_append, boundByFirst, if_pos hm.1, ih hmarks]

mutual

/-- A tree of a target binds the names of the target. -/
theorem IsTree.boundNames_eq {t : BindingTarget} {n : Node} (h : t.IsTree n) :
    Declaration.boundNames n = t.boundNames := by
  rw [Declaration.boundNames_eq]
  match h with
  | .identifier hkind htext | .shorthand hkind htext =>
    rw [hkind, htext, boundNames]
    exact if_neg (by simp [BoundName.isEmpty])
  | .object hkind hentries =>
    rw [hkind, boundNames]
    exact hentries.boundByAll_eq
  | .array hkind helements =>
    rw [hkind, boundNames]
    exact helements.boundByAll_eq
  | @IsTree.pair key v n value marks hkind hchildren hkey hmarks hrole hvalue =>
    rw [hkind, hchildren, boundNames, ← hvalue.boundNames_eq]
    show boundByRole .value (key :: (marks ++ [v])) = _
    rw [boundByRole, if_neg hkey, boundByRole_marks hmarks hrole]
  | @IsTree.withDefault target left value n marks hkind hchildren hmarks hrole htarget =>
    have hleft : boundByRole .left n.children = target.boundNames := by
      rw [hchildren, boundByRole, if_pos hrole, htarget.boundNames_eq]
    rcases hkind with hkind | hkind <;> rw [hkind, boundNames] <;> exact hleft
  | @IsTree.rest operand o n marks hkind hchildren hmarks hoperand =>
    rw [hkind, hchildren, boundNames, ← hoperand.boundNames_eq]
    exact boundByFirst_marks hmarks hoperand.isToken []
  | @IsTree.other kind isOther n hkind =>
    rw [← Declaration.boundNames_eq, boundNames]
    exact boundNames_of_not_mem (hkind ▸ isOther.1)

theorem AreTrees.boundByAll_eq {ts : List BindingTarget} {ns : List Node} (h : AreTrees ts ns) :
    boundByAll ns = boundNamesAll ts := by
  match h with
  | .nil => rw [boundByAll, boundNamesAll]
  | .mark hm hns => rw [boundByAll, hm.boundNames_eq, List.nil_append, hns.boundByAll_eq]
  | .cons hn hns =>
    rw [boundByAll, boundNamesAll, hn.boundNames_eq, hns.boundByAll_eq]

end

/-- What was found before stays, and exactly the names of the target follow. -/
theorem bindInto_isTree {t : BindingTarget} {n : Node} (h : t.IsTree n) (found : List String) :
    bindInto found n = found ++ t.boundNames := by
  rw [bindInto_eq, h.boundNames_eq]

/-! ## A pattern with a hole, a key, a default and a rest element -/

/-- A name in the text of `mixedTree`. -/
def nameAt (column : Nat) (name : BoundName) : Node := .leaf .identifier ⟨1, column⟩ name.text

/-- A mark in the text of `mixedTree`. -/
def markAt (column : Nat) (text : String) : Node := .leaf (.token text) ⟨1, column⟩ text

theorem isTree_nameAt (column : Nat) (name : BoundName) :
    (identifier name).IsTree (nameAt column name) :=
  .identifier rfl rfl

theorem isMark_markAt (column : Nat) (text : String) : IsMark (markAt column text) := ⟨rfl, rfl⟩

theorem areMarks_markAt (column : Nat) (text : String) : ∀ m ∈ [markAt column text], IsMark m :=
  List.forall_mem_singleton.2 (isMark_markAt column text)

/-- The key `f` of `mixedTree`. -/
def keyNode : Node := .leaf .propertyIdentifier ⟨1, 8⟩ "f"

/-- The default `f` of `mixedTree`. -/
def defaultNode : Node := .leaf .identifier ⟨1, 15⟩ "f"

/-- What `mixedTree` is a tree of. -/
def mixedTarget : BindingTarget :=
  .array [.identifier ⟨"a", by decide⟩,
    .object [.pair keyNode (.withDefault (.identifier ⟨"b", by decide⟩) defaultNode)],
    .rest (.identifier ⟨"c", by decide⟩)]

/-- The part `b = f` of `mixedTree`. -/
def defaultedTree : Node :=
  .branch .assignmentPattern ⟨1, 11⟩
    [(nameAt 11 ⟨"b", by decide⟩).withRole .left, markAt 13 "=", defaultNode]

/-- The part `{ f: b = f }` of `mixedTree`. -/
def renamedTree : Node :=
  .branch .objectPattern ⟨1, 6⟩
    [.branch .pairPattern ⟨1, 8⟩ [keyNode, markAt 9 ":", defaultedTree.withRole .value]]

/-- The part `...c` of `mixedTree`. -/
def restTree : Node := .branch .restPattern ⟨1, 20⟩ [markAt 20 "...", nameAt 23 ⟨"c", by decide⟩]

/-- The tree of `[a,, { f: b = f }, ...c]`. -/
def mixedTree : Node :=
  .branch .arrayPattern ⟨1, 1⟩
    [nameAt 2 ⟨"a", by decide⟩, markAt 3 ",", markAt 4 ",", renamedTree, markAt 18 ",", restTree]

theorem isTree_mixedTree : mixedTarget.IsTree mixedTree := by
  have hdefaulted : (withDefault (.identifier ⟨"b", by decide⟩) defaultNode).IsTree
      (defaultedTree.withRole .value) :=
    .withDefault (.inl rfl) (show _ = _ :: ([markAt 13 "="] ++ [_]) from rfl)
      (areMarks_markAt 13 "=") rfl (.identifier rfl rfl)
  have hrenamed := IsTree.object (n := renamedTree) rfl (.cons (.pair rfl
    (show _ = keyNode :: ([markAt 9 ":"] ++ [_]) from rfl) (by decide) (areMarks_markAt 9 ":") rfl
    hdefaulted) .nil)
  have hrest := IsTree.rest (n := restTree) rfl (show _ = [markAt 20 "..."] ++ [_] from rfl)
    (areMarks_markAt 20 "...") (isTree_nameAt 23 ⟨"c", by decide⟩)
  exact .array rfl (.cons (isTree_nameAt 2 _) (.mark (isMark_markAt 3 ",")
    (.mark (isMark_markAt 4 ",") (.cons hrenamed (.mark (isMark_markAt 18 ",")
      (.cons hrest .nil))))))

/-- The name of the key and that of the default do not count. -/
theorem bindInto_mixedTree : bindInto ["z"] mixedTree = ["z", "a", "b", "c"] := by
  rw [bindInto_isTree isTree_mixedTree]
  simp [mixedTarget, boundNames, boundNamesAll]

end BindingTarget

end ScriptInventory.Declaration
