import ScriptInventory.Proofs.Fault.Search
import ScriptInventory.Proofs.Fault.Whole
import ScriptInventory.Proofs.Key.Spelling

/-!
# Characters of declared names

Where the characters of a name come from. The name of a number has those of its literal or is
a number in positions (`NumberKey.mem_name`), a quoted key adds what its escapes stand for
(`StringKey.mem_name`), and every other name is a part of some node's text. Main statement: a
character of a name that a script declares stands in the script, or is a digit or a point, or
an escape in a quoted key of a class member stands for it (`mem_of_structural`).
-/

namespace ScriptInventory

/-! ## Subtrees -/

namespace Script.Node

mutual

/-- What is below a node of a subtree is in the subtree. -/
theorem preorder_subset {m : Node} : ∀ n : Node, m ∈ n.preorder → m.preorder ⊆ n.preorder
  | ⟨role, kind, start, text, fault, damaged, children⟩, h => by
    rw [preorder] at h ⊢
    rcases List.mem_cons.1 h with rfl | h
    · rw [preorder]
      exact List.Subset.refl _
    · exact List.subset_cons_of_subset _ (preorder_subset_all children h)

theorem preorder_subset_all {m : Node} :
    ∀ ns : List Node, m ∈ preorderAll ns → m.preorder ⊆ preorderAll ns
  | [], h => by
    rw [preorderAll_nil] at h
    cases h
  | n :: rest, h => by
    rw [preorderAll_cons] at h ⊢
    rcases List.mem_append.1 h with h | h
    · exact List.subset_append_of_subset_left _ (preorder_subset n h)
    · exact List.subset_append_of_subset_right _ (preorder_subset_all rest h)

end

theorem mem_preorder_of_child? {n child : Node} {role : Role} (h : n.child? role = some child) :
    child ∈ n.preorder := by
  rw [preorder_eq]
  exact List.mem_cons_of_mem _
    (mem_preorderAll.2 ⟨child, List.mem_of_find?_eq_some h, mem_preorder_self child⟩)

end Script.Node

namespace Declaration

open Script

/-! ## Numeric keys -/

namespace NumberKey

open Number

/-- A character of a number in positions. -/
def IsPart (c : Char) : Prop := c.isDigit ∨ c = '.'

theorem isPart_of_mem_decimalDigits {n : Nat} {c : Char} (h : c ∈ decimalDigits n) : IsPart c :=
  .inl (Nat.isDigit_of_mem_toDigits (by decide) (by decide) h)

theorem isPart_of_mem_zeros {n : Nat} {c : Char} (h : c ∈ List.replicate n '0') : IsPart c := by
  rw [List.eq_of_mem_replicate h]
  exact .inl rfl

theorem isPart_of_mem_render {d : Decimal} {c : Char} (h : c ∈ d.render) : IsPart c := by
  unfold Decimal.render at h
  dsimp only at h
  split at h
  · split at h
    · rw [List.mem_singleton.1 h]
      exact .inl rfl
    · exact (List.mem_append.1 h).elim isPart_of_mem_decimalDigits isPart_of_mem_zeros
  · -- the digits on both sides of the point are those of one padded number
    have hpadded : ∀ k, c ∈ List.replicate k '0' ++ decimalDigits d.digits → IsPart c :=
      fun k hk => (List.mem_append.1 hk).elim isPart_of_mem_zeros isPart_of_mem_decimalDigits
    rcases List.mem_append.1 h with h | h
    · rcases List.mem_append.1 h with h | h
      · exact hpadded _ (List.mem_of_mem_take h)
      · exact .inr (List.mem_singleton.1 h)
    · exact hpadded _ (List.mem_of_mem_drop h)

theorem isPart_of_decimalName? {text found : List Char} (h : decimalName? text = some found)
    {c : Char} (hc : c ∈ found) : IsPart c := by
  obtain ⟨d, -, h⟩ := Option.bind_eq_some_iff.1 h
  split at h
  · cases h
    rw [List.mem_singleton.1 hc]
    exact .inl rfl
  · split at h
    · cases h
    · obtain ⟨b, -, rfl⟩ := Option.map_eq_some_iff.1 h
      exact isPart_of_mem_render hc

theorem isPart_of_basedName? {base : Nat} {digits found : List Char}
    (h : basedName? base digits = some found) {c : Char} (hc : c ∈ found) : IsPart c := by
  obtain ⟨n, -, rfl⟩ := Option.map_eq_some_iff.1 h
  exact isPart_of_mem_decimalDigits hc

/-- The name of a number is its literal, or a number in positions. -/
theorem mem_name {literal : String} {c : Char} (h : c ∈ (name literal).toList) :
    c ∈ literal.toList ∨ IsPart c := by
  unfold name at h
  cases hname : name? literal.toList with
  | none =>
    rw [hname] at h
    exact .inl h
  | some found =>
    rw [hname, Option.map_some, Option.getD_some, String.toList_ofList] at h
    right
    unfold name? at hname
    split at hname
    all_goals first
      | exact isPart_of_basedName? hname h
      | exact isPart_of_decimalName? hname h

end NumberKey

/-! ## Quoted keys -/

namespace StringKey

/-- The character that an escape stands for, if it stands for one; the escape is given from
behind its backslash on. -/
def escapeValue? : List Char → Option Char
  | 'x' :: rest => (hexNumber? (rest.take 2)).bind scalar?
  | 'u' :: '{' :: rest => (hexNumber? (rest.takeWhile (· ≠ '}'))).bind scalar?
  | 'u' :: rest => (hexNumber? (rest.take 4)).bind scalar?
  | c :: _ => if c = '\r' || endsLine c then none else some (escaped c)
  | [] => none

/-- There is an escape in a body that stands for a character. -/
def HasEscape (body : List Char) (c : Char) : Prop :=
  ∃ rest, '\\' :: rest <:+ body ∧ escapeValue? rest = some c

/-- A character stands in a body, either by itself or as an escape. -/
def Holds (body : List Char) (c : Char) : Prop := c ∈ body ∨ HasEscape body c

theorem Holds.of_suffix {rest body : List Char} {c : Char} (h : Holds rest c)
    (hs : rest <:+ body) : Holds body c := by
  rcases h with h | ⟨behind, hsuffix, hvalue⟩
  · exact .inl (hs.subset h)
  · exact .inr ⟨behind, hsuffix.trans hs, hvalue⟩

/-- An escape contributes the character that it stands for, or itself as it is written. -/
theorem holds_of_mem_codePoint {letter : Char} {hex rest : List Char} {c : Char}
    (h : c ∈ codePoint letter hex) (hhex : hex ⊆ rest)
    (hvalue : escapeValue? (letter :: rest) = (hexNumber? hex).bind scalar?) :
    Holds ('\\' :: letter :: rest) c := by
  unfold codePoint at h
  split at h
  · next d hd =>
    rw [List.mem_singleton.1 h]
    exact .inr ⟨_, List.suffix_rfl, hvalue.trans hd⟩
  · rcases List.mem_cons.1 h with rfl | h
    · exact .inl List.mem_cons_self
    · rcases List.mem_cons.1 h with rfl | h
      · exact .inl (List.mem_cons_of_mem _ List.mem_cons_self)
      · exact .inl (List.mem_cons_of_mem _ (List.mem_cons_of_mem _ (hhex h)))

/-- Resolving escapes gives no character that is not there. -/
theorem holds_of_mem_unescape {body : List Char} {c : Char} (h : c ∈ unescape body) :
    Holds body c := by
  fun_induction unescape body with
  | case1 => cases h
  | case2 => exact .inl h
  -- an escape of two digits: what it stands for, or what is behind it
  | case3 rest ih =>
    rcases List.mem_append.1 h with h | h
    · exact holds_of_mem_codePoint h (List.take_subset 2 rest) rfl
    · exact (ih h).of_suffix ((List.drop_suffix 2 rest).trans (List.suffix_append ['\\', 'x'] rest))
  -- an escape in braces, whose digits go up to the closing one
  | case4 rest ih =>
    rcases List.mem_append.1 h with h | h
    · refine holds_of_mem_codePoint h ?_ rfl
      exact List.subset_cons_of_subset '{' (List.takeWhile_prefix _).subset
    · have hsuffix : (rest.dropWhile (· ≠ '}')).drop 1 <:+ rest :=
        (List.drop_suffix 1 _).trans (List.dropWhile_suffix _)
      exact (ih h).of_suffix (hsuffix.trans (List.suffix_append ['\\', 'u', '{'] rest))
  -- an escape of four digits, which no brace begins
  | case5 rest hbrace ih =>
    rcases List.mem_append.1 h with h | h
    · refine holds_of_mem_codePoint h (List.take_subset 4 rest) ?_
      rw [escapeValue?]
      exact hbrace
    · exact (ih h).of_suffix ((List.drop_suffix 4 rest).trans (List.suffix_append ['\\', 'u'] rest))
  -- a line end behind a backslash stands for nothing
  | case6 rest ih => exact (ih h).of_suffix (List.suffix_append ['\\', '\r', '\n'] rest)
  | case7 rest _ ih => exact (ih h).of_suffix (List.suffix_append ['\\', '\r'] rest)
  | case8 d rest _ _ _ _ _ _ ih => exact (ih h).of_suffix (List.suffix_append ['\\', d] rest)
  -- any other character behind a backslash stands for itself
  | case9 d rest _ _ _ _ hreturn hline ih =>
    rcases List.mem_cons.1 h with rfl | h
    · have hkept : (d = '\r' || endsLine d) = false := by
        simpa using ⟨hreturn, Bool.eq_false_iff.2 hline⟩
      right
      refine ⟨d :: rest, List.suffix_rfl, ?_⟩
      simp [escapeValue?, hkept]
    · exact (ih h).of_suffix (List.suffix_append ['\\', d] rest)
  | case10 d rest _ _ _ _ _ _ _ ih =>
    rcases List.mem_cons.1 h with rfl | h
    · exact .inl List.mem_cons_self
    · exact (ih h).of_suffix (List.suffix_cons d rest)

theorem unquote_subset (literal : List Char) : unquote literal ⊆ literal := by
  unfold unquote
  split
  · split
    · exact List.subset_cons_of_subset _ (List.dropLast_subset _)
    · exact List.Subset.refl _
  · split
    · exact List.subset_cons_of_subset _ (List.dropLast_subset _)
    · exact List.Subset.refl _
  · exact List.Subset.refl _

/-- The name of a quoted key has characters of its literal, and those that escapes stand for. -/
theorem mem_name {literal : String} {c : Char} (h : c ∈ (name literal).toList) :
    c ∈ literal.toList ∨ HasEscape (unquote literal.toList) c := by
  rw [name, String.toList_ofList] at h
  exact (holds_of_mem_unescape h).imp_left fun hmem => unquote_subset _ hmem

end StringKey

/-! ## Bound names -/

theorem boundByRole_subset (role : Role) (ns : List Node) :
    boundByRole role ns ⊆ boundByAll ns := by
  induction ns with
  | nil => exact List.nil_subset _
  | cons n rest ih =>
    rw [boundByRole, boundByAll]
    split
    · exact List.subset_append_left _ _
    · exact List.subset_append_of_subset_right _ ih

theorem boundByFirst_subset (ns : List Node) : boundByFirst ns ⊆ boundByAll ns := by
  induction ns with
  | nil => exact List.nil_subset _
  | cons n rest ih =>
    rw [boundByFirst, boundByAll]
    split
    · exact List.subset_append_of_subset_right _ ih
    · exact List.subset_append_left _ _

mutual

/-- A name that a target binds is the text of a node. -/
theorem exists_of_mem_boundNames {name : String} :
    ∀ n : Node, name ∈ boundNames n → ∃ m ∈ n.preorder, m.text = name
  | ⟨role, kind, start, text, fault, damaged, children⟩, h => by
    have hbelow : name ∈ boundByAll children →
        ∃ m ∈ Node.preorder ⟨role, kind, start, text, fault, damaged, children⟩, m.text = name := by
      intro hname
      obtain ⟨m, hm, htext⟩ := exists_of_mem_boundByAll children hname
      rw [Node.preorder]
      exact ⟨m, List.mem_cons_of_mem _ hm, htext⟩
    have hleaf : name ∈ (if text.isEmpty then [] else [text]) →
        ∃ m ∈ Node.preorder ⟨role, kind, start, text, fault, damaged, children⟩, m.text = name := by
      intro hname
      split at hname
      · cases hname
      · exact ⟨_, Node.mem_preorder_self _, (List.mem_singleton.1 hname).symm⟩
    unfold boundNames at h
    split at h
    · exact hleaf h
    · exact hleaf h
    · exact hbelow h
    · exact hbelow h
    · exact hbelow (boundByRole_subset _ _ h)
    · exact hbelow (boundByRole_subset _ _ h)
    · exact hbelow (boundByRole_subset _ _ h)
    · exact hbelow (boundByFirst_subset _ h)
    · cases h

theorem exists_of_mem_boundByAll {name : String} :
    ∀ ns : List Node, name ∈ boundByAll ns → ∃ m ∈ Node.preorderAll ns, m.text = name
  | [], h => by
    rw [boundByAll] at h
    cases h
  | n :: rest, h => by
    rw [boundByAll] at h
    rw [Node.preorderAll_cons]
    rcases List.mem_append.1 h with h | h
    · obtain ⟨m, hm, htext⟩ := exists_of_mem_boundNames n h
      exact ⟨m, List.mem_append_left _ hm, htext⟩
    · obtain ⟨m, hm, htext⟩ := exists_of_mem_boundByAll rest h
      exact ⟨m, List.mem_append_right _ hm, htext⟩

end

/-! ## Names of a node -/

/-- A name is that of a quoted key among some nodes, and an escape in the key stands for a
character. -/
def IsEscapedIn (nodes : List Node) (name : String) (c : Char) : Prop :=
  ∃ key ∈ nodes, key.kind = .string ∧ name = StringKey.name key.text ∧
    StringKey.HasEscape (StringKey.unquote key.text.toList) c

/-- A character of a name of some kind stands in the text of a node or is one of a number; or
the name is that of a class member, and the character is escaped in its key. -/
def IsAccounted (nodes : List Node) (kind : SymbolKind) (name : String) (c : Char) : Prop :=
  (∃ n ∈ nodes, c ∈ n.text.toList) ∨ NumberKey.IsPart c ∨
    (kind = .method ∨ kind = .property) ∧ IsEscapedIn nodes name c

theorem eq_of_mem_nonempty {text name : String} (h : name ∈ nonempty text) : name = text := by
  unfold nonempty at h
  split at h
  · cases h
  · exact List.mem_singleton.1 h

theorem trim_subset (text : List Char) : Text.trim text ⊆ text := by
  unfold Text.trim
  intro c hc
  rw [List.mem_reverse] at hc
  have hback := (List.dropWhile_sublist _).subset hc
  rw [List.mem_reverse] at hback
  exact (List.dropWhile_sublist _).subset hback

theorem mem_text_of_declaredName {n : Node} {name : String} (h : name ∈ declaredName n) {c : Char}
    (hc : c ∈ name.toList) : ∃ m ∈ n.preorder, c ∈ m.text.toList := by
  unfold declaredName at h
  split at h
  · cases h
  · next child hchild =>
    rw [eq_of_mem_nonempty h, String.toList_ofList] at hc
    exact ⟨child, Node.mem_preorder_of_child? hchild, trim_subset _ hc⟩

theorem mem_text_of_boundByChild {n : Node} {role : Role} {name : String}
    (h : name ∈ boundByChild n role) {c : Char} (hc : c ∈ name.toList) :
    ∃ m ∈ n.preorder, c ∈ m.text.toList := by
  rw [boundByChild_eq] at h
  obtain ⟨m, hm, rfl⟩ := exists_of_mem_boundByAll n.children (boundByRole_subset _ _ h)
  rw [Node.preorder_eq]
  exact ⟨m, List.mem_cons_of_mem _ hm, hc⟩

theorem isAccounted_of_keyName {kind : SymbolKind} (hkind : kind = .method ∨ kind = .property)
    {key : Node} {nodes : List Node} (hkey : key ∈ nodes) {name : String} (h : name ∈ keyName key)
    {c : Char} (hc : c ∈ name.toList) : IsAccounted nodes kind name c := by
  have htext : c ∈ key.text.toList → IsAccounted nodes kind name c :=
    fun hmem => .inl ⟨key, hkey, hmem⟩
  unfold keyName at h
  split at h
  · rw [eq_of_mem_nonempty h] at hc
    exact htext hc
  · rw [eq_of_mem_nonempty h] at hc
    exact htext hc
  · rw [eq_of_mem_nonempty h] at hc
    rcases NumberKey.mem_name hc with hmem | hpart
    · exact htext hmem
    · exact .inr (.inl hpart)
  · rw [eq_of_mem_nonempty h, String.toList_ofList] at hc
    exact htext ((List.dropWhile_sublist _).subset hc)
  · next hstring =>
    have hname := eq_of_mem_nonempty h
    rw [hname] at hc
    rcases StringKey.mem_name hc with hmem | hescape
    · exact htext hmem
    · exact .inr (.inr ⟨hkind, key, hkey, hstring, hname, hescape⟩)
  · cases h

theorem isAccounted_of_memberName {kind : SymbolKind} (hkind : kind = .method ∨ kind = .property)
    {n : Node} {role : Role} {name : String} (h : name ∈ memberName n role) {c : Char}
    (hc : c ∈ name.toList) : IsAccounted n.preorder kind name c := by
  unfold memberName at h
  split at h
  · cases h
  · next hchild => exact isAccounted_of_keyName hkind (Node.mem_preorder_of_child? hchild) h hc

/-- Every character of a name that a node declares is accounted for. -/
theorem isAccounted_of_names {shape : Shape} {n : Node} {name : String}
    (h : name ∈ names shape n) {c : Char} (hc : c ∈ name.toList) :
    IsAccounted n.preorder shape.kind name c := by
  cases shape with
  | «class» => exact .inl (mem_text_of_declaredName h hc)
  | method => exact isAccounted_of_memberName (.inl rfl) h hc
  | property => exact isAccounted_of_memberName (.inr rfl) h hc
  | function => exact .inl (mem_text_of_declaredName h hc)
  | «variable» => exact .inl (mem_text_of_boundByChild h hc)
  | loopBinding => exact .inl (mem_text_of_boundByChild h hc)

/-! ## Names of a script -/

/-- A name that a tree declares is that of one of its nodes. -/
theorem exists_of_mem_collectTree {root : Node} {source : SourceUnit} {kind : SymbolKind}
    {name : String} (h : name ∈ ((collectTree root (.empty source)).names kind).toList) :
    ∃ n ∈ root.preorder, ∃ shape : Shape, shape.kind = kind ∧ name ∈ names shape n := by
  have hempty : ((Inventory.empty source).names kind).toList = [] := by cases kind <;> rfl
  rw [toList_collectTree, mem_firstOccurrences, hempty, List.nil_append,
    declaredBelow_eq_flatMap] at h
  obtain ⟨a, ha, hname⟩ := List.mem_flatMap.1 h
  have hnode : a.2 ∈ root.preorder := by
    rw [← Node.map_snd_placed none root]
    exact List.mem_map_of_mem ha
  unfold declaredAt at hname
  split at hname
  · next shape _ =>
    split at hname
    · next hkind => exact ⟨a.2, hnode, shape, hkind, hname⟩
    · cases hname
  · cases hname

/-- **Characters of declared names.** Every character of a name that a script declares stands
in the script, or is a digit or a point, or the name is that of a quoted key of a class member
with an escape that stands for the character. -/
theorem mem_of_structural {source : SourceUnit} {text : String} {inventory : Inventory}
    (h : structural source text = .ok inventory) {kind : SymbolKind} {name : String}
    (hname : name ∈ (inventory.names kind).toList) {c : Char} (hc : c ∈ name.toList) :
    c ∈ text.toList ∨ NumberKey.IsPart c ∨
      (kind = .method ∨ kind = .property) ∧ IsEscapedIn (tree text).preorder name c := by
  unfold structural at h
  cases hparse : parse text with
  | error damage =>
    rw [hparse] at h
    cases h
  | ok root =>
    rw [hparse] at h
    cases h
    obtain ⟨rfl, -⟩ := whole_of_parse hparse
    obtain ⟨n, hn, shape, rfl, hdeclared⟩ := exists_of_mem_collectTree hname
    have hsubset := Node.preorder_subset (tree text) hn
    rcases isAccounted_of_names hdeclared hc with ⟨m, hm, htext⟩ | hpart | ⟨hkind, hescaped⟩
    · exact .inl ((isOf_of_tree text m (hsubset hm)).2 htext)
    · exact .inr (.inl hpart)
    · obtain ⟨key, hkey, hspelled⟩ := hescaped
      exact .inr (.inr ⟨hkind, key, hsubset hkey, hspelled⟩)

end Declaration

end ScriptInventory
