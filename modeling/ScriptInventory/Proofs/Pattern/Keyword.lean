import Mathlib.Data.List.DropRight
import ScriptInventory.Declaration.Shape
import ScriptInventory.Proofs.Grammar.Script
import ScriptInventory.Proofs.Pattern.Matches
import ScriptInventory.Proofs.Text.Lexemes
import ScriptInventory.Proofs.Walk

/-!
# Keywords that the patterns look for

The patterns of classes and functions look for a keyword and a name behind white space
(`Keyword.Behind`). A script has a word there, and what it declares is the name that the pattern
finds, or goes on behind it (`Keyword.Behind.names_of_word`).
-/

namespace ScriptInventory.Script

open Grammar

/-! ## Nodes at positions -/

namespace Node

/-- A leaf that holds the character at a position of a text. -/
structure Holds (text : List Char) (i : Nat) (n : Node) : Prop where
  leaf : n.children = []
  span : ∃ front behind, text = front ++ (n.text.toList ++ behind) ∧
    n.start = Place.start.after front ∧ front.length ≤ i ∧ i < front.length + n.text.toList.length

/-- A node of what a keyword opens, with the keyword at a place: the node starts there, or the
keyword is below it. -/
def OpensWith (k : Keyword) (p : Place) (n : Node) : Prop :=
  n.kind ∈ k.kinds ∧ (n.start = p ∨ ∃ c ∈ n.children, c.kind = .token k.text ∧ c.start = p)

end Node

namespace Grammar.Keyword

open Pattern

/-- The pattern that looks for a keyword. -/
def pattern : Keyword → Pattern
  | .class => classPattern
  | .function => functionPattern

/-- What the pattern finds of a declared name: the name characters that it starts with. The
bracket behind the name of a function leaves nothing more. -/
def Names (k : Keyword) (found : List Char) (declared : String) : Prop :=
  match k with
  | .class => declared.toList.takeWhile isNamePart = found
  | .function => declared.toList = found

/-- A leaf that is not the keyword holds the character at a position. -/
def Inside (k : Keyword) (text : List Char) (root : Node) (i : Nat) : Prop :=
  ∃ n ∈ root.preorder, n.Holds text i ∧ n.kind ≠ .token k.text

/-- How the tree of a text accounts for a place at which the pattern of a keyword finds a name.
Either the first letter of the keyword is in a leaf that is not the keyword, or the keyword
opens a node, and what that declares is named by the pattern. -/
def Accounted (k : Keyword) (text : List Char) (root : Node) (i : Nat) (name : List Char) : Prop :=
  k.Inside text root i ∨
    ∃ a ∈ root.placed none, a.2.OpensWith k (Place.start.after (text.take i)) ∧
      ∀ d ∈ Declaration.declaredName a.2, k.Names name d

/-- What stands behind a keyword where its pattern matches: white space, a name, and what
follows. -/
structure Behind (k : Keyword) (behind blanks name rest : List Char) : Prop where
  split : behind = blanks ++ (name ++ rest)
  blank : ∀ c ∈ blanks, Text.isWhiteSpace c
  name_ne : name ≠ []
  parts : ∀ c ∈ name, isNamePart c
  stop : ∀ c ∈ rest.head?, isNamePart c = false
  mark : k = .function → ∃ gap after, rest = gap ++ '(' :: after ∧
    ∀ c ∈ gap, Text.isWhiteSpace c

/-- A match of a keyword's pattern. -/
theorem behind_of_matchesAs {k : Keyword} {text name after : List Char}
    (h : k.pattern.MatchesAs text name after) :
    ∃ behind blanks rest, text = k.text.toList ++ behind ∧ k.Behind behind blanks name rest := by
  obtain ⟨keyword, blanks, tail, rfl, hkeyword, ⟨-, hblanks⟩, ⟨hne, hparts⟩, hstop, htail⟩ := h
  have hk : keyword = k.text.toList := by
    cases k <;> exact List.mem_singleton.1 hkeyword
  refine ⟨_, blanks, tail ++ after, by rw [hk], rfl, hblanks, hne, hparts, hstop, ?_⟩
  rintro rfl
  obtain ⟨gap, m, rfl, hgap, hm⟩ := htail
  obtain rfl := List.mem_singleton.1 hm
  exact ⟨gap, after, by simp, hgap⟩

namespace Behind

variable {k : Keyword} {behind blanks name rest : List Char}

/-- Blanks behind the keyword are part of the white space. -/
theorem exists_suffix (h : k.Behind behind blanks name rest) {b u : List Char}
    (hsplit : behind = b ++ u) (hb : ∀ c ∈ b, isBlank c) :
    ∃ more, blanks = b ++ more ∧ u = more ++ (name ++ rest) := by
  rw [h.split] at hsplit
  rcases List.append_eq_append_iff.1 hsplit with ⟨more, hmore, hrest⟩ | ⟨more, hmore, hrest⟩
  · -- a blank at the start of the name
    obtain ⟨c, name', hname⟩ := List.exists_cons_of_ne_nil h.name_ne
    cases more with
    | nil => exact ⟨[], by simpa using hmore.symm, by simpa using hrest.symm⟩
    | cons d more =>
      rw [hname] at hrest
      obtain ⟨rfl, -⟩ := List.cons.inj hrest
      have hpart := h.parts c (hname ▸ List.mem_cons_self)
      have hblank := hb c (hmore ▸ List.mem_append_right _ List.mem_cons_self)
      rw [isBlank_of_isWordPart (isWordPart_of_isPlain (isPlain_of_isNamePart hpart))] at hblank
      cases hblank
  · exact ⟨more, hmore, hrest⟩

/-- What follows the blanks starts with white space or with the name. -/
theorem head_of_suffix (h : k.Behind behind blanks name rest) {more : List Char} {c : Char}
    (hmore : ∀ c ∈ more, Text.isWhiteSpace c) (hc : (more ++ (name ++ rest)).head? = some c) :
    Text.isWhiteSpace c ∨ isNamePart c := by
  cases more with
  | nil =>
    obtain ⟨d, name', hname⟩ := List.exists_cons_of_ne_nil h.name_ne
    rw [hname] at hc
    cases hc
    exact .inr (h.parts _ (hname ▸ List.mem_cons_self))
  | cons d more =>
    cases hc
    exact .inl (hmore _ List.mem_cons_self)

/-- A text whose first visible characters are a name is trimmed at its end only. -/
theorem trim_append {more name : List Char} (hmore : ∀ c ∈ more, Text.isWhiteSpace c)
    (hne : name ≠ []) (hname : ∀ c ∈ name, Text.isWhiteSpace c = false) (w : List Char) :
    Text.trim (more ++ (name ++ w)) = name ++ w.rdropWhile Text.isWhiteSpace := by
  obtain ⟨c, name', rfl⟩ := List.exists_cons_of_ne_nil hne
  have hfront : (more ++ (c :: name' ++ w)).dropWhile Text.isWhiteSpace = c :: name' ++ w := by
    rw [List.dropWhile_append_of_pos hmore]
    exact List.dropWhile_cons_of_neg (by simp [hname c List.mem_cons_self])
  have hend : ∀ d ∈ (c :: name').reverse.head?, Text.isWhiteSpace d = false := fun d hd =>
    hname d (List.mem_reverse.1 (List.mem_of_mem_head? hd))
  rw [Text.trim, hfront, List.reverse_append, List.dropWhile_append]
  split
  · next hall =>
    rw [dropWhile_of_head? hend, List.reverse_reverse, List.rdropWhile,
      List.isEmpty_iff.1 hall]
    simp
  · rw [List.reverse_append, List.reverse_reverse]
    rfl

/-- A word that has white space only declares nothing. -/
theorem nonempty_trim_of_blank {w : List Char} (h : ∀ c ∈ w, Text.isWhiteSpace c) :
    Declaration.nonempty (String.ofList (Text.trim w)) = [] := by
  have hnil : Text.trim w = [] := by
    rw [Text.trim, List.dropWhile_eq_nil_iff.2 h]
    rfl
  rw [hnil]
  rfl

/-- A word behind the keyword that goes as far as it can: what it declares is named by the
pattern. -/
theorem names_of_word (h : k.Behind behind blanks name rest) {b w left : List Char}
    (hsplit : behind = b ++ (w ++ left)) (hb : ∀ c ∈ b, isBlank c)
    (hends : Lexeme.Split.EndsWord (w, left)) :
    ∀ d ∈ Declaration.nonempty (String.ofList (Text.trim w)), k.Names name d := by
  obtain ⟨more, rfl, hrest⟩ := h.exists_suffix hsplit hb
  have hmore : ∀ c ∈ more, Text.isWhiteSpace c := fun c hc =>
    h.blank c (List.mem_append_right _ hc)
  rcases List.append_eq_append_iff.1 hrest with ⟨m, rfl, -⟩ | ⟨m, rfl, hm⟩
  · -- the word ends in the white space
    rw [nonempty_trim_of_blank fun c hc => hmore c (List.mem_append_left _ hc)]
    simp
  · -- the word goes on at least to the end of the name
    obtain ⟨n, rfl, rfl⟩ : ∃ n, m = name ++ n ∧ rest = n ++ left := by
      rcases List.append_eq_append_iff.1 hm with ⟨n, rfl, hn⟩ | ⟨n, rfl, hn⟩
      · exact ⟨n, rfl, hn⟩
      · cases n with
        | nil => exact ⟨[], by simp, by simpa using hn.symm⟩
        | cons c n =>
          have hpart := h.parts c (List.mem_append_right _ List.mem_cons_self)
          have hleft := hends.1 c (by rw [hn]; rfl)
          rw [isWordPart_of_isPlain (isPlain_of_isNamePart hpart)] at hleft
          cases hleft
    rw [trim_append hmore h.name_ne fun c hc => isWhiteSpace_of_isNamePart (h.parts c hc)]
    intro d hd
    have hd : d = String.ofList (name ++ n.rdropWhile Text.isWhiteSpace) := by
      rw [Declaration.nonempty] at hd
      split at hd
      · cases hd
      · exact List.mem_singleton.1 hd
    cases k with
    | «class» =>
      change d.toList.takeWhile isNamePart = name
      rw [hd, String.toList_ofList]
      refine takeWhile_run h.parts fun c hc => h.stop c ?_
      obtain ⟨rear, hrear⟩ := List.rdropWhile_prefix Text.isWhiteSpace n
      rw [Option.mem_def] at hc ⊢
      rw [← hrear, List.append_assoc, List.head?_append, hc, Option.some_or]
    | function =>
      change d.toList = name
      have hwhite : ∀ c ∈ n, Text.isWhiteSpace c := by
        obtain ⟨gap, after, hgap, hwhite⟩ := h.mark rfl
        rcases List.append_eq_append_iff.1 hgap with ⟨m, rfl, -⟩ | ⟨m, rfl, hopen⟩
        · exact fun c hc => hwhite c (List.mem_append_left _ hc)
        · cases m with
          | nil => simpa using hwhite
          | cons c m =>
            obtain ⟨rfl, -⟩ := List.cons.inj hopen
            exact absurd (by simp) hends.2
      rw [hd, String.toList_ofList, List.rdropWhile_eq_nil_iff.2 hwhite, List.append_nil]

end Behind

end Grammar.Keyword

end ScriptInventory.Script
