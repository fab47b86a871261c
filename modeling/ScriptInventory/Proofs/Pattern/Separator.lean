import ScriptInventory.Pattern.Inventory
import ScriptInventory.Proofs.Pattern.Outline

/-!
# Texts with a separator between them

A separator is a character that no match can hold: no white space, no part of a name and no mark.
What stands in front of it and what stands behind it do not know of each other. Main statement:
in two texts with a separator between them, the patterns find what they find in the first text,
and then what they find in the second one (`Pattern.find_append_separator`).

* `Pattern.matchesAs_separator_iff`: a match that starts in front of a separator ends there, and
  is a match of the first text alone.
* `Pattern.scan_separator`: so a scan of both texts is a scan of one and then of the other.
-/

namespace ScriptInventory

namespace Pattern

/-- A character that no match of a pattern holds. -/
structure Separates (p : Pattern) (c : Char) : Prop where
  notWhiteSpace : Text.isWhiteSpace c = false
  notNamePart : isNamePart c = false
  notMark : ∀ ms, p.marks = some ms → c ∉ ms

variable {p : Pattern} {c : Char} {a b name after : List Char}

theorem Separates.not_mem_tail (hc : p.Separates c) {tail : List Char}
    (h : IsTail p.marks tail) : c ∉ tail := by
  cases hmarks : p.marks with
  | none =>
    rw [hmarks] at h
    rw [show tail = [] from h]
    exact List.not_mem_nil
  | some ms =>
    rw [hmarks] at h
    obtain ⟨gap, m, rfl, hgap, hm⟩ := h
    intro hmem
    rcases List.mem_append.1 hmem with hin | hin
    · have hblank := hgap c hin
      rw [hc.notWhiteSpace] at hblank
      exact Bool.false_ne_true hblank
    · rw [List.mem_singleton.1 hin] at hc
      exact hc.notMark ms hmarks hm

/-- Where a text is cut in two and a character of it is in the second part only, that part
reaches back to the character. -/
theorem exists_left_of_append_eq {front : List Char} (hfront : c ∉ front)
    (h : a ++ c :: b = front ++ after) : ∃ left, a = front ++ left ∧ after = left ++ c :: b := by
  rcases List.append_eq_append_iff.1 h with ⟨rest, rfl, hrest⟩ | ⟨left, rfl, hleft⟩
  · cases rest with
    | nil => exact ⟨[], by simp, by simpa using hrest.symm⟩
    | cons d rest =>
      obtain ⟨rfl, -⟩ := List.cons.inj hrest
      exact absurd (by simp) hfront
  · exact ⟨left, rfl, hleft⟩

/-- A match in front of a separator is a match of what stands there. -/
theorem matchesAs_separator_iff (hp : p.Lettered) (hc : p.Separates c) :
    p.MatchesAs (a ++ c :: b) name after ↔
      ∃ left, after = left ++ c :: b ∧ p.MatchesAs a name left := by
  constructor
  · rintro ⟨keyword, blanks, tail, htext, hmem, ⟨hne, hblanks⟩, ⟨hname, hparts⟩, hend, htail⟩
    -- the separator is in none of the parts of the match
    have hnot : ∀ {w : List Char}, (∀ d ∈ w, isNamePart d) → c ∉ w := by
      intro w hw hin
      have hpart := hw c hin
      rw [hc.notNamePart] at hpart
      exact Bool.false_ne_true hpart
    have hfront : c ∉ keyword ++ blanks ++ name ++ tail := by
      simp only [List.mem_append, not_or]
      refine ⟨⟨⟨hnot (hp keyword hmem).2, ?_⟩, hnot hparts⟩, hc.not_mem_tail htail⟩
      intro hin
      have hblank := hblanks c hin
      rw [hc.notWhiteSpace] at hblank
      exact Bool.false_ne_true hblank
    obtain ⟨left, rfl, rfl⟩ := exists_left_of_append_eq hfront
      (show a ++ c :: b = keyword ++ blanks ++ name ++ tail ++ after by simpa using htext)
    refine ⟨left, rfl, keyword, blanks, tail, by simp, hmem, ⟨hne, hblanks⟩, ⟨hname, hparts⟩,
      ?_, htail⟩
    intro d hd
    apply hend d
    rw [← List.append_assoc, List.head?_append]
    rw [Option.mem_def] at hd ⊢
    rw [hd, Option.some_or]
  · rintro ⟨left, rfl, keyword, blanks, tail, rfl, hmem, hblanks, hname, hend, htail⟩
    refine ⟨keyword, blanks, tail, by simp, hmem, hblanks, hname, ?_, htail⟩
    intro d hd
    rw [← List.append_assoc, List.head?_append] at hd
    -- behind the name stands what stood there, or else the separator
    cases hhead : (tail ++ left).head? with
    | none =>
      rw [hhead, Option.none_or] at hd
      have hcd : c = d := by simpa using hd
      exact hcd ▸ hc.notNamePart
    | some e =>
      rw [hhead, Option.some_or] at hd
      exact hend d (hhead ▸ hd)

/-- The test at a place in front of a separator. -/
theorem match?_separator (hp : p.Lettered) (hdef : p.Definite) (hc : p.Separates c)
    (a b : List Char) :
    p.match? (a ++ c :: b) = (p.match? a).map fun m => (m.1, m.2 ++ c :: b) := by
  ext ⟨name, after⟩
  simp only [Option.map_eq_some_iff, Prod.exists, Prod.mk.injEq, match?_eq_some_iff hdef,
    matchesAs_separator_iff hp hc]
  constructor
  · rintro ⟨left, rfl, h⟩
    exact ⟨name, left, h, rfl, rfl⟩
  · rintro ⟨_, left, h, rfl, rfl⟩
    exact ⟨left, rfl, h⟩

/-- A scan takes the text in front of a separator, and then the text behind it. -/
theorem scan_separator (hp : p.Lettered) (hdef : p.Definite) (hc : p.Separates c)
    (a b : List Char) : p.scan (a ++ c :: b) = p.scan a ++ p.scan b := by
  -- on the length of the text in front, as a match may take any number of its characters
  induction hlen : a.length using Nat.strongRecOn generalizing a with
  | _ n ih =>
    have hmatch := match?_separator hp hdef hc a b
    cases a with
    | nil =>
      rw [scan, List.nil_append, List.nil_append]
      exact passes_sign hp hc.notNamePart b
    | cons d rest =>
      cases hfirst : p.match? (d :: rest) with
      | none =>
        rw [hfirst, Option.map_none] at hmatch
        rw [List.cons_append] at hmatch ⊢
        rw [scan_of_match?_none hmatch, scan_of_match?_none hfirst]
        exact ih rest.length (by simp [← hlen]) rest rfl
      | some found =>
        obtain ⟨name, left⟩ := found
        rw [hfirst, Option.map_some] at hmatch
        rw [scan_of_match? hmatch, scan_of_match? hfirst, List.cons_append]
        congr 1
        exact ih left.length (hlen ▸ match?_length hfirst) left rfl

/-- The names that a pattern finds in two texts with a separator between them. -/
theorem names_separator (hp : p.Lettered) (hdef : p.Definite) (hc : p.Separates c)
    (a b : String) :
    p.names (a ++ String.singleton c ++ b) = (p.names a).extend (p.names b) := by
  apply OrderedNames.ext_toList
  have htext : (a ++ String.singleton c ++ b).toList = a.toList ++ c :: b.toList := by
    simp
  rw [OrderedNames.toList_extend, names, names, names, OrderedNames.toList_ofList,
    OrderedNames.toList_ofList, OrderedNames.toList_ofList, firstOccurrences_append_left,
    firstOccurrences_append_right, htext, scan_separator hp hdef hc, List.map_append]

/-- What the patterns find in one text, and then in another one. -/
def Findings.extend (f g : Findings) : Findings :=
  ⟨f.classes.extend g.classes, f.functions.extend g.functions, f.variables.extend g.variables,
    f.constants.extend g.constants⟩

/-- A character that is no white space, no part of a name and no mark separates for all four
patterns. -/
theorem separates_of_not_mem (hblank : Text.isWhiteSpace c = false)
    (hpart : isNamePart c = false) (hmark : c ∉ ['(', '=', ';']) (k : Outline.Collection) :
    k.pattern.Separates c := by
  have hmarks : ∀ ms, k.pattern.marks = some ms → ∀ m ∈ ms, m ∈ ['(', '=', ';'] := by
    intro ms hms
    cases k <;> cases hms <;> decide
  exact ⟨hblank, hpart, fun ms hms hin => hmark (hmarks ms hms c hin)⟩

/-- **Nothing is found across a separator.** If a character is no white space, no part of a name
and none of the three marks, then in two texts with that character between them each of the four
patterns finds the names of the first text, and then those of the second text that are new. -/
theorem find_append_separator (hblank : Text.isWhiteSpace c = false)
    (hpart : isNamePart c = false) (hmark : c ∉ ['(', '=', ';']) (a b : String) :
    find (a ++ String.singleton c ++ b) = (find a).extend (find b) := by
  have hnames : ∀ k : Outline.Collection, k.pattern.names (a ++ String.singleton c ++ b) =
      (k.pattern.names a).extend (k.pattern.names b) := fun k =>
    names_separator k.lettered k.definite (separates_of_not_mem hblank hpart hmark k) a b
  unfold find Findings.extend
  rw [Findings.mk.injEq]
  exact ⟨hnames .classes, hnames .functions, hnames .variables, hnames .constants⟩

/-- A brace cuts a declaration in two, so that no constant is found, and a name that both texts
declare stays where it was. -/
theorem find_cut_by_brace :
    Text.isWhiteSpace '}' = false ∧ isNamePart '}' = false ∧ '}' ∉ ['(', '=', ';'] ∧
      find ("let b = 1; const a" ++ String.singleton '}' ++ "= 2; let a; var b = 3; class d") =
        (find "let b = 1; const a").extend (find "= 2; let a; var b = 3; class d") ∧
      (find ("let b = 1; const a" ++ String.singleton '}' ++
        "= 2; let a; var b = 3; class d")).variables.toList = ["b", "a"] := by
  have hcut := find_append_separator (c := '}') (by decide) (by decide) (by decide)
    "let b = 1; const a" "= 2; let a; var b = 3; class d"
  refine ⟨by decide, by decide, by decide, hcut, ?_⟩
  rw [hcut]
  decide +kernel

end Pattern

end ScriptInventory
