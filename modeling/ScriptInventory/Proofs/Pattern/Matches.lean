import ScriptInventory.Pattern.Inventory
import ScriptInventory.Proofs.Names
import ScriptInventory.Proofs.Pattern.Regex
import ScriptInventory.Proofs.Text.Runs

/-!
# What the patterns find

`Pattern.MatchesAs` says what a match at the start of a text is: a keyword, white space,
a whole run of name characters, and the mark that the pattern asks for. Main statement:
the names that a scan reports are the first occurrences of the names of the leftmost
matches that do not overlap (`find_eq_leftmost_matches`).

* `Pattern.match?_eq_some_iff`: the scanner's test at one place is that description.
* `Pattern.exists_explains`: the scan from a place on is explained by matches in the
  order of the text, and nothing outside of them is missed. The invariant is the place
  at which the scan goes on.
-/

namespace ScriptInventory

namespace Pattern

/-! ## Matches -/

/-- What a pattern may have behind the name: nothing, or white space and a mark. -/
def IsTail (marks : Option (List Char)) (tail : List Char) : Prop :=
  match marks with
  | none => tail = []
  | some ms => ∃ gap m, tail = gap ++ [m] ∧ (∀ c ∈ gap, Text.isWhiteSpace c) ∧ m ∈ ms

/-- A match at the start of a text, with its name and the text behind it. The name is a
whole run: no character of a name stands behind it. -/
def MatchesAs (p : Pattern) (text name after : List Char) : Prop :=
  ∃ keyword blanks tail, text = keyword ++ (blanks ++ (name ++ (tail ++ after))) ∧
    keyword ∈ p.keywords ∧
    (blanks ≠ [] ∧ ∀ c ∈ blanks, Text.isWhiteSpace c) ∧
    (name ≠ [] ∧ ∀ c ∈ name, isNamePart c) ∧
    (∀ c ∈ (tail ++ after).head?, isNamePart c = false) ∧
    IsTail p.marks tail

theorem head?_dropWhile (q : Char → Bool) (text : List Char) :
    ∀ c ∈ (text.dropWhile q).head?, q c = false := by
  intro c hc
  have hne := List.head?_dropWhile_not q text
  rw [Option.mem_def] at hc
  rw [hc] at hne
  simpa using hne

theorem takeWhile_isTrue (q : Char → Bool) (text : List Char) :
    ∀ c ∈ text.takeWhile q, q c :=
  fun _ hc => List.all_eq_true.1 List.all_takeWhile _ hc

theorem behindKeyword?_eq_some {ks : List (List Char)} {text rest : List Char}
    (h : behindKeyword? ks text = some rest) : ∃ k ∈ ks, text = k ++ rest := by
  obtain ⟨k, hk, hsome⟩ := List.exists_of_findSome?_eq_some h
  split at hsome
  · rename_i hpre
    obtain ⟨t, ht⟩ := List.isPrefixOf_iff_prefix.1 hpre
    cases hsome
    refine ⟨k, hk, ?_⟩
    rw [← ht, List.drop_left]
  · cases hsome

theorem behindKeyword?_append {ks : List (List Char)}
    (hks : ks.Pairwise fun k l => ¬ k <+: l ∧ ¬ l <+: k) {k : List Char} (hk : k ∈ ks)
    (rest : List Char) : behindKeyword? ks (k ++ rest) = some rest := by
  induction ks with
  | nil => cases hk
  | cons l ks ih =>
    obtain ⟨hl, hks'⟩ := List.pairwise_cons.1 hks
    rw [behindKeyword?_cons]
    by_cases hpre : l.isPrefixOf (k ++ rest)
    · -- the keyword that the text starts with is this one
      have hkl : k = l := by
        rcases List.mem_cons.1 hk with heq | hmem
        · exact heq
        · exfalso
          rcases List.prefix_or_prefix_of_prefix (List.isPrefixOf_iff_prefix.1 hpre)
            (List.prefix_append k rest) with h | h
          · exact (hl k hmem).1 h
          · exact (hl k hmem).2 h
      rw [if_pos hpre, hkl, List.drop_left]
    · have hmem : k ∈ ks := by
        rcases List.mem_cons.1 hk with rfl | hmem
        · exact absurd (List.isPrefixOf_iff_prefix.2 (List.prefix_append k rest)) hpre
        · exact hmem
      rw [if_neg hpre, ih hks' hmem]

theorem behindMark?_eq_some {marks : Option (List Char)} {text after : List Char}
    (h : behindMark? marks text = some after) :
    ∃ tail, text = tail ++ after ∧ IsTail marks tail := by
  cases marks with
  | none =>
    simp only [behindMark?, Option.some.injEq] at h
    exact ⟨[], by rw [h, List.nil_append], rfl⟩
  | some ms =>
    simp only [behindMark?] at h
    split at h
    · rename_i m rest hdrop
      split at h
      · rename_i hm
        cases h
        refine ⟨text.takeWhile Text.isWhiteSpace ++ [m], ?_,
          ⟨_, m, rfl, takeWhile_isTrue _ _, hm⟩⟩
        rw [List.append_assoc, List.singleton_append, ← hdrop, List.takeWhile_append_dropWhile]
      · cases h
    · cases h

theorem behindMark?_append {p : Pattern} (hp : p.Definite) {tail : List Char}
    (h : IsTail p.marks tail) (after : List Char) :
    behindMark? p.marks (tail ++ after) = some after := by
  cases hmarks : p.marks with
  | none =>
    rw [hmarks] at h
    rw [show tail = [] from h, List.nil_append]
    rfl
  | some ms =>
    rw [hmarks] at h
    obtain ⟨gap, m, rfl, hgap, hm⟩ := h
    have hws : Text.isWhiteSpace m = false := (hp.marks ms hmarks m hm).1
    have hdrop : (gap ++ [m] ++ after).dropWhile Text.isWhiteSpace = m :: after := by
      rw [List.append_assoc, List.dropWhile_append_of_pos hgap, List.singleton_append]
      exact List.dropWhile_cons_of_neg (by simp [hws])
    simp only [behindMark?, hdrop, if_pos hm]

/-- What the test at one place finds is a match. -/
theorem matchesAs_of_match? {p : Pattern} {text name after : List Char}
    (h : p.match? text = some (name, after)) : p.MatchesAs text name after := by
  unfold match? at h
  split at h
  · cases h
  · rename_i rest hkey
    obtain ⟨keyword, hmem, rfl⟩ := behindKeyword?_eq_some hkey
    dsimp only at h
    split at h
    · cases h
    · rename_i hshape
      simp only [Bool.or_eq_true, decide_eq_true_eq, not_or] at hshape
      obtain ⟨found, hmark, hpair⟩ := Option.map_eq_some_iff.1 h
      cases hpair
      rw [drop_length_takeWhile] at hmark
      obtain ⟨tail, htail, hIs⟩ := behindMark?_eq_some hmark
      have hblanks : rest.takeWhile Text.isWhiteSpace ≠ [] := by
        intro hnil
        have hall := List.takeWhile_append_dropWhile (p := Text.isWhiteSpace) (l := rest)
        rw [hnil, List.nil_append] at hall
        exact hshape.1 (congrArg List.length hall)
      refine ⟨keyword, rest.takeWhile Text.isWhiteSpace, tail, ?_, hmem,
        ⟨hblanks, takeWhile_isTrue _ _⟩, ⟨?_, takeWhile_isTrue _ _⟩, ?_, hIs⟩
      · rw [← htail, List.takeWhile_append_dropWhile, List.takeWhile_append_dropWhile]
      · intro hnil
        exact hshape.2 (by rw [hnil]; rfl)
      · rw [← htail]
        exact head?_dropWhile _ _

/-- The test at one place finds every match. -/
theorem match?_of_matchesAs {p : Pattern} (hp : p.Definite) {text name after : List Char}
    (h : p.MatchesAs text name after) : p.match? text = some (name, after) := by
  obtain ⟨keyword, blanks, tail, rfl, hmem, ⟨hne, hblanks⟩, ⟨hname, hparts⟩, hend, htail⟩ := h
  -- the white space is a longest run because a name opens with none, and the name is one
  -- because of what stands behind it
  have hhead : ∀ c ∈ (name ++ (tail ++ after)).head?, Text.isWhiteSpace c = false := by
    intro c hc
    obtain ⟨d, rest, rfl⟩ := List.exists_cons_of_ne_nil hname
    have hcd : d = c := by simpa using hc
    exact isWhiteSpace_of_isNamePart (hparts c (hcd ▸ List.mem_cons_self))
  have hbehind : (blanks ++ (name ++ (tail ++ after))).dropWhile Text.isWhiteSpace =
      name ++ (tail ++ after) := by
    rw [List.dropWhile_append_of_pos hblanks, dropWhile_of_head? hhead]
  have htake : (name ++ (tail ++ after)).takeWhile isNamePart = name := by
    rw [List.takeWhile_append_of_pos hparts, takeWhile_of_head? hend, List.append_nil]
  have hlen : (name ++ (tail ++ after)).length ≠
      (blanks ++ (name ++ (tail ++ after))).length := by
    have := List.length_pos_of_ne_nil hne
    simp only [List.length_append]
    omega
  have hfull : name.isEmpty = false := by
    simpa using hname
  unfold match?
  rw [behindKeyword?_append hp.apart hmem]
  simp only [hbehind, htake, hfull, hlen, decide_false, Bool.or_self, Bool.false_eq_true,
    if_false, List.drop_left, behindMark?_append hp htail, Option.map_some]

/-- The test at one place finds exactly what a match is. -/
theorem match?_eq_some_iff {p : Pattern} (hp : p.Definite) {text name after : List Char} :
    p.match? text = some (name, after) ↔ p.MatchesAs text name after :=
  ⟨matchesAs_of_match?, match?_of_matchesAs hp⟩

/-! ## Scans -/

/-- A stretch of a text, from the character `start` up to the character `stop`, with a
name in it. -/
structure Span where
  start : Nat
  stop : Nat
  name : List Char
deriving DecidableEq, Repr

/-- The stretch is a match of the pattern. -/
def MatchesIn (p : Pattern) (text : List Char) (s : Span) : Prop :=
  s.stop ≤ text.length ∧ p.MatchesAs (text.drop s.start) s.name (text.drop s.stop)

/-- What stretches have to be in order to explain a scan of a text from a place on. -/
structure Explains (p : Pattern) (text : List Char) (place : Nat) (spans : List Span) :
    Prop where
  /-- Each is a match. -/
  sound : ∀ s ∈ spans, p.MatchesIn text s ∧ place ≤ s.start
  /-- They stand in the order of the text and share no character. -/
  ordered : spans.Pairwise fun s t => s.stop ≤ t.start
  /-- Wherever the pattern matches, one of them covers the place. -/
  exhaustive : ∀ s, p.MatchesIn text s → place ≤ s.start →
    ∃ used ∈ spans, used.start ≤ s.start ∧ s.start < used.stop

theorem MatchesIn.start_lt {p : Pattern} {text : List Char} {s : Span}
    (h : p.MatchesIn text s) : s.start < s.stop := by
  obtain ⟨hstop, keyword, blanks, tail, htext, -, -, ⟨hname, -⟩, -⟩ := h
  have hpos := List.length_pos_of_ne_nil hname
  have hlen := congrArg List.length htext
  simp only [List.length_append, List.length_drop] at hlen
  omega

/-- Nothing matches at the end of a text. -/
theorem Explains.ofEnd (p : Pattern) (text : List Char) {place : Nat}
    (h : text.length ≤ place) : p.Explains text place [] where
  sound := by simp
  ordered := List.Pairwise.nil
  exhaustive := by
    intro s hs hplace
    have hlt := hs.start_lt
    have hstop := hs.1
    omega

/-- Where the pattern does not match, the scan goes on one character later. -/
theorem Explains.ofSkip {p : Pattern} (hp : p.Definite) {text : List Char} {place : Nat}
    {spans : List Span} (hno : p.match? (text.drop place) = none)
    (h : p.Explains text (place + 1) spans) : p.Explains text place spans where
  sound := by
    intro s hs
    obtain ⟨hmatch, hplace⟩ := h.sound s hs
    exact ⟨hmatch, by omega⟩
  ordered := h.ordered
  exhaustive := by
    intro s hs hplace
    by_cases heq : s.start = place
    · have hyes := (match?_eq_some_iff hp).2 hs.2
      rw [heq, hno] at hyes
      cases hyes
    · exact h.exhaustive s hs (by omega)

/-- Where the pattern matches, the scan goes on behind the match. -/
theorem Explains.ofMatch {p : Pattern} {text : List Char} {s : Span} {spans : List Span}
    (hs : p.MatchesIn text s) (h : p.Explains text s.stop spans) :
    p.Explains text s.start (s :: spans) where
  sound := by
    have hlt := hs.start_lt
    intro t ht
    rcases List.mem_cons.1 ht with rfl | ht
    · exact ⟨hs, Nat.le_refl _⟩
    · obtain ⟨hmatch, hplace⟩ := h.sound t ht
      exact ⟨hmatch, by omega⟩
  ordered := List.pairwise_cons.2 ⟨fun t ht => (h.sound t ht).2, h.ordered⟩
  exhaustive := by
    intro t ht hplace
    by_cases hin : t.start < s.stop
    · exact ⟨s, List.mem_cons_self, hplace, hin⟩
    · obtain ⟨used, hused, hle, hlt⟩ := h.exhaustive t ht (by omega)
      exact ⟨used, List.mem_cons_of_mem _ hused, hle, hlt⟩

theorem scan_of_match? {p : Pattern} {text name after : List Char}
    (h : p.match? text = some (name, after)) : p.scan text = name :: p.scan after := by
  cases text with
  | nil =>
    have := match?_length h
    simp at this
  | cons c rest =>
    rw [scan]
    split
    · rename_i n a h'
      rw [h] at h'
      cases h'
      rfl
    · rename_i h'
      rw [h] at h'
      cases h'

theorem scan_of_match?_none {p : Pattern} {c : Char} {rest : List Char}
    (h : p.match? (c :: rest) = none) : p.scan (c :: rest) = p.scan rest := by
  rw [scan]
  split
  · rename_i n a h'
    rw [h] at h'
    cases h'
  · rfl

/-- A scan from a place on is explained by matches, which have the names that it
reports. -/
theorem exists_explains {p : Pattern} (hp : p.Definite) (text : List Char) (place : Nat) :
    ∃ spans, p.Explains text place spans ∧
      spans.map Span.name = p.scan (text.drop place) := by
  -- on the number of characters from the place on
  induction hleft : text.length - place using Nat.strongRecOn generalizing place with
  | _ left ih =>
    by_cases hend : text.length ≤ place
    · refine ⟨[], .ofEnd p text hend, ?_⟩
      rw [List.drop_eq_nil_of_le hend, scan]
      rfl
    · cases hmatch : p.match? (text.drop place) with
      | none =>
        obtain ⟨spans, hspans, hnames⟩ := ih (text.length - (place + 1)) (by omega)
          (place + 1) rfl
        refine ⟨spans, .ofSkip hp hmatch hspans, ?_⟩
        have hlt : place < text.length := by omega
        have hcons : text.drop place = text[place] :: text.drop (place + 1) :=
          List.drop_eq_getElem_cons hlt
        rw [hcons] at hmatch ⊢
        rw [hnames, scan_of_match?_none hmatch]
      | some found =>
        obtain ⟨name, after⟩ := found
        -- the scan goes on at `after`, which is the text from some place on
        have hshort := match?_length hmatch
        have hsuffix : after <:+ text := by
          obtain ⟨keyword, blanks, tail, htext, -⟩ := (match?_eq_some_iff hp).1 hmatch
          refine List.IsSuffix.trans ?_ (List.drop_suffix place text)
          rw [htext]
          simp only [← List.append_assoc]
          exact List.suffix_append _ _
        have hafter : text.drop (text.length - after.length) = after :=
          (List.suffix_iff_eq_drop.1 hsuffix).symm
        rw [List.length_drop] at hshort
        obtain ⟨spans, hspans, hnames⟩ := ih after.length (by omega)
          (text.length - after.length) (by omega)
        have hs : p.MatchesIn text ⟨place, text.length - after.length, name⟩ := by
          refine ⟨Nat.sub_le _ _, ?_⟩
          rw [hafter]
          exact (match?_eq_some_iff hp).1 hmatch
        refine ⟨_, Explains.ofMatch hs hspans, ?_⟩
        rw [List.map_cons, hnames, hafter, scan_of_match? hmatch]

/-! ## What is reported -/

/-- What a scan of a text with a pattern has to report. A match at a place is the way to
match that the regular expression prefers there, and the names are those of stretches
that explain the scan, each where it first occurs. -/
def Reports (p : Pattern) (text : String) (found : OrderedNames) : Prop :=
  (∀ rest name after,
    p.regex.first? rest = some (name, after) ↔ p.MatchesAs rest name after) ∧
  ∃ spans, p.Explains text.toList 0 spans ∧
    found.toList = firstOccurrences (spans.map fun s => String.ofList s.name)

theorem reports_names {p : Pattern} (hp : p.Definite) (text : String) :
    p.Reports text (p.names text) := by
  refine ⟨?_, ?_⟩
  · intro rest name after
    rw [first?_regex hp]
    exact match?_eq_some_iff hp
  · obtain ⟨spans, hspans, hnames⟩ := exists_explains hp text.toList 0
    refine ⟨spans, hspans, ?_⟩
    rw [List.drop_zero] at hnames
    rw [names, OrderedNames.toList_ofList, ← hnames, List.map_map]
    rfl

/-- **The patterns report the leftmost matches.** For every text and each of the four
patterns, the names reported are the first occurrences of the names of matches that do
not overlap, stand in the order of the text, and cover every place at which the pattern
matches; and a match has a whole run of name characters as its name, whatever
backtracking could try. -/
theorem find_eq_leftmost_matches (text : String) :
    classPattern.Reports text (find text).classes ∧
      functionPattern.Reports text (find text).functions ∧
      variablePattern.Reports text (find text).variables ∧
      constantPattern.Reports text (find text).constants :=
  ⟨reports_names classPattern_definite text, reports_names functionPattern_definite text,
    reports_names variablePattern_definite text, reports_names constantPattern_definite text⟩

end Pattern

end ScriptInventory
