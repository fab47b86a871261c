import Mathlib.Data.List.Infix
import ScriptInventory.Pattern.Scan
import ScriptInventory.Proofs.Text.Letters

/-!
# Patterns as regular expressions

Each of the four patterns is a regular expression: `class\s+([A-Za-z0-9_]+)`,
`function\s+([A-Za-z0-9_]+)\s*\(`, `(?:var|let)\s+([A-Za-z0-9_]+)\s*[=;]` and
`const\s+([A-Za-z0-9_]+)\s*=`. `Regex.ways` lists all ways in which an expression can
match at the start of a text, the preferred one first: repetition is greedy, and of two
alternatives the first one is preferred.

Main statement: `Pattern.match?` finds the preferred way (`Pattern.first?_regex`). What
backtracking could try beyond the longest runs never matches: a shorter run of white
space leaves white space in front of the name, and a shorter name leaves a name
character in front of the mark.
-/

namespace ScriptInventory

/-- Regular expressions with one group, over classes of characters. -/
inductive Regex where
  | empty
  | letter (p : Char → Bool)
  /-- Any number of characters of a class, as many as possible. -/
  | many (p : Char → Bool)
  | seq (r s : Regex)
  | either (r s : Regex)
  | group (r : Regex)

namespace Regex

/-- The texts behind the runs of a class at the start of a text, longest run first. -/
def runs (p : Char → Bool) : List Char → List (List Char)
  | [] => [[]]
  | c :: rest => if p c then runs p rest ++ [c :: rest] else [c :: rest]

/-- The ways to match at the start of a text, preferred ones first: what the group holds
(`held` if it is not reached) and the text behind the match. -/
def ways : Regex → (held text : List Char) → List (List Char × List Char)
  | .empty, held, text => [(held, text)]
  | .letter _, _, [] => []
  | .letter p, held, c :: rest => if p c then [(held, rest)] else []
  | .many p, held, text => (runs p text).map fun rest => (held, rest)
  | .seq r s, held, text => (r.ways held text).flatMap fun w => s.ways w.1 w.2
  | .either r s, held, text => r.ways held text ++ s.ways held text
  | .group r, held, text =>
    (r.ways held text).map fun w => (text.take (text.length - w.2.length), w.2)

/-- The preferred way to match at the start of a text. -/
def first? (r : Regex) (text : List Char) : Option (List Char × List Char) :=
  (r.ways [] text).head?

/-- One or more characters of a class, as many as possible. -/
def many1 (p : Char → Bool) : Regex := .seq (.letter p) (.many p)

def literal : List Char → Regex
  | [] => .empty
  | c :: rest => .seq (.letter fun d => d = c) (literal rest)

def oneOf : List (List Char) → Regex
  | [] => .letter fun _ => false
  | k :: rest => .either (literal k) (oneOf rest)

theorem head?_runs (p : Char → Bool) (text : List Char) :
    (runs p text).head? = some (text.dropWhile p) := by
  induction text with
  | nil => rfl
  | cons c rest ih =>
    by_cases hc : p c
    · rw [runs, if_pos hc, List.head?_append, ih, List.dropWhile_cons_of_pos hc, Option.some_or]
    · rw [runs, if_neg hc, List.dropWhile_cons_of_neg hc, List.head?_cons]

/-- Where nothing goes on in front of a character of the class, only the longest run
counts. -/
theorem flatMap_runs {β : Type} (p : Char → Bool) (go : List Char → List β)
    (hblocked : ∀ c rest, p c → go (c :: rest) = []) (text : List Char) :
    (runs p text).flatMap go = go (text.dropWhile p) := by
  induction text with
  | nil => simp [runs]
  | cons c rest ih =>
    by_cases hc : p c
    · rw [runs, if_pos hc, List.flatMap_append, ih, List.flatMap_cons, hblocked c rest hc,
        List.dropWhile_cons_of_pos hc]
      simp
    · rw [runs, if_neg hc, List.dropWhile_cons_of_neg hc]
      simp

theorem ways_many1_cons (p : Char → Bool) (held : List Char) (c : Char) (rest : List Char) :
    (many1 p).ways held (c :: rest) =
      if p c then (runs p rest).map fun rest => (held, rest) else [] := by
  by_cases hc : p c <;> simp [many1, ways, hc]

theorem ways_literal (k held text : List Char) :
    (literal k).ways held text =
      if k.isPrefixOf text then [(held, text.drop k.length)] else [] := by
  induction k generalizing text with
  | nil => simp [literal, ways]
  | cons c k ih =>
    cases text with
    | nil => simp [literal, ways]
    | cons d rest =>
      by_cases hd : d = c
      · subst hd
        simp [literal, ways, ih]
      · have hne : (c == d) = false := by simpa using fun h => hd h.symm
        simp [literal, ways, hd, List.isPrefixOf, hne]

theorem ways_oneOf (ks : List (List Char)) (held text : List Char) :
    (oneOf ks).ways held text =
      ks.flatMap fun k => if k.isPrefixOf text then [(held, text.drop k.length)] else [] := by
  induction ks with
  | nil => cases text <;> rfl
  | cons k rest ih => rw [oneOf, ways, ih, ways_literal, List.flatMap_cons]

end Regex

namespace Pattern

/-- What a pattern asks for behind the name. -/
def markRegex : Option (List Char) → Regex
  | none => .empty
  | some marks => .seq (.many Text.isWhiteSpace) (.letter fun c => c ∈ marks)

/-- The regular expression of a pattern. -/
def regex (p : Pattern) : Regex :=
  .seq (.oneOf p.keywords) (.seq (.many1 Text.isWhiteSpace)
    (.seq (.group (.many1 isNamePart)) (markRegex p.marks)))

/-- What makes a pattern free of choices: of its keywords none starts another one, and no
mark is white space or part of a name. -/
structure Definite (p : Pattern) : Prop where
  apart : p.keywords.Pairwise fun k l => ¬ k <+: l ∧ ¬ l <+: k
  marks : ∀ ms, p.marks = some ms →
    ∀ m ∈ ms, Text.isWhiteSpace m = false ∧ isNamePart m = false

/-- Names are made of plain characters. -/
theorem isPlain_of_isNamePart {c : Char} (h : isNamePart c) : IsPlain c := by
  simp only [isNamePart, Char.isAlphanum, Bool.or_eq_true, decide_eq_true_eq] at h
  rcases h with (hletter | hdigit) | rfl
  · have hrange := toNat_of_isAlpha hletter
    rw [IsPlain]
    omega
  · exact .inr (.inr (.inl (toNat_of_isDigit hdigit)))
  · rw [IsPlain]
    decide

/-- No character of a name is white space. -/
theorem isWhiteSpace_of_isNamePart {c : Char} (h : isNamePart c) :
    Text.isWhiteSpace c = false :=
  isWhiteSpace_of_isPlain (isPlain_of_isNamePart h)

/-! ## The preferred way -/

theorem drop_length_takeWhile (q : Char → Bool) (text : List Char) :
    text.drop (text.takeWhile q).length = text.dropWhile q := by
  calc text.drop (text.takeWhile q).length
      = (text.takeWhile q ++ text.dropWhile q).drop (text.takeWhile q).length := by
        rw [List.takeWhile_append_dropWhile]
    _ = text.dropWhile q := List.drop_left

theorem take_length_sub_dropWhile (q : Char → Bool) (text : List Char) :
    text.take (text.length - (text.dropWhile q).length) = text.takeWhile q := by
  have hlen : text.length - (text.dropWhile q).length = (text.takeWhile q).length := by
    have h := congrArg List.length (List.takeWhile_append_dropWhile (p := q) (l := text))
    rw [List.length_append] at h
    omega
  calc text.take (text.length - (text.dropWhile q).length)
      = (text.takeWhile q ++ text.dropWhile q).take (text.takeWhile q).length := by
        rw [List.takeWhile_append_dropWhile, hlen]
    _ = text.takeWhile q := List.take_left

/-- The ways to match a mark: there is one at most. -/
theorem ways_markRegex {p : Pattern} (hp : p.Definite) {ms : List Char} (hms : p.marks = some ms)
    (held text : List Char) :
    (markRegex (some ms)).ways held text =
      (behindMark? (some ms) text).toList.map fun rest => (held, rest) := by
  have hgo : ∀ c rest, Text.isWhiteSpace c →
      (Regex.letter fun c => c ∈ ms).ways held (c :: rest) = [] := by
    intro c rest hc
    have hmark : c ∉ ms := by
      intro hmem
      rw [(hp.marks ms hms c hmem).1] at hc
      exact Bool.false_ne_true hc
    simp [Regex.ways, hmark]
  have hruns := Regex.flatMap_runs Text.isWhiteSpace
    ((Regex.letter fun c => c ∈ ms).ways held) hgo text
  simp only [markRegex, Regex.ways, List.flatMap_map]
  rw [hruns, behindMark?]
  cases text.dropWhile Text.isWhiteSpace with
  | nil => rfl
  | cons c rest =>
    by_cases hc : c ∈ ms <;> simp [Regex.ways, hc]

/-- In front of a character of a name there is no mark. -/
theorem behindMark?_of_isNamePart {p : Pattern} (hp : p.Definite) {ms : List Char}
    (hms : p.marks = some ms) {c : Char} {rest : List Char} (hc : isNamePart c) :
    behindMark? (some ms) (c :: rest) = none := by
  have hmark : c ∉ ms := by
    intro hmem
    rw [(hp.marks ms hms c hmem).2] at hc
    exact Bool.false_ne_true hc
  have hws : ¬ (Text.isWhiteSpace c = true) := by
    rw [isWhiteSpace_of_isNamePart hc]
    exact Bool.false_ne_true
  simp [behindMark?, hws, hmark]

/-- The part of a pattern from the name on. -/
def nameRegex (p : Pattern) : Regex := .seq (.group (.many1 isNamePart)) (markRegex p.marks)

/-- The ways to match from the name on, in front of a character of a name. -/
theorem ways_nameRegex_cons (p : Pattern) (held : List Char) {c : Char} (rest : List Char)
    (hc : isNamePart c) :
    p.nameRegex.ways held (c :: rest) =
      (Regex.runs isNamePart rest).flatMap fun left =>
        (markRegex p.marks).ways ((c :: rest).take ((c :: rest).length - left.length)) left := by
  simp only [nameRegex, Regex.ways, Regex.ways_many1_cons, if_pos hc, List.map_map,
    List.flatMap_map, Function.comp_def]

/-- The preferred way to match from the name on takes the whole run of the name. -/
theorem head?_ways_nameRegex {p : Pattern} (hp : p.Definite) (held text : List Char) :
    (p.nameRegex.ways held text).head? =
      if (text.takeWhile isNamePart).isEmpty then none
      else (behindMark? p.marks (text.dropWhile isNamePart)).map
        fun after => (text.takeWhile isNamePart, after) := by
  cases text with
  | nil => rfl
  | cons c rest =>
    by_cases hc : isNamePart c
    · have hrun : (c :: rest).dropWhile isNamePart = rest.dropWhile isNamePart :=
        List.dropWhile_cons_of_pos hc
      have hne : ¬ ((c :: rest).takeWhile isNamePart).isEmpty := by
        simp [List.takeWhile_cons_of_pos hc]
      have hname := take_length_sub_dropWhile isNamePart (c :: rest)
      rw [hrun] at hname
      rw [if_neg hne, ways_nameRegex_cons p held rest hc, hrun]
      cases hmarks : p.marks with
      | none =>
        -- without a mark the longest run is the first way
        simp only [markRegex, Regex.ways, behindMark?, Option.map_some]
        rw [← List.map_eq_flatMap, List.head?_map, Regex.head?_runs, Option.map_some, hname]
      | some ms =>
        -- with a mark it is the only one
        simp only [ways_markRegex hp hmarks]
        rw [Regex.flatMap_runs, hname]
        · cases behindMark? (some ms) (rest.dropWhile isNamePart) <;> rfl
        · intro d left hd
          rw [behindMark?_of_isNamePart hp hmarks hd]
          rfl
    · have hempty : ((c :: rest).takeWhile isNamePart).isEmpty := by
        rw [List.takeWhile_cons_of_neg hc]
        rfl
      rw [if_pos hempty]
      simp [nameRegex, Regex.ways, Regex.ways_many1_cons, hc]

/-- The part of a pattern behind the keyword. -/
def blankRegex (p : Pattern) : Regex := .seq (.many1 Text.isWhiteSpace) p.nameRegex

/-- The ways to match from the white space on: it is taken as a whole. -/
theorem ways_blankRegex (p : Pattern) (held text : List Char) :
    p.blankRegex.ways held text =
      if (text.dropWhile Text.isWhiteSpace).length = text.length then []
      else p.nameRegex.ways held (text.dropWhile Text.isWhiteSpace) := by
  cases text with
  | nil => rfl
  | cons c rest =>
    by_cases hc : Text.isWhiteSpace c
    · have hshort : (rest.dropWhile Text.isWhiteSpace).length ≠ (c :: rest).length := by
        have := (List.dropWhile_sublist (p := Text.isWhiteSpace) (l := rest)).length_le
        simp only [List.length_cons]
        omega
      rw [List.dropWhile_cons_of_pos hc, if_neg hshort]
      simp only [blankRegex, Regex.ways, Regex.ways_many1_cons, if_pos hc, List.flatMap_map]
      refine Regex.flatMap_runs Text.isWhiteSpace (p.nameRegex.ways held) ?_ rest
      intro d left hd
      have hname : ¬ isNamePart d := by
        intro hpart
        rw [isWhiteSpace_of_isNamePart hpart] at hd
        exact Bool.false_ne_true hd
      simp [nameRegex, Regex.ways, Regex.ways_many1_cons, hname]
    · rw [List.dropWhile_cons_of_neg hc, if_pos rfl]
      simp [blankRegex, Regex.ways, Regex.ways_many1_cons, hc]

theorem behindKeyword?_cons (k : List Char) (ks : List (List Char)) (text : List Char) :
    behindKeyword? (k :: ks) text =
      if k.isPrefixOf text then some (text.drop k.length) else behindKeyword? ks text := by
  by_cases h : k.isPrefixOf text
  · simp only [behindKeyword?, List.findSome?_cons, if_pos h]
  · simp only [behindKeyword?, List.findSome?_cons, if_neg h]

/-- Of keywords none of which starts another one, the first one that a text starts with
is the only one. -/
theorem flatMap_keywords {β : Type} (go : List Char → List β) (text : List Char) :
    ∀ ks : List (List Char), (ks.Pairwise fun k l => ¬ k <+: l ∧ ¬ l <+: k) →
      (ks.flatMap fun k => if k.isPrefixOf text then go (text.drop k.length) else []) =
        ((behindKeyword? ks text).toList.flatMap go)
  | [], _ => rfl
  | k :: ks, h => by
    obtain ⟨hk, hks⟩ := List.pairwise_cons.1 h
    have ih := flatMap_keywords go text ks hks
    by_cases hpre : k.isPrefixOf text
    · have hrest : (ks.flatMap fun l => if l.isPrefixOf text then go (text.drop l.length)
          else []) = [] := by
        rw [List.flatMap_eq_nil_iff]
        intro l hl
        have hno : ¬ l.isPrefixOf text := by
          intro hpre'
          rcases List.prefix_or_prefix_of_prefix (List.isPrefixOf_iff_prefix.1 hpre)
            (List.isPrefixOf_iff_prefix.1 hpre') with hkl | hlk
          · exact (hk l hl).1 hkl
          · exact (hk l hl).2 hlk
        rw [if_neg hno]
      rw [List.flatMap_cons, hrest, if_pos hpre, behindKeyword?_cons, if_pos hpre]
      simp
    · rw [List.flatMap_cons, if_neg hpre, List.nil_append, ih, behindKeyword?_cons, if_neg hpre]

/-- A pattern finds the preferred way to match its regular expression. -/
theorem first?_regex {p : Pattern} (hp : p.Definite) (text : List Char) :
    p.regex.first? text = p.match? text := by
  have hways : p.regex.ways [] text =
      (behindKeyword? p.keywords text).toList.flatMap (p.blankRegex.ways []) := by
    rw [← flatMap_keywords _ _ _ hp.apart]
    simp only [regex, blankRegex, nameRegex, Regex.ways, Regex.ways_oneOf, List.flatMap_assoc]
    congr 1
    funext k
    split <;> simp
  rw [Regex.first?, hways, match?]
  cases behindKeyword? p.keywords text with
  | none => rfl
  | some rest =>
    simp only [Option.toList_some, List.flatMap_singleton, ways_blankRegex]
    by_cases hlen : (rest.dropWhile Text.isWhiteSpace).length = rest.length
    · simp [hlen]
    · rw [if_neg hlen, head?_ways_nameRegex hp, drop_length_takeWhile]
      simp [hlen]

theorem classPattern_definite : classPattern.Definite :=
  ⟨by simp [classPattern], by simp [classPattern]⟩

theorem functionPattern_definite : functionPattern.Definite :=
  ⟨by simp [functionPattern], by
    intro ms h
    cases h
    simp only [List.mem_cons, List.not_mem_nil, or_false, forall_eq]
    decide⟩

theorem variablePattern_definite : variablePattern.Definite :=
  ⟨by decide, by
    intro ms h
    cases h
    simp only [List.mem_cons, List.not_mem_nil, or_false, forall_eq_or_imp, forall_eq]
    decide⟩

theorem constantPattern_definite : constantPattern.Definite :=
  ⟨by simp [constantPattern], by
    intro ms h
    cases h
    simp only [List.mem_cons, List.not_mem_nil, or_false, forall_eq]
    decide⟩

end Pattern

end ScriptInventory
