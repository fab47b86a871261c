import ScriptInventory.Names
import ScriptInventory.Text.WhiteSpace

/-!
# Scanning raw text for declarations

A `Pattern` describes text that looks like a declaration: a keyword, white space, a
name, and perhaps a mark behind the name. `Pattern.scan` finds the matches from left
to right, none of them overlapping. Nothing is known about strings, comments or
words that end in a keyword.
-/

namespace ScriptInventory

/-- Text that looks like a declaration. -/
structure Pattern where
  keywords : List (List Char)
  /-- The marks of which one must follow the name, white space apart. -/
  marks : Option (List Char)
deriving Repr

namespace Pattern

/-- A character that names are made of here. -/
def isNamePart (c : Char) : Bool := c.isAlphanum || c = '_'

def classPattern : Pattern := ⟨["class".toList], none⟩
def functionPattern : Pattern := ⟨["function".toList], some ['(']⟩
def variablePattern : Pattern := ⟨["var".toList, "let".toList], some ['=', ';']⟩
def constantPattern : Pattern := ⟨["const".toList], some ['=']⟩

/-- The text behind one of several keywords. -/
def behindKeyword? (keywords : List (List Char)) (text : List Char) : Option (List Char) :=
  keywords.findSome? fun k =>
    if k.isPrefixOf text then some (text.drop k.length) else none

/-- The text behind the mark that a pattern asks for. -/
def behindMark? (marks : Option (List Char)) (text : List Char) : Option (List Char) :=
  match marks with
  | none => some text
  | some marks =>
    match text.dropWhile Text.isWhiteSpace with
    | c :: rest => if c ∈ marks then some rest else none
    | [] => none

/-- A match at the start of a text: the name, and the text behind the match. -/
def match? (p : Pattern) (text : List Char) : Option (List Char × List Char) :=
  match behindKeyword? p.keywords text with
  | none => none
  | some rest =>
    let behind := rest.dropWhile Text.isWhiteSpace
    let name := behind.takeWhile isNamePart
    if behind.length = rest.length || name.isEmpty then none
    else (behindMark? p.marks (behind.drop name.length)).map fun after => (name, after)

theorem behindKeyword?_length {keywords : List (List Char)} {t r : List Char}
    (h : behindKeyword? keywords t = some r) : r.length ≤ t.length := by
  obtain ⟨_, _, _, _, hk, _⟩ := List.findSome?_eq_some_iff.1 h
  split at hk
  · cases hk
    simp only [List.length_drop]
    omega
  · cases hk

theorem behindMark?_length {marks : Option (List Char)} {t r : List Char}
    (h : behindMark? marks t = some r) : r.length ≤ t.length := by
  unfold behindMark? at h
  split at h
  · cases h
    exact Nat.le_refl _
  · have hs := (List.dropWhile_sublist (p := Text.isWhiteSpace) (l := t)).length_le
    split at h
    · rename_i hd
      split at h
      · cases h
        rw [hd] at hs
        simp only [List.length_cons] at hs
        omega
      · cases h
    · cases h

/-- A match takes characters. -/
theorem match?_length {p : Pattern} {t name after : List Char}
    (h : p.match? t = some (name, after)) : after.length < t.length := by
  unfold match? at h
  split at h
  · cases h
  · rename_i rest hk
    have hr := behindKeyword?_length hk
    dsimp only at h
    split at h
    · cases h
    · rename_i hne
      obtain ⟨a, ha, hpair⟩ := Option.map_eq_some_iff.1 h
      cases hpair
      have hm := behindMark?_length ha
      have hs := (List.dropWhile_sublist (p := Text.isWhiteSpace) (l := rest)).length_le
      simp only [List.length_drop, Bool.or_eq_true, decide_eq_true_eq, not_or] at *
      omega

/-- The names of all matches, from left to right. The search goes on behind a match, so that no
two of them overlap. -/
def scan (p : Pattern) : List Char → List (List Char)
  | [] => []
  | c :: rest =>
    match _h : p.match? (c :: rest) with
    | some (name, after) => name :: scan p after
    | none => scan p rest
termination_by text => text.length
decreasing_by
  · exact match?_length _h
  · simp

/-- The names that a pattern finds, each where it first occurs. -/
def names (p : Pattern) (text : String) : OrderedNames :=
  .ofList ((p.scan text.toList).map String.ofList)

end Pattern

end ScriptInventory
