import ScriptInventory.Script.Lexeme

/-!
# Lexemes are parts of the text

The reader of words gives back the start of the text and what is behind it.
-/

namespace ScriptInventory.Script.Lexeme

/-! ## Words -/

/-- A word and what follows it are the text again; so are the digits of an escape, the rest
of the word behind it, and what follows that. -/
theorem wordTail_append (cs : List Char) :
    (wordTail cs).1 ++ (wordTail cs).2 = cs ∧
      ∀ seen s, bracedTail seen cs = some s → s.1 ++ s.2 = cs := by
  -- the two functions call each other on shorter texts, so both halves go by the length
  induction hn : cs.length using Nat.strongRecOn generalizing cs with
  | _ n ih =>
    subst hn
    constructor
    · unfold wordTail
      split
      · -- an escape in braces
        next cs =>
        split
        · next s hs =>
          have := (ih cs.length (by simp; omega) cs rfl).2 _ s hs
          simp [← this]
        · rfl
      · -- `\u` with four digits
        next a b c d cs _ =>
        split
        · have := (ih cs.length (by simp; omega) cs rfl).1
          simp [this]
        · rfl
      · -- any other character
        next c cs _ _ =>
        split
        · have := (ih cs.length (by simp) cs rfl).1
          simp [Split.cons, this]
        · rfl
      · rfl
    · intro seen s hs
      unfold bracedTail at hs
      split at hs
      · next cs =>
        split at hs
        · cases hs
          have := (ih cs.length (by simp) cs rfl).1
          simp [Split.cons, this]
        · cases hs
      · next c cs _ =>
        split at hs
        · obtain ⟨t, ht, rfl⟩ := Option.map_eq_some_iff.1 hs
          have := (ih cs.length (by simp) cs rfl).2 _ t ht
          simp [Split.cons, this]
        · cases hs
      · cases hs

theorem word?_eq {cs : List Char} {s : Split} (h : word? cs = some s) :
    wordTail cs = s ∧ s.1 ≠ [] := by
  unfold word? at h
  split at h
  · next c w rest heq =>
    split at h
    · cases h
    · cases h
      exact ⟨heq, by simp⟩
  · cases h

/-- Where a word ends: no character that could go on with it follows, and no bracket is in
it. -/
def Split.EndsWord (s : Split) : Prop :=
  (∀ c ∈ s.2.head?, isWordPart c = false) ∧ '(' ∉ s.1

theorem Split.EndsWord.cons {s : Split} (h : s.EndsWord) {c : Char} (hc : c ≠ '(') :
    (s.cons c).EndsWord :=
  ⟨h.1, List.not_mem_cons_of_ne_of_not_mem (Ne.symm hc) h.2⟩

theorem ne_bracket_of_isHexDigit {c : Char} (h : isHexDigit c) : c ≠ '(' := by
  rintro rfl
  exact absurd h (by decide)

/-- A word ends where it has to; so does the rest of one behind an escape. -/
theorem wordTail_endsWord (cs : List Char) :
    (wordTail cs).EndsWord ∧ ∀ seen s, bracedTail seen cs = some s → s.EndsWord := by
  -- as in `wordTail_append`, both functions at once
  induction hn : cs.length using Nat.strongRecOn generalizing cs with
  | _ n ih =>
    subst hn
    constructor
    · unfold wordTail
      split
      · -- an escape in braces
        next cs =>
        split
        · next s hs =>
          have hends := (ih cs.length (by simp; omega) cs rfl).2 _ s hs
          exact ((hends.cons (by decide)).cons (by decide)).cons (by decide)
        · exact ⟨by simp; decide, by simp⟩
      · -- an escape of four digits, none of which is a bracket
        next a b c d cs _ =>
        split
        · next hhexes =>
          simp only [Bool.and_eq_true] at hhexes
          obtain ⟨⟨⟨ha, hb⟩, hc⟩, hd⟩ := hhexes
          have hends := (ih cs.length (by simp; omega) cs rfl).1
          have hdigits := (((hends.cons (ne_bracket_of_isHexDigit hd)).cons
            (ne_bracket_of_isHexDigit hc)).cons (ne_bracket_of_isHexDigit hb)).cons
            (ne_bracket_of_isHexDigit ha)
          exact (hdigits.cons (by decide)).cons (by decide)
        · exact ⟨by simp; decide, by simp⟩
      · next c cs _ _ =>
        split
        · next hc =>
          refine (ih cs.length (by simp) cs rfl).1.cons ?_
          rintro rfl
          exact absurd hc (by decide)
        · next hc => exact ⟨by simpa using hc, by simp⟩
      · exact ⟨by simp, by simp⟩
    · intro seen s hs
      unfold bracedTail at hs
      split at hs
      · next cs =>
        split at hs
        · cases hs
          exact (ih cs.length (by simp) cs rfl).1.cons (by decide)
        · cases hs
      · next c cs _ =>
        split at hs
        · next hc =>
          obtain ⟨t, ht, rfl⟩ := Option.map_eq_some_iff.1 hs
          exact ((ih cs.length (by simp) cs rfl).2 _ t ht).cons (ne_bracket_of_isHexDigit hc)
        · cases hs
      · cases hs

end ScriptInventory.Script.Lexeme
