import Mathlib.Algebra.GroupWithZero.Nat
import Mathlib.Data.List.Induction
import ScriptInventory.Script.Place

/-!
# Places in a text

What the place behind a text says: how many line feeds it has, and how many bytes its last
line has (`Place.start_after`). Both are counted from one.
-/

namespace ScriptInventory.Script

/-- The last line of a text, as far as the text goes. -/
def lastLine (front : List Char) : List Char :=
  (front.reverse.takeWhile (· ≠ '\n')).reverse

theorem lastLine_concat (front : List Char) (c : Char) :
    lastLine (front ++ [c]) = if c = '\n' then [] else lastLine front ++ [c] := by
  unfold lastLine
  rw [List.reverse_append, List.reverse_singleton, List.singleton_append, List.takeWhile_cons]
  by_cases h : c = '\n' <;> simp [h]

namespace Place

/-- The place behind a text: a line for each line feed in it and one more, and a column for
each byte of its last line and one more. -/
def behind (front : List Char) : Place :=
  ⟨front.count '\n' + 1, ((lastLine front).map Char.utf8Size).sum + 1⟩

theorem start_after (front : List Char) : start.after front = behind front := by
  induction front using List.reverseRecOn with
  | nil => rfl
  | append_singleton front c ih =>
    rw [after_append, ih, after_cons, after_nil, next, behind, behind, lastLine_concat]
    by_cases h : c = '\n'
    · simp [h]
    · simp [h]
      omega

/-- The place of a character of a text, or of its end. -/
def IsIn (text : String) (p : Place) : Prop :=
  ∃ front rest, text.toList = front ++ rest ∧ p = behind front

theorem isIn_start (text : String) : IsIn text start := ⟨[], text.toList, rfl, rfl⟩

theorem isIn_after {text : String} {front rest : List Char} (h : text.toList = front ++ rest) :
    IsIn text (start.after front) := ⟨front, rest, h, start_after front⟩

end Place

end ScriptInventory.Script
