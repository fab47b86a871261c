import Mathlib
import ScriptInventory.Proofs.Key.CodeUnits

/-!
# Escapes that stand for no character

The number of an escape can be that of a surrogate, or lie beyond the last character, of
whatever length. What stands between quotes is then still read piece by piece. Main
statement: every piece contributes what it stands for, and an escape that stands for no
character its own text, but without its braces if it has any; so the text is read as it
should be exactly if no such escape is in braces (`unescape_of_pieces`).

* `Piece.unescape_append`: what one piece contributes, whatever follows it.
* `length_values`: each such escape in braces loses two characters.
-/

namespace ScriptInventory.Declaration.StringKey

variable {q : Quote}

/-! ## Pieces -/

/-- A piece of what stands between quotes. -/
inductive Piece (q : Quote) where
  /-- A character in one of its forms. -/
  | char (c : Char) (written : List Char) : SpellsChar q c written → Piece q
  /-- A character behind a backslash that makes no escape of its own, a digit included. -/
  | itself (c : Char) : c ≠ '0' → c ∉ notThemselves → Piece q
  /-- The end of a line behind a backslash. -/
  | lineEnd (e : List Char) : e ∈ lineEnds → Piece q
  /-- Four digits that stand for no character. -/
  | unit (digits : List HexDigit) :
      digits.length = 4 → ¬ (numeral digits).isValidChar → Piece q
  /-- Digits in braces that stand for no character. -/
  | braced (digits : List HexDigit) : ¬ (numeral digits).isValidChar → Piece q

namespace Piece

def written : Piece q → List Char
  | char _ written _ => written
  | itself c _ _ => ['\\', c]
  | lineEnd e _ => '\\' :: e
  | unit digits _ _ => unitEscape digits
  | braced digits _ => bracedEscape digits

/-- What a piece stands for: its own text if it is an escape that stands for no character,
whether or not the other half of a pair of surrogates is beside it. -/
def value : Piece q → List Char
  | char c _ _ => [c]
  | itself c _ _ => [c]
  | lineEnd _ _ => []
  | unit digits _ _ => unitEscape digits
  | braced digits _ => bracedEscape digits

/-- Whether a piece is an escape in braces that stands for no character. -/
def isBraced : Piece q → Bool
  | braced _ _ => true
  | _ => false

/-- What a piece is read as: its value, but without the braces. -/
def reading : Piece q → List Char
  | braced digits _ => unitEscape digits
  | p => p.value

/-- No piece starts with a line feed, which would join a return in front of it. -/
theorem head?_append_ne (p : Piece q) (rest : List Char) :
    (p.written ++ rest).head? ≠ some '\n' := by
  cases p with
  | char c written h => exact h.head?_append_ne rest
  | itself => simp [written]
  | lineEnd => simp [written]
  | unit => simp [written, unitEscape]
  | braced => simp [written, bracedEscape]

/-- Each piece is read on its own. -/
theorem unescape_append (p : Piece q) {rest : List Char} (hrest : rest.head? ≠ some '\n') :
    unescape (p.written ++ rest) = p.reading ++ unescape rest := by
  cases p with
  | char c written h => exact h.unescape_append rest
  | itself c hzero hown => exact unescape_itself hzero hown rest
  | lineEnd e he => exact unescape_lineEnd he hrest
  | unit digits hlength h => exact unescape_unitEscape_of_not_isValidChar hlength h rest
  | braced digits h =>
    rw [written, reading, unescape_bracedEscape, codePoint_of_not_isValidChar 'u' h, unitEscape]

theorem reading_eq_value {p : Piece q} (h : p.isBraced = false) : p.reading = p.value := by
  cases p with
  | braced => cases h
  | _ => rfl

/-- The braces are all that is lost. -/
theorem length_value (p : Piece q) :
    p.value.length = p.reading.length + if p.isBraced then 2 else 0 := by
  cases p with
  | braced => simp [value, reading, isBraced, bracedEscape, unitEscape]
  | _ => rfl

end Piece

/-! ## Reading them -/

theorem head?_pieces_ne (pieces : List (Piece q)) :
    (pieces.flatMap Piece.written).head? ≠ some '\n' := by
  cases pieces with
  | nil => simp
  | cons p pieces =>
    rw [List.flatMap_cons]
    exact p.head?_append_ne _

/-- What is read is what the pieces are read as, one after the other. -/
theorem unescape_written (pieces : List (Piece q)) :
    unescape (pieces.flatMap Piece.written) = pieces.flatMap Piece.reading := by
  induction pieces with
  | nil => exact unescape_nil
  | cons p pieces ih =>
    -- the only piece that looks at what follows is a return behind a backslash
    rw [List.flatMap_cons, List.flatMap_cons, p.unescape_append (head?_pieces_ne pieces), ih]

theorem length_values (pieces : List (Piece q)) :
    (pieces.flatMap Piece.value).length =
      (pieces.flatMap Piece.reading).length + 2 * pieces.countP Piece.isBraced := by
  induction pieces with
  | nil => rfl
  | cons p pieces ih =>
    rw [List.flatMap_cons, List.flatMap_cons, List.length_append, List.length_append, ih,
      p.length_value, List.countP_cons]
    split <;> omega

/-- The pieces are read as what they stand for exactly if no braces are lost. -/
theorem readings_eq_values_iff (pieces : List (Piece q)) :
    pieces.flatMap Piece.reading = pieces.flatMap Piece.value ↔
      ∀ p ∈ pieces, p.isBraced = false := by
  constructor
  · -- each escape in braces makes the text of the values two characters longer
    intro heq
    have hlength := length_values pieces
    rw [← heq] at hlength
    have hnone : pieces.countP Piece.isBraced = 0 := by omega
    simpa using hnone
  · intro h
    exact List.flatMap_congr fun p hp => Piece.reading_eq_value (h p hp)

/-- **Escapes that stand for no character stay, but for braces.** What stands between
quotes, made of characters in any of their forms, of line ends behind backslashes and of
escapes that stand for no character, in any order, is read piece by piece: each piece
contributes what it stands for, and an escape that stands for no character its own text,
without its braces if it has any. So the whole is what the pieces stand for exactly if no
such escape is in braces, and it is what the key is named. -/
theorem unescape_of_pieces (pieces : List (Piece q)) :
    unescape (pieces.flatMap Piece.written) = pieces.flatMap Piece.reading ∧
      (unescape (pieces.flatMap Piece.written) = pieces.flatMap Piece.value ↔
        ∀ p ∈ pieces, p.isBraced = false) ∧
      name (quoted q (pieces.flatMap Piece.written)) =
        String.ofList (pieces.flatMap Piece.reading) := by
  have hread := unescape_written pieces
  refine ⟨hread, ?_, ?_⟩
  · rw [hread]
    exact readings_eq_values_iff pieces
  · rw [name, quoted, String.toList_ofList, unquote_quoted, hread]

/-- A letter, half a pair of surrogates, the end of a line, a digit behind a backslash, and an
escape in braces behind the last character. -/
theorem unescape_of_pieces_mixed :
    ∃ pieces : List (Piece .single),
      pieces.flatMap Piece.written =
        ['a', '\\', 'u', 'D', '8', '3', 'D', '\\', '\r', '\\', '8',
          '\\', 'u', '{', '1', '1', '0', '0', '0', '0', '}'] ∧
      unescape (pieces.flatMap Piece.written) =
        ['a', '\\', 'u', 'D', '8', '3', 'D', '8', '\\', 'u', '1', '1', '0', '0', '0', '0'] ∧
      unescape (pieces.flatMap Piece.written) ≠ pieces.flatMap Piece.value := by
  have hplain : SpellsChar .single 'a' ['a'] :=
    .plain (by decide) (by decide) (by decide) (by decide)
  have hhalf : ¬ (numeral [⟨13, true⟩, ⟨8, false⟩, ⟨3, false⟩, ⟨13, true⟩]).isValidChar := by
    decide
  have hbehind : ¬ (numeral [⟨1, false⟩, ⟨1, false⟩, ⟨0, false⟩, ⟨0, false⟩, ⟨0, false⟩,
      ⟨0, false⟩]).isValidChar := by decide
  have hend : ['\r'] ∈ lineEnds := by decide
  have hitself : '8' ∉ notThemselves := by decide
  obtain ⟨hread, hback, -⟩ := unescape_of_pieces
    [.char 'a' ['a'] hplain, .unit _ rfl hhalf, .lineEnd ['\r'] hend,
      .itself '8' (by decide) hitself, .braced _ hbehind]
  exact ⟨_, rfl, hread, mt hback.1 (by simp [Piece.isBraced])⟩

/-- An escape in braces that stands for no character does not stay as it is written. -/
theorem braces_are_not_kept :
    ∃ p : Piece .single,
      p.written = ['\\', 'u', '{', '1', '1', '0', '0', '0', '0', '}'] ∧ p.value = p.written ∧
      unescape p.written ≠ p.value ∧
      name (quoted .single p.written) =
        String.ofList ['\\', 'u', '1', '1', '0', '0', '0', '0'] := by
  have hbehind : ¬ (numeral [⟨1, false⟩, ⟨1, false⟩, ⟨0, false⟩, ⟨0, false⟩, ⟨0, false⟩,
      ⟨0, false⟩]).isValidChar := by decide
  obtain ⟨p, hp⟩ : ∃ p : Piece .single, p = .braced _ hbehind := ⟨_, rfl⟩
  have hwritten : p.written = ['\\', 'u', '{', '1', '1', '0', '0', '0', '0', '}'] := by
    rw [hp]
    rfl
  have hvalue : p.value = p.written := by
    rw [hp]
    rfl
  have hread : unescape p.written = ['\\', 'u', '1', '1', '0', '0', '0', '0'] := by
    have hpiece := unescape_written [p]
    rw [hp] at hpiece ⊢
    exact hpiece
  refine ⟨p, hwritten, hvalue, ?_, ?_⟩
  · rw [hread, hvalue, hwritten]
    decide
  · rw [name, quoted, String.toList_ofList, unquote_quoted, hread]

end ScriptInventory.Declaration.StringKey
