import Mathlib
import ScriptInventory.Json.Pretty
import ScriptInventory.Json.Token

/-!
# JSON texts, lexeme by lexeme

`Lexes view text views` says that the lexer reads a text as lexemes of which `view` shows
`views`, whatever stands in front of it and, as far as that cannot make a number longer, behind
it. Texts are put together (`LexesClosed.append`, `LexesClosed.append_lexes`,
`Lexes.append_closed`), blanks have no lexemes (`lexesClosed_blanks`), and marks and words are
one lexeme each (`lexesClosed_mark`, `lexesClosed_word`).
-/

namespace ScriptInventory.Json

/-! ## Lexemes of a text -/

/-- What a reader sees of the lexemes of a text that starts at a spot. -/
def viewsFrom {α : Type} (view : Lexeme → α) (s : Spot) (text : List Char) : List α :=
  (lex (text.length + 1) [] s text).lexemes.map view

theorem lex_cons_blank {fuel : Nat} {seen : List Lexeme} {s : Spot} {c : Char}
    {rest : List Char} (hc : isBlank c) :
    lex (fuel + 1) seen s (c :: rest) = lex fuel seen (s.next c) rest := by
  rw [lex, if_pos hc]

/-- What was seen before stays in front. -/
theorem lexemes_lex (fuel : Nat) (seen : List Lexeme) (s : Spot) (text : List Char) :
    (lex fuel seen s text).lexemes = seen.reverse ++ (lex fuel [] s text).lexemes := by
  induction fuel generalizing seen s text with
  | zero => simp [lex]
  | succ fuel ih =>
    cases text with
    | nil => simp [lex]
    | cons c rest =>
      rw [lex, lex]
      by_cases hc : isBlank c
      · rw [if_pos hc, if_pos hc, ih]
      · rw [if_neg hc, if_neg hc]
        dsimp only
        split
        · simp
        · rw [ih (_ :: seen), ih [_]]
          simp

/-- Fuel beyond the number of characters changes nothing. -/
theorem lexemes_lex_fuel {fuel more : Nat} (seen : List Lexeme) (s : Spot) (text : List Char)
    (hfuel : text.length < fuel) (hmore : text.length < more) :
    lex fuel seen s text = lex more seen s text := by
  induction fuel generalizing more seen s text with
  | zero => omega
  | succ fuel ih =>
    obtain ⟨more, rfl⟩ : ∃ k, more = k + 1 := ⟨more - 1, by omega⟩
    cases text with
    | nil => rfl
    | cons c rest =>
      simp only [List.length_cons] at hfuel hmore
      rw [lex, lex]
      by_cases hc : isBlank c
      · rw [if_pos hc, if_pos hc]
        exact ih _ _ _ (by omega) (by omega)
      · rw [if_neg hc, if_neg hc]
        dsimp only
        split
        · rfl
        · rename_i hlength
          apply ih <;> simp only [List.length_drop, List.length_cons] <;> omega

variable {α : Type} {view : Lexeme → α}

theorem viewsFrom_nil (s : Spot) : viewsFrom view s [] = [] := rfl

theorem viewsFrom_blank (s : Spot) {c : Char} (rest : List Char) (hc : isBlank c) :
    viewsFrom view s (c :: rest) = viewsFrom view (s.next c) rest := by
  rw [viewsFrom, lex_cons_blank hc]
  rfl

/-- A token at the start of a text is in the first one of its lexemes. -/
theorem viewsFrom_token (view : Lexeme → α) (s : Spot) {text : List Char} (rest : List Char)
    (hne : text ≠ []) (hblank : ∀ c ∈ text.head?, isBlank c = false)
    (hlength : (takeToken s (text ++ rest)).length = text.length) :
    ∃ (l : Lexeme) (s' : Spot), l.token = (takeToken s (text ++ rest)).token ∧
      l.skipped = (takeToken s (text ++ rest)).skipped ∧
      viewsFrom view s (text ++ rest) = view l :: viewsFrom view s' rest := by
  obtain ⟨c, tail, rfl⟩ := List.exists_cons_of_ne_nil hne
  have hc : ¬ isBlank c = true := by
    rw [hblank c rfl]
    exact Bool.false_ne_true
  refine ⟨⟨(takeToken s (c :: tail ++ rest)).token, s, s.peek (c :: tail ++ rest),
    ((c :: tail ++ rest).take (c :: tail).length).foldl Spot.next s,
    (takeToken s (c :: tail ++ rest)).skipped⟩,
    ((c :: tail ++ rest).take (c :: tail).length).foldl Spot.next s, rfl, rfl, ?_⟩
  rw [viewsFrom, List.cons_append, lex, if_neg hc]
  rw [List.cons_append] at hlength
  dsimp only
  rw [hlength, if_neg (by simp), lexemes_lex, ← List.cons_append, List.drop_left,
    lexemes_lex_fuel _ _ rest (by simp only [List.length_append, List.length_cons]; omega)
      (Nat.lt_succ_self _)]
  rfl

/-! ## Texts that lex -/

/-- What must not stand behind a number: more of it. -/
def EndsNumber (rest : List Char) : Prop :=
  ∀ c ∈ rest.head?, c.isDigit = false ∧ c ≠ '.' ∧ c ≠ 'e' ∧ c ≠ 'E'

/-- A text is read as lexemes that are seen so, at any spot and in front of anything that
cannot make a number longer. -/
def Lexes (view : Lexeme → α) (text : List Char) (views : List α) : Prop :=
  ∀ s rest, EndsNumber rest →
    ∃ s', viewsFrom view s (text ++ rest) = views ++ viewsFrom view s' rest

/-- A text is read as lexemes that are seen so, whatever stands behind it. -/
def LexesClosed (view : Lexeme → α) (text : List Char) (views : List α) : Prop :=
  ∀ s rest, ∃ s', viewsFrom view s (text ++ rest) = views ++ viewsFrom view s' rest

theorem LexesClosed.lexes {text : List Char} {vs : List α} (h : LexesClosed view text vs) :
    Lexes view text vs := fun s rest _ => h s rest

theorem lexesClosed_nil : LexesClosed view [] [] := fun s _ => ⟨s, rfl⟩

theorem LexesClosed.append {a b : List Char} {vs ws : List α} (ha : LexesClosed view a vs)
    (hb : LexesClosed view b ws) : LexesClosed view (a ++ b) (vs ++ ws) := by
  intro s rest
  obtain ⟨s₁, h₁⟩ := ha s (b ++ rest)
  obtain ⟨s₂, h₂⟩ := hb s₁ rest
  exact ⟨s₂, by rw [List.append_assoc, h₁, h₂, List.append_assoc]⟩

/-- Behind a closed text a number may be open. -/
theorem LexesClosed.append_lexes {a b : List Char} {vs ws : List α}
    (ha : LexesClosed view a vs) (hb : Lexes view b ws) : Lexes view (a ++ b) (vs ++ ws) := by
  intro s rest hrest
  obtain ⟨s₁, h₁⟩ := ha s (b ++ rest)
  obtain ⟨s₂, h₂⟩ := hb s₁ rest hrest
  exact ⟨s₂, by rw [List.append_assoc, h₁, h₂, List.append_assoc]⟩

/-- A text that opens with a sign or a blank closes what stands in front of it. -/
theorem Lexes.append_closed {a b : List Char} {vs ws : List α} (ha : Lexes view a vs)
    (hb : LexesClosed view b ws) (hne : b ≠ []) (hend : EndsNumber b) :
    LexesClosed view (a ++ b) (vs ++ ws) := by
  intro s rest
  obtain ⟨c, b', rfl⟩ := List.exists_cons_of_ne_nil hne
  obtain ⟨s₁, h₁⟩ := ha s (c :: b' ++ rest) (by simpa [EndsNumber] using hend)
  obtain ⟨s₂, h₂⟩ := hb s₁ rest
  exact ⟨s₂, by rw [List.append_assoc, h₁, h₂, List.append_assoc]⟩

theorem lexesClosed_blanks {text : List Char} (h : ∀ c ∈ text, isBlank c) :
    LexesClosed view text [] := by
  induction text with
  | nil => exact lexesClosed_nil
  | cons c rest ih =>
    intro s more
    obtain ⟨s', h'⟩ := ih (fun d hd => h d (List.mem_cons_of_mem _ hd)) (s.next c) more
    exact ⟨s', by rw [List.cons_append, viewsFrom_blank s _ (h c List.mem_cons_self), h']⟩

/-- No blank makes a number longer. -/
theorem endsNumber_blank {c : Char} (hc : isBlank c) (rest : List Char) :
    EndsNumber (c :: rest) := by
  intro d hd
  cases hd
  simp only [isBlank, Bool.or_eq_true, decide_eq_true_eq] at hc
  rcases hc with ((rfl | rfl) | rfl) | rfl <;> decide

theorem lexesClosed_newLine (level : Nat) : LexesClosed view (newLine level) [] := by
  apply lexesClosed_blanks
  intro c hc
  rcases List.mem_cons.1 hc with rfl | hc
  · rfl
  · rw [List.eq_of_mem_replicate hc]
    rfl

theorem endsNumber_newLine (level : Nat) (rest : List Char) :
    EndsNumber (newLine level ++ rest) :=
  endsNumber_blank (by decide) _

/-- A text that the reader takes as one token. -/
theorem lexesClosed_of_takeToken {text : List Char} {v : α} (hne : text ≠ [])
    (hblank : ∀ c ∈ text.head?, isBlank c = false)
    (htake : ∀ s rest, (takeToken s (text ++ rest)).length = text.length ∧
      ∀ l : Lexeme, l.token = (takeToken s (text ++ rest)).token →
        l.skipped = (takeToken s (text ++ rest)).skipped → view l = v) :
    LexesClosed view text [v] := by
  intro s rest
  obtain ⟨hlength, hview⟩ := htake s rest
  obtain ⟨l, s', htoken, hskipped, h'⟩ := viewsFrom_token view s rest hne hblank hlength
  exact ⟨s', by rw [h', hview l htoken hskipped]; rfl⟩

/-- The marks of JSON with their tokens. -/
inductive IsMark : Char → Token → Prop
  | openBrace : IsMark '{' .openBrace
  | closeBrace : IsMark '}' .closeBrace
  | openBracket : IsMark '[' .openBracket
  | closeBracket : IsMark ']' .closeBracket
  | comma : IsMark ',' .comma
  | colon : IsMark ':' .colon

/-- A mark is one token. Only those that open something can be skipped. -/
theorem lexesClosed_mark {c : Char} {t : Token} {v : α} (h : IsMark c t)
    (hview : ∀ l : Lexeme, l.token = t → (c = '{' ∨ c = '[' → l.skipped = none) → view l = v) :
    LexesClosed view [c] [v] := by
  apply lexesClosed_of_takeToken (List.cons_ne_nil c [])
  · intro d hd
    have hcd : c = d := by simpa using hd
    subst hcd
    cases h <;> rfl
  · intro s rest
    cases h
    case openBrace => exact ⟨rfl, fun l ht hs => hview l ht fun _ => hs⟩
    case openBracket => exact ⟨rfl, fun l ht hs => hview l ht fun _ => hs⟩
    all_goals exact ⟨rfl, fun l ht _ => hview l ht fun hc => absurd hc (by decide)⟩

theorem endsNumber_mark {c : Char} {t : Token} (h : IsMark c t) (rest : List Char) :
    EndsNumber (c :: rest) := by
  intro d hd
  cases hd
  cases h <;> decide

/-! ## Words -/

theorem wordFault?_append (s : Spot) (word rest : List Char) :
    wordFault? s word (word ++ rest) = none := by
  induction word generalizing s with
  | nil => rfl
  | cons c word ih =>
    rw [List.cons_append, wordFault?, if_pos rfl]
    exact ih _

theorem takeWord_append (s : Spot) {word : List Char} (hne : word ≠ []) (t : Token)
    (rest : List Char) : takeWord s word t (word ++ rest) = ⟨t, none, word.length⟩ := by
  obtain ⟨c, tail, rfl⟩ := List.exists_cons_of_ne_nil hne
  rw [takeWord, List.drop_succ_cons, List.drop_zero, List.cons_append, List.drop_succ_cons,
    List.drop_zero, wordFault?_append]

/-- A word is one token. -/
theorem lexesClosed_word {word : List Char} {t : Token} {v : α} (hne : word ≠ [])
    (hblank : ∀ c ∈ word.head?, isBlank c = false)
    (htake : ∀ s rest, takeToken s (word ++ rest) = takeWord s word t (word ++ rest))
    (hview : ∀ l : Lexeme, l.token = t → l.skipped = none → view l = v) :
    LexesClosed view word [v] := by
  apply lexesClosed_of_takeToken hne hblank
  intro s rest
  rw [htake, takeWord_append s hne]
  exact ⟨rfl, hview⟩

end ScriptInventory.Json
