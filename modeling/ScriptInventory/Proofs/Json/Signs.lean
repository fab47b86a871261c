import ScriptInventory.Proofs.Json.Scalars

/-!
# What a reader sees of a document

A reader that skips what it does not ask for looks at more of a lexeme than its token: what is
skipped must be sound, but need not have a value. `Lexeme.sign` is all that a reader sees of
a lexeme, and `Document.signs` lists the signs of a document. Main statement: whatever text
stands for a document, the lexer reads it as the signs of the document (`signs_ofText`).
-/

namespace ScriptInventory.Json

/-! ## Signs -/

/-- What a reader sees of a lexeme. A number that is written as a natural number of at most 64
bits is told from all others. -/
inductive Sign where
  | openBrace
  | closeBrace
  | openBracket
  | closeBracket
  | comma
  | colon
  | null
  | bool (b : Bool)
  | natural (n : Nat)
  | otherNumber
  | string (s : String)
  /-- Something that cannot be used or cannot be skipped. -/
  | unsound
deriving DecidableEq, Repr, Inhabited

def Lexeme.sign (l : Lexeme) : Sign :=
  match l.token, l.skipped with
  | .closeBrace, _ => .closeBrace
  | .closeBracket, _ => .closeBracket
  | .comma, _ => .comma
  | .colon, _ => .colon
  | .openBrace, none => .openBrace
  | .openBracket, none => .openBracket
  | .null, none => .null
  | .bool b, none => .bool b
  | .number (.ok (.natural n)), none => .natural n
  | .number _, none => .otherNumber
  | .string (.ok s), none => .string s
  | _, _ => .unsound

def Sign.Describes (l : Lexeme) : Sign → Prop
  | .openBrace => l.token = .openBrace ∧ l.skipped = none
  | .closeBrace => l.token = .closeBrace
  | .openBracket => l.token = .openBracket ∧ l.skipped = none
  | .closeBracket => l.token = .closeBracket
  | .comma => l.token = .comma
  | .colon => l.token = .colon
  | .null => l.token = .null ∧ l.skipped = none
  | .bool b => l.token = .bool b ∧ l.skipped = none
  | .natural n => l.token = .number (.ok (.natural n)) ∧ l.skipped = none
  | .otherNumber =>
    (∃ v, l.token = .number v ∧ ∀ n, v ≠ .ok (.natural n)) ∧ l.skipped = none
  | .string s => l.token = .string (.ok s) ∧ l.skipped = none
  | .unsound => True

theorem Lexeme.describes_sign (l : Lexeme) : l.sign.Describes l := by
  unfold Lexeme.sign
  split <;> simp_all [Sign.Describes]

/-- What a lexeme with a sign is. -/
theorem Lexeme.describes {l : Lexeme} {sign : Sign} (h : l.sign = sign) : sign.Describes l :=
  h ▸ l.describes_sign

mutual

def Document.signs : Document → List Sign
  | .null => [.null]
  | .bool b => [.bool b]
  | .number w => [(w.natural?.map Sign.natural).getD .otherNumber]
  | .string s => [.string s]
  | .array items => .openBracket :: (itemSigns true items ++ [.closeBracket])
  | .object members => .openBrace :: (memberSigns true members ++ [.closeBrace])

/-- The signs of the items of a list. There is no comma in front of the first one. -/
def itemSigns : Bool → List Document → List Sign
  | _, [] => []
  | first, d :: rest => (if first then [] else [.comma]) ++ (d.signs ++ itemSigns false rest)

/-- The signs of the members of an object. -/
def memberSigns : Bool → List (String × Document) → List Sign
  | _, [] => []
  | first, (key, d) :: rest =>
    (if first then [] else [.comma]) ++
      (.string key :: .colon :: (d.signs ++ memberSigns false rest))

end

/-! ## Marks -/

/-- What a reader sees of a token that can be skipped. -/
def Token.sign (t : Token) : Sign := Lexeme.sign ⟨t, default, default, default, none⟩

/-- A mark is read as a sign of its own. -/
theorem lexes_mark {c : Char} {t : Token} (h : IsMark c t) :
    LexesClosed Lexeme.sign [c] [t.sign] := by
  refine lexesClosed_mark h fun l ht hskipped => ?_
  cases h
  case openBrace => simp [Token.sign, Lexeme.sign, ht, hskipped]
  case openBracket => simp [Token.sign, Lexeme.sign, ht, hskipped]
  all_goals simp [Token.sign, Lexeme.sign, ht]

/-- A mark stands behind any text, one that may end in a number too. -/
theorem Lexes.append_mark {text : List Char} {vs : List Sign} (h : Lexes Lexeme.sign text vs)
    {c : Char} {t : Token} (hc : IsMark c t) :
    LexesClosed Lexeme.sign (text ++ [c]) (vs ++ [t.sign]) :=
  h.append_closed (lexes_mark hc) (List.cons_ne_nil _ _) (endsNumber_mark hc [])

/-- Something in marks that open and close. -/
theorem lexes_enclosed {text : List Char} {vs : List Sign} (h : Lexes Lexeme.sign text vs)
    {o c : Char} {ot ct : Token} (ho : IsMark o ot) (hc : IsMark c ct) :
    Lexes Lexeme.sign (o :: (text ++ [c])) (ot.sign :: (vs ++ [ct.sign])) :=
  ((lexes_mark ho).append (h.append_mark hc)).lexes

/-! ## Lists of texts -/

/-- Behind a text that may end in a number, further texts are set apart by commas. -/
theorem Lexes.append_separated {β : Type} {text : β → List Char} {signs : β → List Sign}
    {xs : List β} (h : ∀ x ∈ xs, Lexes Lexeme.sign (text x) (signs x)) {front : List Char}
    {vs : List Sign} (hfront : Lexes Lexeme.sign front vs) :
    Lexes Lexeme.sign (front ++ (xs.map text).flatMap (',' :: ·))
      (vs ++ (xs.map signs).flatMap (.comma :: ·)) := by
  induction xs generalizing front vs with
  | nil => simpa using hfront
  | cons x xs ih =>
    obtain ⟨hx, hxs⟩ := List.forall_mem_cons.1 h
    have hnext := (hfront.append_mark .comma).append_lexes hx
    simpa [List.append_assoc, Token.sign, Lexeme.sign] using ih hxs hnext

theorem lexes_separated {β : Type} (text : β → List Char) (signs : β → List Sign) {xs : List β}
    (h : ∀ x ∈ xs, Lexes Lexeme.sign (text x) (signs x)) {x : β}
    (hx : Lexes Lexeme.sign (text x) (signs x)) :
    Lexes Lexeme.sign (separated ((x :: xs).map text))
      (signs x ++ (xs.map signs).flatMap (.comma :: ·)) :=
  hx.append_separated h

theorem itemSigns_eq (items : List Document) :
    itemSigns false items = (items.map Document.signs).flatMap (.comma :: ·) := by
  induction items with
  | nil => rfl
  | cons d rest ih => simp [itemSigns, ih]

def signsOfMember (m : String × Document) : List Sign := .string m.1 :: .colon :: m.2.signs

theorem memberSigns_eq (members : List (String × Document)) :
    memberSigns false members = (members.map signsOfMember).flatMap (.comma :: ·) := by
  induction members with
  | nil => rfl
  | cons m rest ih => simp [memberSigns, signsOfMember, ih]

/-! ## Documents -/

/-- A number shows its value if it is a natural number of at most 64 bits. -/
theorem lexes_numberSign {w : Written} {text : List Char} (h : w.Spells text) :
    Lexes Lexeme.sign text (Document.number w).signs := by
  apply lexes_number h
  intro s l ht hs
  obtain ⟨v, hv, hnatural⟩ := numberToken_eq w s text.length
  rw [hv] at ht
  cases hn : w.natural? with
  | some n =>
    rw [(hnatural n).2 hn] at ht
    simp [Lexeme.sign, ht, hs]
  | none =>
    have hne : ∀ n, v ≠ .ok (.natural n) := by
      intro n h
      rw [(hnatural n).1 h] at hn
      cases hn
    unfold Lexeme.sign
    rw [ht, hs]
    split <;> simp_all

/-- A member is read as its key, a colon and its value. -/
theorem MemberText.lexes {m : MemberText} (hkey : Lexes Lexeme.sign m.keyText [.string m.key])
    (hvalue : Lexes Lexeme.sign m.text m.value.signs) :
    Lexes Lexeme.sign m.whole (signsOfMember (m.key, m.value)) := by
  rw [MemberText.whole, ← List.singleton_append, ← List.append_assoc]
  exact (hkey.append_mark .colon).append_lexes hvalue

/-- **A text is read as the signs of its document.** -/
theorem Document.Spells.lexes {d : Document} {text : List Char} (h : d.Spells text) :
    Lexes Lexeme.sign text d.signs := by
  induction h with
  | null =>
    exact (lexesClosed_word (by decide) (by decide) (fun _ _ => rfl)
      fun l ht hs => by simp [Lexeme.sign, ht, hs]).lexes
  | true =>
    exact (lexesClosed_word (by decide) (by decide) (fun _ _ => rfl)
      fun l ht hs => by simp [Lexeme.sign, ht, hs]).lexes
  | false =>
    exact (lexesClosed_word (by decide) (by decide) (fun _ _ => rfl)
      fun l ht hs => by simp [Lexeme.sign, ht, hs]).lexes
  -- a number is the one value that only what is behind it ends, hence `Lexes` and no more
  | number h => exact lexes_numberSign h
  | string h =>
    exact (lexesClosed_string h fun l ht hs => by simp [Lexeme.sign, ht, hs]).lexes
  | emptyArray h =>
    exact lexes_enclosed (lexesClosed_blanks h).lexes .openBracket .closeBracket
  | @array items hne h ih =>
    obtain ⟨first, rest, rfl⟩ := List.exists_cons_of_ne_nil hne
    obtain ⟨hfirst, hrest⟩ := List.forall_mem_cons.1 ih
    have hitems := lexes_separated ItemText.text (fun i => i.value.signs) hrest hfirst
    have hall := lexes_enclosed hitems .openBracket .closeBracket
    simpa [Document.signs, itemSigns, itemSigns_eq, Function.comp_def, Token.sign, Lexeme.sign]
      using hall
  | emptyObject h =>
    exact lexes_enclosed (lexesClosed_blanks h).lexes .openBrace .closeBrace
  | @object members hne hkeys h ihkeys ih =>
    obtain ⟨first, rest, rfl⟩ := List.exists_cons_of_ne_nil hne
    obtain ⟨hfirst, hrest⟩ := List.forall_mem_cons.1 fun m hm =>
      MemberText.lexes (ihkeys m hm) (ih m hm)
    have hmembers := lexes_separated MemberText.whole (fun m => signsOfMember (m.key, m.value))
      hrest hfirst
    have hall := lexes_enclosed hmembers .openBrace .closeBrace
    simpa [Document.signs, memberSigns, memberSigns_eq, signsOfMember, Function.comp_def,
      Token.sign, Lexeme.sign] using hall
  | blank_before hc h ih =>
    have hblank : ∀ d ∈ [_], isBlank d := List.forall_mem_singleton.2 hc
    exact (lexesClosed_blanks hblank).append_lexes ih
  -- behind a number the blank is what ends it
  | blank_behind h hc ih =>
    have hblank : ∀ d ∈ [_], isBlank d := List.forall_mem_singleton.2 hc
    have hall := ih.append_closed (lexesClosed_blanks hblank) (List.cons_ne_nil _ _)
      (endsNumber_blank hc [])
    rw [List.append_nil] at hall
    exact hall.lexes

/-- **The lexemes of a text have the signs of its document.** -/
theorem signs_ofText {d : Document} {text : String} (h : d.Spells text.toList) :
    (Tokens.ofText text).lexemes.map Lexeme.sign = d.signs := by
  obtain ⟨s', hs'⟩ := h.lexes .start [] (by simp [EndsNumber])
  rw [List.append_nil, viewsFrom_nil, List.append_nil] at hs'
  exact hs'

end ScriptInventory.Json
