import Mathlib
import ScriptInventory.Json.Token
import ScriptInventory.Proofs.Key.Spelling

/-!
# The grammar of JSON

Which texts stand for which JSON values, apart from any reader. A `Document` is a JSON value
whose numbers are kept as they are written, so that they may have any size; lists and objects
may be nested to any depth, and the members of an object keep their order and their
repetitions. `Document.Spells` relates a document to its texts: every character of a string
has several spellings, and blanks may stand around every value, name and mark.
-/

namespace ScriptInventory.Json

open Declaration.StringKey (HexDigit numeral)

/-! ## Numbers -/

/-- Digits that do not start with a superfluous zero. -/
structure IsWhole (digits : List Char) : Prop where
  ne_nil : digits ≠ []
  digit : ∀ c ∈ digits, c.isDigit
  zero : digits.head? = some '0' → digits = ['0']

/-- Digits behind a point or in an exponent. -/
structure IsFraction (digits : List Char) : Prop where
  ne_nil : digits ≠ []
  digit : ∀ c ∈ digits, c.isDigit

/-- The text of a sign. -/
inductive SpellsSign : Bool → List Char → Prop
  | minus : SpellsSign true ['-']
  | none : SpellsSign false []

/-- The text of the digits behind a point, if there are any. -/
inductive SpellsPart : Option (List Char) → List Char → Prop
  | none : SpellsPart none []
  | point {digits : List Char} (h : IsFraction digits) : SpellsPart (some digits) ('.' :: digits)

/-- The text of an exponent, if there is one. -/
inductive SpellsExponent : Option (Bool × List Char) → List Char → Prop
  | none : SpellsExponent none []
  | plain {e : Char} {digits : List Char} (he : e = 'e' ∨ e = 'E') (h : IsFraction digits) :
      SpellsExponent (some (false, digits)) (e :: digits)
  | plus {e : Char} {digits : List Char} (he : e = 'e' ∨ e = 'E') (h : IsFraction digits) :
      SpellsExponent (some (false, digits)) (e :: '+' :: digits)
  | minus {e : Char} {digits : List Char} (he : e = 'e' ∨ e = 'E') (h : IsFraction digits) :
      SpellsExponent (some (true, digits)) (e :: '-' :: digits)

/-- The text of a number. -/
inductive Written.Spells : Written → List Char → Prop
  | mk {isNegative : Bool} {whole : List Char} {part : Option (List Char)}
      {exponent : Option (Bool × List Char)} {sign partText exponentText : List Char}
      (hsign : SpellsSign isNegative sign) (hwhole : IsWhole whole)
      (hpart : SpellsPart part partText) (hexponent : SpellsExponent exponent exponentText) :
      Spells ⟨isNegative, whole, part, exponent⟩ (sign ++ whole ++ partText ++ exponentText)

/-- The value of a number that is written as a natural number of at most 64 bits: without a
sign, a point or an exponent. -/
def Written.natural? (w : Written) : Option Nat :=
  let n := Nat.ofDigitChars 10 w.whole 0
  if w.isNegative = false ∧ w.part = none ∧ w.exponent = none ∧ n < 2 ^ 64 then some n else none

/-! ## Strings -/

/-- The characters behind a backslash that stand for one character, and that character. -/
def characterEscapes : List (Char × Char) :=
  [('"', '"'), ('\\', '\\'), ('/', '/'), ('b', '\x08'), ('f', '\x0c'), ('n', '\n'), ('r', '\r'),
    ('t', '\t')]

/-- The text of an escape with four digits. -/
def codeText (a b c d : HexDigit) : List Char :=
  '\\' :: 'u' :: [a, b, c, d].map HexDigit.char

/-- The ways to write a character in a string: as it is, by a letter, by its number, or by the
numbers of a pair of surrogates. -/
inductive SpellsCharacter (c : Char) : List Char → Prop
  | plain (hquote : c ≠ '"') (hslash : c ≠ '\\') (hcontrol : 0x20 ≤ c.toNat) :
      SpellsCharacter c [c]
  | letter {l : Char} (h : (l, c) ∈ characterEscapes) : SpellsCharacter c ['\\', l]
  | code {h₁ h₂ h₃ h₄ : HexDigit} (h : numeral [h₁, h₂, h₃, h₄] = c.toNat) :
      SpellsCharacter c (codeText h₁ h₂ h₃ h₄)
  | pair {high low : Nat} {h₁ h₂ h₃ h₄ l₁ l₂ l₃ l₄ : HexDigit} (hhigh : high < 0x400)
      (hlow : low < 0x400) (hc : c.toNat = 0x10000 + high * 0x400 + low)
      (hh : numeral [h₁, h₂, h₃, h₄] = 0xD800 + high)
      (hl : numeral [l₁, l₂, l₃, l₄] = 0xDC00 + low) :
      SpellsCharacter c (codeText h₁ h₂ h₃ h₄ ++ codeText l₁ l₂ l₃ l₄)

/-- The text of a string between its quotes. -/
inductive SpellsCharacters : List Char → List Char → Prop
  | nil : SpellsCharacters [] []
  | cons {c : Char} {cs text rest : List Char} (hc : SpellsCharacter c text)
      (h : SpellsCharacters cs rest) : SpellsCharacters (c :: cs) (text ++ rest)

/-! ## Values -/

/-- A JSON value. Its numbers are kept as they are written. -/
inductive Document where
  | null
  | bool (b : Bool)
  | number (w : Written)
  | string (s : String)
  | array (items : List Document)
  | object (members : List (String × Document))

/-- A part of a list as it is written. -/
structure ItemText where
  value : Document
  text : List Char

/-- A member of an object as it is written. -/
structure MemberText extends ItemText where
  key : String
  keyText : List Char

def MemberText.whole (m : MemberText) : List Char := m.keyText ++ ':' :: m.text

def separated : List (List Char) → List Char
  | [] => []
  | first :: rest => first ++ rest.flatMap (',' :: ·)

/-- The texts of a document, with the blanks around it. -/
inductive Document.Spells : Document → List Char → Prop
  | null : Spells .null "null".toList
  | true : Spells (.bool true) "true".toList
  | false : Spells (.bool false) "false".toList
  | number {w : Written} {text : List Char} (h : w.Spells text) : Spells (.number w) text
  | string {s : String} {text : List Char} (h : SpellsCharacters s.toList text) :
      Spells (.string s) ('"' :: (text ++ ['"']))
  | emptyArray {blanks : List Char} (h : ∀ c ∈ blanks, isBlank c) :
      Spells (.array []) ('[' :: (blanks ++ [']']))
  | array {items : List ItemText} (hne : items ≠ []) (h : ∀ i ∈ items, Spells i.value i.text) :
      Spells (.array (items.map ItemText.value))
        ('[' :: (separated (items.map ItemText.text) ++ [']']))
  | emptyObject {blanks : List Char} (h : ∀ c ∈ blanks, isBlank c) :
      Spells (.object []) ('{' :: (blanks ++ ['}']))
  | object {members : List MemberText} (hne : members ≠ [])
      (hkeys : ∀ m ∈ members, Spells (.string m.key) m.keyText)
      (h : ∀ m ∈ members, Spells m.value m.text) :
      Spells (.object (members.map fun m => (m.key, m.value)))
        ('{' :: (separated (members.map MemberText.whole) ++ ['}']))
  | blank_before {d : Document} {c : Char} {text : List Char} (hc : isBlank c)
      (h : Spells d text) : Spells d (c :: text)
  | blank_behind {d : Document} {c : Char} {text : List Char} (h : Spells d text)
      (hc : isBlank c) : Spells d (text ++ [c])

/-- A string in which nothing needs an escape may stand in quotes as it is. -/
theorem Document.spells_plain {s : String}
    (h : ∀ c ∈ s.toList, c ≠ '"' ∧ c ≠ '\\' ∧ 0x20 ≤ c.toNat) :
    (Document.string s).Spells ('"' :: (s.toList ++ ['"'])) := by
  refine .string ?_
  generalize s.toList = cs at h
  induction cs with
  | nil => exact .nil
  | cons c cs ih =>
    obtain ⟨⟨hquote, hslash, hcontrol⟩, hcs⟩ := List.forall_mem_cons.1 h
    exact .cons (.plain hquote hslash hcontrol) (ih hcs)

/-- Documents by induction: what holds of the parts of a list or an object holds of the
whole. -/
@[elab_as_elim, induction_eliminator]
theorem Document.induction {P : Document → Prop} (null : P .null) (bool : ∀ b, P (.bool b))
    (number : ∀ w, P (.number w)) (string : ∀ s, P (.string s))
    (array : ∀ items, (∀ d ∈ items, P d) → P (.array items))
    (object : ∀ members, (∀ m ∈ members, P m.2) → P (.object members)) : ∀ d, P d
  | .null => null
  | .bool b => bool b
  | .number w => number w
  | .string s => string s
  | .array items => array items fun d _ =>
      Document.induction null bool number string array object d
  | .object members => object members fun ⟨key, value⟩ hm => by
      have hsize : sizeOf value < sizeOf members := by
        have := List.sizeOf_lt_of_mem hm
        rw [Prod.mk.sizeOf_spec] at this
        omega
      exact Document.induction null bool number string array object value

end ScriptInventory.Json
