import Mathlib
import ScriptInventory.Declaration.Shape

/-!
# Spellings of quoted keys

A text can be quoted in many ways: each of its characters stands for itself or is
escaped in one of several forms, and line ends behind backslashes may stand anywhere
between them. `Spells` lists the ways, one character at a time and apart from any
reader. Main statement: whichever way is chosen, the key names the text
(`memberName_of_isSpelling`).

* `HexDigit`, `numeral`: numbers in hexadecimal digits of either case.
* `SpellsChar.unescape_append`: each form of one character is read as that character,
  whatever follows it.
* `Spells.unescape_eq`: by induction on the spelling, a quoted text is read back.
-/

namespace ScriptInventory.Declaration

open Script

namespace StringKey

/-! ## Hexadecimal digits -/

/-- A hexadecimal digit as it is written. -/
structure HexDigit where
  value : Fin 16
  isCapital : Bool

def HexDigit.char (d : HexDigit) : Char :=
  if d.isCapital then (Nat.digitChar d.value).toUpper else Nat.digitChar d.value

/-- The number that digits stand for. -/
def numeral (digits : List HexDigit) : Nat := digits.foldl (fun n d => 16 * n + d.value) 0

theorem hexDigit?_char (d : HexDigit) : hexDigit? d.char = some d.value.val := by
  obtain ⟨value, isCapital⟩ := d
  revert value isCapital
  decide

/-- No sign and no brace is a digit. -/
theorem HexDigit.char_ne (d : HexDigit) {c : Char} (hc : hexDigit? c = none) : d.char ≠ c := by
  rintro rfl
  rw [hexDigit?_char] at hc
  cases hc

theorem hexDigits?_map_char {digits : List HexDigit} (hne : digits ≠ []) :
    hexDigits? (digits.map HexDigit.char) = some (numeral digits) := by
  have hfold : ∀ n, (digits.map HexDigit.char).foldlM
      (fun n c => (hexDigit? c).map (16 * n + ·)) n =
        some (digits.foldl (fun n d => 16 * n + d.value.val) n) := by
    clear hne
    induction digits with
    | nil => exact fun n => rfl
    | cons d digits ih =>
      intro n
      rw [List.map_cons, List.foldlM_cons, hexDigit?_char, List.foldl_cons]
      exact ih _
  rw [hexDigits?, if_neg (by simpa using hne), hfold, numeral]

/-- Digits are read up to 32 bits. -/
theorem hexNumber?_map_char {digits : List HexDigit} (hne : digits ≠ []) :
    hexNumber? (digits.map HexDigit.char) =
      (some (numeral digits)).filter (· < Nat.pow 2 32) := by
  have hdigits := hexDigits?_map_char hne
  unfold hexNumber?
  split
  · next rest heq =>
    -- the first digit is no sign
    cases digits with
    | nil => exact absurd rfl hne
    | cons d digits => exact absurd (List.cons.inj heq).1 (d.char_ne (by decide))
  · rw [hdigits]

theorem scalar?_toNat (c : Char) : scalar? c.toNat = some c := by
  have hvalid : c.toNat.isValidChar := c.valid
  rw [scalar?, if_pos hvalid, Char.ofNat_toNat]

/-- An escape with the number of a character contributes that character. -/
theorem codePoint_map_char (letter : Char) {digits : List HexDigit} {c : Char}
    (hne : digits ≠ []) (hc : numeral digits = c.toNat) :
    codePoint letter (digits.map HexDigit.char) = [c] := by
  have hlt : c.toNat < 2 ^ 32 := c.val.toNat_lt
  have hread : (some c.toNat).filter (· < Nat.pow 2 32) = some c.toNat :=
    Option.filter_some_pos (by simpa using hlt)
  rw [codePoint, hexNumber?_map_char hne, hc, hread, Option.bind_some, scalar?_toNat]

/-- An escape whose number belongs to no character contributes its letter and digits,
whether or not the number fits in 32 bits. -/
theorem codePoint_of_not_isValidChar (letter : Char) {digits : List HexDigit}
    (h : ¬ (numeral digits).isValidChar) :
    codePoint letter (digits.map HexDigit.char) =
      '\\' :: letter :: digits.map HexDigit.char := by
  have hne : digits ≠ [] := by
    rintro rfl
    exact h (.inl (by decide))
  have hscalar : scalar? (numeral digits) = none := if_neg h
  have hnone : ((some (numeral digits)).filter (· < Nat.pow 2 32)).bind scalar? = none := by
    rw [Option.filter_some]
    split
    · exact hscalar
    · rfl
  rw [codePoint, hexNumber?_map_char hne, hnone]

/-! ## Spellings -/

/-- The quotes around a literal. -/
inductive Quote where
  | single
  | double
deriving DecidableEq, Repr

def Quote.char : Quote → Char
  | .single => '\''
  | .double => '"'

/-- The letters that stand for a character of their own behind a backslash, and that
character. -/
def letterEscapes : List (Char × Char) :=
  [('n', '\n'), ('t', '\t'), ('r', '\r'), ('b', '\x08'), ('f', '\x0c'), ('v', '\x0b'),
    ('0', '\x00')]

/-- The characters, digits aside, that do not stand for themselves behind a backslash. -/
def notThemselves : List Char :=
  ['n', 't', 'r', 'b', 'f', 'v', 'x', 'u', '\r', '\n', '\u2028', '\u2029']

def lineEnds : List (List Char) := [['\n'], ['\r'], ['\r', '\n'], ['\u2028'], ['\u2029']]

/-- The ways to write a character between quotes. -/
inductive SpellsChar (q : Quote) (c : Char) : List Char → Prop
  | plain : c ≠ q.char → c ≠ '\\' → c ≠ '\r' → c ≠ '\n' → SpellsChar q c [c]
  | letter {l : Char} : (l, c) ∈ letterEscapes → SpellsChar q c ['\\', l]
  | twoDigits {a b : HexDigit} :
      numeral [a, b] = c.toNat → SpellsChar q c ('\\' :: 'x' :: [a, b].map HexDigit.char)
  | fourDigits {digits : List HexDigit} : digits.length = 4 →
      numeral digits = c.toNat → SpellsChar q c ('\\' :: 'u' :: digits.map HexDigit.char)
  | braces {digits : List HexDigit} : digits ≠ [] → numeral digits = c.toNat →
      SpellsChar q c ('\\' :: 'u' :: '{' :: (digits.map HexDigit.char ++ ['}']))
  | itself : c.isDigit = false → c ∉ notThemselves → SpellsChar q c ['\\', c]

/-- The ways to write a text between quotes. -/
inductive Spells (q : Quote) : List Char → List Char → Prop
  | nil : Spells q [] []
  | char {c : Char} {text written rest : List Char} :
      SpellsChar q c written → Spells q text rest → Spells q (c :: text) (written ++ rest)
  | lineEnd {e text rest : List Char} :
      e ∈ lineEnds → Spells q text rest → Spells q text ('\\' :: (e ++ rest))

/-- What stands in the source for `written` between quotes. -/
def quoted (q : Quote) (written : List Char) : String :=
  String.ofList (q.char :: (written ++ [q.char]))

def IsSpelling (literal text : String) : Prop :=
  ∃ q written, literal = quoted q written ∧ Spells q text.toList written

/-! ## Reading one form -/

theorem unescape_plain {c : Char} (h : c ≠ '\\') (rest : List Char) :
    unescape (c :: rest) = c :: unescape rest := by
  rw [unescape] <;> (intros; simp_all)

theorem unescape_twoDigits (a b : Char) (rest : List Char) :
    unescape ('\\' :: 'x' :: a :: b :: rest) = codePoint 'x' [a, b] ++ unescape rest := by
  rw [unescape]
  rfl

theorem unescape_fourDigits {digits : List Char} (hlength : digits.length = 4)
    (hbrace : digits.head? ≠ some '{') (rest : List Char) :
    unescape ('\\' :: 'u' :: (digits ++ rest)) = codePoint 'u' digits ++ unescape rest := by
  have hne : ∀ more, digits ++ rest ≠ '{' :: more := by
    intro more heq
    cases digits with
    | nil => simp at hlength
    | cons d digits =>
      cases (List.cons.inj heq).1
      exact hbrace rfl
  rw [unescape.eq_5 _ hne, List.take_left' hlength, List.drop_left' hlength]

def unitEscape (digits : List HexDigit) : List Char := '\\' :: 'u' :: digits.map HexDigit.char

theorem unescape_unitEscape {digits : List HexDigit} (hlength : digits.length = 4)
    (rest : List Char) :
    unescape (unitEscape digits ++ rest) =
      codePoint 'u' (digits.map HexDigit.char) ++ unescape rest := by
  have hbrace : (digits.map HexDigit.char).head? ≠ some '{' := by
    rw [List.head?_map]
    rintro heq
    obtain ⟨d, -, hd⟩ := Option.map_eq_some_iff.1 heq
    exact d.char_ne (by decide) hd
  exact unescape_fourDigits (by rwa [List.length_map]) hbrace rest

theorem unescape_braces {digits : List Char} (hdigits : ∀ c ∈ digits, c ≠ '}')
    (rest : List Char) :
    unescape ('\\' :: 'u' :: '{' :: (digits ++ '}' :: rest)) =
      codePoint 'u' digits ++ unescape rest := by
  have htake : (digits ++ '}' :: rest).takeWhile (· ≠ '}') = digits := by
    rw [List.takeWhile_append_of_pos (by simpa using hdigits)]
    simp
  have hdrop : (digits ++ '}' :: rest).dropWhile (· ≠ '}') = '}' :: rest := by
    rw [List.dropWhile_append_of_pos (by simpa using hdigits)]
    simp
  rw [unescape, htake, hdrop]
  rfl

/-- The escape of a number in braces. -/
def bracedEscape (digits : List HexDigit) : List Char :=
  '\\' :: 'u' :: '{' :: (digits.map HexDigit.char ++ ['}'])

theorem unescape_bracedEscape (digits : List HexDigit) (rest : List Char) :
    unescape (bracedEscape digits ++ rest) =
      codePoint 'u' (digits.map HexDigit.char) ++ unescape rest := by
  have hbrace : ∀ c ∈ digits.map HexDigit.char, c ≠ '}' := by
    rintro _ hmem rfl
    obtain ⟨d, -, hd⟩ := List.mem_map.1 hmem
    exact d.char_ne (by decide) hd
  simpa [bracedEscape] using unescape_braces hbrace rest

/-- A character behind a backslash that opens no longer escape. -/
theorem unescape_escaped {c : Char} (hx : c ≠ 'x') (hu : c ≠ 'u') (hr : c ≠ '\r')
    (rest : List Char) :
    unescape ('\\' :: c :: rest) =
      if endsLine c then unescape rest else escaped c :: unescape rest := by
  rw [unescape] <;> (intros; simp_all)

theorem unescape_return {rest : List Char} (h : rest.head? ≠ some '\n') :
    unescape ('\\' :: '\r' :: rest) = unescape rest := by
  rw [unescape]
  rintro more rfl
  exact h rfl

theorem unescape_returnFeed (rest : List Char) :
    unescape ('\\' :: '\r' :: '\n' :: rest) = unescape rest := by
  rw [unescape]

/-! ## Reading a spelling -/

theorem ne_of_not_mem_notThemselves {c d : Char} (hc : c ∉ notThemselves)
    (hd : d ∈ notThemselves) : c ≠ d := by
  rintro rfl
  exact hc hd

theorem endsLine_eq_false {c : Char} (h : c ∉ notThemselves) : endsLine c = false := by
  have hne : ∀ n, Char.ofNat n ∈ notThemselves → c.toNat ≠ n := by
    rintro n hmem rfl
    rw [Char.ofNat_toNat] at hmem
    exact h hmem
  have hfeed : c ≠ '\n' := ne_of_not_mem_notThemselves h (by decide)
  simp [endsLine, hfeed, hne 0x2028 (by decide), hne 0x2029 (by decide)]

theorem escaped_eq_self {c : Char} (hzero : c ≠ '0') (h : c ∉ notThemselves) :
    escaped c = c := by
  unfold escaped
  split
  all_goals first
    | rfl
    | exact absurd (by decide) h
    | exact absurd rfl hzero

/-- A character that makes no escape of its own stands for itself. -/
theorem unescape_itself {c : Char} (hzero : c ≠ '0') (h : c ∉ notThemselves)
    (rest : List Char) : unescape ('\\' :: c :: rest) = c :: unescape rest := by
  have hread := unescape_escaped (ne_of_not_mem_notThemselves h (by decide))
    (ne_of_not_mem_notThemselves h (by decide))
    (ne_of_not_mem_notThemselves h (by decide)) rest
  rwa [endsLine_eq_false h, escaped_eq_self hzero h] at hread

/-- Each form of a character is read as that character, whatever follows it. -/
theorem SpellsChar.unescape_append {q : Quote} {c : Char} {written : List Char}
    (h : SpellsChar q c written) (rest : List Char) :
    unescape (written ++ rest) = c :: unescape rest := by
  cases h with
  | plain _ hslash _ _ => exact unescape_plain hslash rest
  | @letter l hl =>
    simp only [letterEscapes, List.mem_cons, Prod.mk.injEq, List.not_mem_nil, or_false] at hl
    rcases hl with ⟨rfl, rfl⟩ | ⟨rfl, rfl⟩ | ⟨rfl, rfl⟩ | ⟨rfl, rfl⟩ | ⟨rfl, rfl⟩ | ⟨rfl, rfl⟩ |
      ⟨rfl, rfl⟩
    all_goals exact unescape_escaped (by decide) (by decide) (by decide) rest
  | @twoDigits a b hc =>
    have hne : [a, b] ≠ [] := List.cons_ne_nil a [b]
    have hpoint := codePoint_map_char 'x' hne hc
    exact (unescape_twoDigits a.char b.char rest).trans (congrArg (· ++ unescape rest) hpoint)
  | @fourDigits digits hlength hc =>
    have hne : digits ≠ [] := List.ne_nil_of_length_pos (hlength ▸ by decide)
    have hread := unescape_unitEscape hlength rest
    rwa [codePoint_map_char 'u' hne hc] at hread
  | @braces digits hne hc =>
    have hread := unescape_bracedEscape digits rest
    rwa [codePoint_map_char 'u' hne hc] at hread
  | itself hdigit hown =>
    have hzero : c ≠ '0' := by
      rintro rfl
      exact absurd hdigit (by decide)
    exact unescape_itself hzero hown rest

/-- No form of a character starts with a line feed. -/
theorem SpellsChar.head?_append_ne {q : Quote} {c : Char} {written : List Char}
    (h : SpellsChar q c written) (rest : List Char) : (written ++ rest).head? ≠ some '\n' := by
  cases h with
  | plain _ _ _ hfeed => simpa using hfeed
  | letter => simp
  | twoDigits => simp
  | fourDigits => simp
  | braces => simp
  | itself => simp

theorem Spells.head?_ne {q : Quote} {text written : List Char} (h : Spells q text written) :
    written.head? ≠ some '\n' := by
  cases h with
  | nil => simp
  | char hchar _ => exact hchar.head?_append_ne _
  | lineEnd => simp

theorem unescape_lineEnd {e : List Char} (he : e ∈ lineEnds) {rest : List Char}
    (hrest : rest.head? ≠ some '\n') : unescape ('\\' :: (e ++ rest)) = unescape rest := by
  simp only [lineEnds, List.mem_cons, List.not_mem_nil, or_false] at he
  rcases he with rfl | rfl | rfl | rfl | rfl
  · exact unescape_escaped (by decide) (by decide) (by decide) rest
  · exact unescape_return hrest
  · exact unescape_returnFeed rest
  · exact unescape_escaped (by decide) (by decide) (by decide) rest
  · exact unescape_escaped (by decide) (by decide) (by decide) rest

/-- Every spelling of a text is read as the text. -/
theorem Spells.unescape_eq {q : Quote} {text written : List Char} (h : Spells q text written) :
    unescape written = text := by
  induction h with
  | nil => exact unescape_nil
  | char hchar _ ih => rw [hchar.unescape_append, ih]
  | lineEnd he hrest ih => rw [unescape_lineEnd he hrest.head?_ne, ih]

theorem unquote_quoted (q : Quote) (written : List Char) :
    unquote (q.char :: (written ++ [q.char])) = written := by
  cases q <;> simp [unquote, Quote.char]

theorem IsSpelling.name_eq {literal text : String} (h : IsSpelling literal text) :
    name literal = text := by
  obtain ⟨q, written, rfl, hspells⟩ := h
  rw [name, quoted, String.toList_ofList, unquote_quoted, hspells.unescape_eq,
    String.ofList_toList]

end StringKey

/-- A quoted key names the text that it spells, and an empty text is no name. -/
theorem memberName_of_isSpelling {n key : Node} {role : Role} {text : String}
    (hkey : n.child? role = some key) (hkind : key.kind = .string)
    (htext : StringKey.IsSpelling key.text text) :
    (text ≠ "" → memberName n role = [text]) ∧ (text = "" → memberName n role = []) := by
  have hname : memberName n role = nonempty text := by
    simp only [memberName, hkey, keyName, hkind, htext.name_eq]
  rw [hname]
  constructor
  · intro hne
    exact if_neg (by simpa [String.isEmpty_iff] using hne)
  · rintro rfl
    rfl

/-- The key `"\x61\u{42}\"c"`, with a line end behind a backslash in front of its closing
quote. -/
def escapedKey : Node :=
  (Node.leaf .string ⟨1, 11⟩ (StringKey.quoted .double ['\\', 'x', '6', '1', '\\', 'u', '{', '4',
    '2', '}', '\\', '"', 'c', '\\', '\n'])).withRole .name

open StringKey in
theorem spelling_escapedKey : IsSpelling escapedKey.text "aB\"c" := by
  have ha : SpellsChar .double 'a' ['\\', 'x', '6', '1'] :=
    @SpellsChar.twoDigits _ _ ⟨6, false⟩ ⟨1, false⟩ rfl
  have hb : SpellsChar .double 'B' ['\\', 'u', '{', '4', '2', '}'] :=
    @SpellsChar.braces _ _ [⟨4, false⟩, ⟨2, false⟩] (List.cons_ne_nil _ _) rfl
  have hquote : SpellsChar .double '"' ['\\', '"'] := .itself rfl (by decide)
  have hc : SpellsChar .double 'c' ['c'] := .plain (by decide) (by decide) (by decide) (by decide)
  have hend : ['\n'] ∈ lineEnds := by decide
  exact ⟨.double, _, rfl, .char ha (.char hb (.char hquote (.char hc (.lineEnd hend .nil))))⟩

theorem memberName_escapedKey :
    memberName (.branch .methodDefinition ⟨1, 11⟩ [escapedKey]) .name = ["aB\"c"] :=
  (memberName_of_isSpelling rfl rfl spelling_escapedKey).1 (by decide)

end ScriptInventory.Declaration
