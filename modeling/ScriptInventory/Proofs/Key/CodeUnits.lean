import Mathlib
import ScriptInventory.Proofs.Key.Spelling

/-!
# Quoted keys in escapes only

A text can be written without a letter of its own: one escape with four digits for each
of its code units in UTF-16, so two escapes for a character above `U+FFFF`. Each escape
is read on its own, and neither half of such a pair stands for a character. Main
statement: a character up to `U+FFFF` is read back and a pair stays as it is written, so
the key names the text exactly if there is no pair in it (`name_of_unitEscapes`).

* `SpellsUnits.unescape_append`: what the escapes of one character contribute, whatever
  follows them.
* `length_contributions`: each pair takes eleven places more than its character.
-/

namespace ScriptInventory.Declaration

open Script

namespace StringKey

/-! ## Code units -/

/-- A character with a code unit of its own. -/
def isBasic (c : Char) : Bool := c.toNat < 0x10000

/-- The code units of a character in UTF-16: itself, or a pair of surrogates. -/
def codeUnits (c : Char) : List Nat :=
  if isBasic c then [c.toNat]
  else [0xD800 + (c.toNat - 0x10000) / 0x400, 0xDC00 + (c.toNat - 0x10000) % 0x400]

/-- The ways to write code units, each as an escape with four digits. -/
inductive SpellsUnits : List Nat → List Char → Prop
  | nil : SpellsUnits [] []
  | unit {digits : List HexDigit} {n : Nat} {units : List Nat} {rest : List Char} :
      digits.length = 4 → numeral digits = n → SpellsUnits units rest →
      SpellsUnits (n :: units) (unitEscape digits ++ rest)

/-- The numbers that only occur in pairs and are no characters. -/
def IsSurrogate (n : Nat) : Prop := 0xD800 ≤ n ∧ n < 0xE000

theorem IsSurrogate.not_isValidChar {n : Nat} (h : IsSurrogate n) : ¬ n.isValidChar := by
  obtain ⟨hlow, hhigh⟩ := h
  rintro (h | h) <;> omega

theorem exists_codeUnits_eq_pair {c : Char} (hc : isBasic c = false) :
    ∃ high low, codeUnits c = [high, low] ∧ IsSurrogate high ∧ IsSurrogate low := by
  have hvalid : c.toNat < 0xD800 ∨ 0xDFFF < c.toNat ∧ c.toNat < 0x110000 := c.valid
  have habove : ¬ c.toNat < 0x10000 := by simpa [isBasic] using hc
  refine ⟨_, _, by rw [codeUnits, hc]; rfl, ⟨?_, ?_⟩, ?_, ?_⟩
  all_goals omega

/-! ## Reading them -/

/-- What a character contributes that is written in the escapes of its code units. -/
def contribution (c : Char) (written : List Char) : List Char :=
  if isBasic c then [c] else written

/-- An escape with four digits whose number belongs to no character stays as it is. -/
theorem unescape_unitEscape_of_not_isValidChar {digits : List HexDigit}
    (hlength : digits.length = 4) (h : ¬ (numeral digits).isValidChar) (rest : List Char) :
    unescape (unitEscape digits ++ rest) = unitEscape digits ++ unescape rest := by
  rw [unescape_unitEscape hlength, codePoint_of_not_isValidChar 'u' h, unitEscape]

/-- A character up to `U+FFFF` is read back, and the pair of any other stays. -/
theorem SpellsUnits.unescape_append {c : Char} {written : List Char}
    (h : SpellsUnits (codeUnits c) written) (rest : List Char) :
    unescape (written ++ rest) = contribution c written ++ unescape rest := by
  cases hc : isBasic c with
  | true =>
    rw [codeUnits, if_pos hc] at h
    obtain _ | @⟨digits, _, _, _, hlength, hn, _ | _⟩ := h
    have hne : digits ≠ [] := List.ne_nil_of_length_pos (hlength ▸ by decide)
    rw [List.append_nil, unescape_unitEscape hlength, codePoint_map_char 'u' hne hn,
      contribution, if_pos hc]
  | false =>
    obtain ⟨high, low, hunits, hhigh, hlow⟩ := exists_codeUnits_eq_pair hc
    rw [hunits] at h
    obtain _ | ⟨hfirst, rfl, _ | ⟨hsecond, rfl, _ | _⟩⟩ := h
    rw [contribution, hc, if_neg Bool.false_ne_true, List.append_nil, List.append_assoc,
      unescape_unitEscape_of_not_isValidChar hfirst hhigh.not_isValidChar,
      unescape_unitEscape_of_not_isValidChar hsecond hlow.not_isValidChar, List.append_assoc]

/-- A text with the escapes in which each of its characters is written. -/
def InUnits (pieces : List (Char × List Char)) : Prop :=
  ∀ p ∈ pieces, SpellsUnits (codeUnits p.1) p.2

/-- What is read is what the characters contribute, one after the other. -/
theorem unescape_pieces {pieces : List (Char × List Char)} (h : InUnits pieces) :
    unescape (pieces.flatMap Prod.snd) = pieces.flatMap fun p => contribution p.1 p.2 := by
  induction pieces with
  | nil => exact unescape_nil
  | cons p pieces ih =>
    have hp : SpellsUnits (codeUnits p.1) p.2 := h p List.mem_cons_self
    rw [List.flatMap_cons, List.flatMap_cons, hp.unescape_append,
      ih fun p hp => h p (List.mem_cons_of_mem _ hp)]

theorem SpellsUnits.length_eq {units : List Nat} {written : List Char}
    (h : SpellsUnits units written) : written.length = 6 * units.length := by
  induction h with
  | nil => rfl
  | unit hlength _ _ ih =>
    rw [List.length_append, unitEscape, List.length_cons, List.length_cons, List.length_map,
      hlength, ih, List.length_cons]
    omega

/-- A pair takes twelve places instead of one. -/
theorem length_contributions {pieces : List (Char × List Char)} (h : InUnits pieces) :
    (pieces.flatMap fun p => contribution p.1 p.2).length =
      pieces.length + 11 * pieces.countP fun p => !isBasic p.1 := by
  induction pieces with
  | nil => rfl
  | cons p pieces ih =>
    have hp : SpellsUnits (codeUnits p.1) p.2 := h p List.mem_cons_self
    have ih := ih fun p hp => h p (List.mem_cons_of_mem _ hp)
    rw [List.flatMap_cons, List.length_append, ih, List.length_cons, List.countP_cons]
    cases hc : isBasic p.1 with
    | true =>
      simp only [contribution, hc, if_true, List.length_singleton, Bool.not_true,
        Bool.false_eq_true, if_false]
      omega
    | false =>
      have hlength := hp.length_eq
      rw [codeUnits, hc] at hlength
      simp only [contribution, hc, Bool.false_eq_true, if_false, List.length_cons,
        List.length_nil, Bool.not_false, if_true] at hlength ⊢
      omega

/-- The text is read back exactly if none of its characters is written as a pair. -/
theorem contributions_eq_iff {pieces : List (Char × List Char)} (h : InUnits pieces) :
    (pieces.flatMap fun p => contribution p.1 p.2) = pieces.map Prod.fst ↔
      ∀ p ∈ pieces, isBasic p.1 := by
  constructor
  · intro heq
    have hlength := congrArg List.length heq
    rw [length_contributions h, List.length_map] at hlength
    have hnone : (pieces.countP fun p => !isBasic p.1) = 0 := by omega
    simpa using hnone
  · intro hbasic
    induction pieces with
    | nil => rfl
    | cons p pieces ih =>
      rw [List.flatMap_cons, contribution, if_pos (hbasic p List.mem_cons_self),
        ih (fun p hp => h p (List.mem_cons_of_mem _ hp))
          fun p hp => hbasic p (List.mem_cons_of_mem _ hp)]
      rfl

/-- A text in escapes of its code units: its characters up to `U+FFFF` are read back, and
its pairs stay as they are written. It is named as any other spelling of it is, exactly if
it has no pair. -/
theorem name_of_unitEscapes {pieces : List (Char × List Char)} (h : InUnits pieces) :
    unescape (pieces.flatMap Prod.snd) = (pieces.flatMap fun p => contribution p.1 p.2) ∧
    (unescape (pieces.flatMap Prod.snd) = pieces.map Prod.fst ↔ ∀ p ∈ pieces, isBasic p.1) ∧
    ∀ (q : Quote) (literal : String), IsSpelling literal (String.ofList (pieces.map Prod.fst)) →
      (name (quoted q (pieces.flatMap Prod.snd)) = name literal ↔
        ∀ p ∈ pieces, isBasic p.1) := by
  have hread := unescape_pieces h
  have hback := contributions_eq_iff h
  refine ⟨hread, hread ▸ hback, ?_⟩
  intro q literal hliteral
  rw [hliteral.name_eq, name, quoted, String.toList_ofList, unquote_quoted, hread,
    String.ofList_inj]
  exact hback

/-- `😀` in the escapes of its two code units. -/
def faceEscapes : List Char := ['\\', 'u', 'D', '8', '3', 'D', '\\', 'u', 'D', 'E', '0', '0']

theorem spellsUnits_face : SpellsUnits (codeUnits '😀') faceEscapes := by
  have hlow : SpellsUnits [0xDE00] ['\\', 'u', 'D', 'E', '0', '0'] :=
    @SpellsUnits.unit [⟨13, true⟩, ⟨14, true⟩, ⟨0, false⟩, ⟨0, false⟩] _ _ _ rfl rfl .nil
  exact @SpellsUnits.unit [⟨13, true⟩, ⟨8, false⟩, ⟨3, false⟩, ⟨13, true⟩] _ _ _ rfl rfl hlow

/-- `é😀`, each character in the escapes of its code units. -/
def mixedPieces : List (Char × List Char) :=
  [('é', ['\\', 'u', '0', '0', 'e', '9']), ('😀', faceEscapes)]

theorem inUnits_mixedPieces : InUnits mixedPieces := by
  have hletter : SpellsUnits (codeUnits 'é') ['\\', 'u', '0', '0', 'e', '9'] :=
    @SpellsUnits.unit [⟨0, false⟩, ⟨0, false⟩, ⟨14, false⟩, ⟨9, false⟩] _ _ _ rfl rfl .nil
  intro p hp
  simp only [mixedPieces, List.mem_cons, List.not_mem_nil, or_false] at hp
  rcases hp with rfl | rfl
  · exact hletter
  · exact spellsUnits_face

/-- Characters other than quotes, backslashes and line ends spell themselves. -/
theorem isSpelling_plain (q : Quote) {text : List Char}
    (h : ∀ c ∈ text, c ≠ q.char ∧ c ≠ '\\' ∧ c ≠ '\r' ∧ c ≠ '\n') :
    IsSpelling (quoted q text) (String.ofList text) := by
  refine ⟨q, text, rfl, ?_⟩
  rw [String.toList_ofList]
  induction text with
  | nil => exact .nil
  | cons c text ih =>
    obtain ⟨hquote, hslash, hreturn, hfeed⟩ := h c List.mem_cons_self
    have hplain : SpellsChar q c [c] := .plain hquote hslash hreturn hfeed
    exact .char hplain (ih fun d hd => h d (List.mem_cons_of_mem _ hd))

theorem isSpelling_face : IsSpelling (quoted .single ['😀']) (String.ofList ['😀']) :=
  isSpelling_plain .single (by simp [Quote.char])

theorem name_of_unitEscapes_mixed :
    InUnits mixedPieces ∧
    unescape (mixedPieces.flatMap Prod.snd) = 'é' :: faceEscapes ∧
    unescape (mixedPieces.flatMap Prod.snd) ≠ ['é', '😀'] ∧
    name (quoted .double (mixedPieces.flatMap Prod.snd)) ≠ name (quoted .single ['é', '😀']) := by
  have hpair : ¬ ∀ p ∈ mixedPieces, isBasic p.1 := by decide
  have hraw : IsSpelling (quoted .single ['é', '😀']) (String.ofList ['é', '😀']) :=
    isSpelling_plain .single (by simp [Quote.char])
  obtain ⟨hread, hback, hname⟩ := name_of_unitEscapes inUnits_mixedPieces
  exact ⟨inUnits_mixedPieces, hread, mt hback.1 hpair, mt (hname .double _ hraw).1 hpair⟩

/-- A character above `U+FFFF` in the escapes of its two code units is not read back, and
names the key otherwise than the character itself does. -/
theorem pair_is_not_read_back :
    SpellsUnits (codeUnits '😀') faceEscapes ∧ unescape faceEscapes ≠ ['😀'] ∧
    name (quoted .single faceEscapes) ≠ name (quoted .single ['😀']) := by
  have hpieces : InUnits [('😀', faceEscapes)] := by simpa [InUnits] using spellsUnits_face
  have hread : unescape faceEscapes = faceEscapes := unescape_pieces hpieces
  have hne : faceEscapes ≠ ['😀'] := by decide
  refine ⟨spellsUnits_face, by rwa [hread], ?_⟩
  rw [isSpelling_face.name_eq, name, quoted, String.toList_ofList, unquote_quoted, hread]
  exact fun heq => hne (String.ofList_inj.1 heq)

end StringKey

end ScriptInventory.Declaration
