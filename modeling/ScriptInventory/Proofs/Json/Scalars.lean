import Mathlib
import ScriptInventory.Json.Pretty
import ScriptInventory.Proofs.Json.Grammar
import ScriptInventory.Proofs.Json.Lexing
import ScriptInventory.Proofs.Text.Runs

/-!
# Numbers and strings of JSON texts

A number is one lexeme however it is written (`lexes_number`), and so is a string however its
characters are spelled (`lexesClosed_string`). A number counts as a natural number if and only
if it is written as one and has at most 64 bits (`numberToken_natural?`).
-/

namespace ScriptInventory.Json

variable {α : Type} {view : Lexeme → α}

/-! ## Numbers -/

open ScriptInventory.Number (decimalDigits)
open Declaration.StringKey (HexDigit numeral)

theorem addDigits_eq {significand : Nat} {digits : List Char}
    (h : Nat.ofDigitChars 10 digits significand ≤ mostSignificand) :
    addDigits significand digits = (Nat.ofDigitChars 10 digits significand, []) := by
  induction digits generalizing significand with
  | nil => rw [addDigits, Nat.ofDigitChars_nil]
  | cons c rest ih =>
    rw [Nat.ofDigitChars_cons] at h ⊢
    have hmore : 10 * significand + digitOf c ≤ mostSignificand := by
      have hpow : 1 ≤ 10 ^ rest.length := Nat.one_le_pow _ _ (by decide)
      have hle := Nat.le_mul_of_pos_left (10 * significand + digitOf c) hpow
      rw [Nat.ofDigitChars_eq_ofDigitChars_zero] at h
      unfold digitOf at hle ⊢
      omega
    rw [addDigits, if_neg (Nat.not_lt.2 hmore)]
    exact ih h

theorem le_mostSignificand_iff {n : Nat} : n ≤ mostSignificand ↔ n < 2 ^ 64 := by
  have hmost : mostSignificand + 1 = 2 ^ 64 := rfl
  omega

/-- Digits of which none is dropped have a value that fits. -/
theorem le_of_addDigits {significand : Nat} {digits : List Char}
    (hstart : significand ≤ mostSignificand) (h : (addDigits significand digits).2 = []) :
    Nat.ofDigitChars 10 digits significand ≤ mostSignificand := by
  induction digits generalizing significand with
  | nil => rwa [Nat.ofDigitChars_nil]
  | cons c rest ih =>
    rw [addDigits] at h
    rw [Nat.ofDigitChars_cons]
    split at h
    · cases h
    · next hmore => exact ih (Nat.not_lt.1 hmore) h

theorem head?_decimalDigits {n : Nat} (hn : 0 < n) : (decimalDigits n).head? ≠ some '0' := by
  induction n using Nat.strongRecOn with
  | _ n ih =>
    unfold decimalDigits at ih ⊢
    by_cases hlt : n < 10
    · rw [Nat.toDigits_of_lt_base hlt]
      intro hzero
      have : n = 0 := Nat.digitChar_eq_zero.1 (Option.some.inj hzero)
      omega
    · rw [Nat.toDigits_of_base_le (by decide) (Nat.le_of_not_lt hlt),
        List.head?_append, Option.or_of_isSome (by simp)]
      exact ih (n / 10) (by omega) (by omega)

/-- No digits are written in front of others as zeros. -/
theorem decimalDigits_ne_zero_cons (n : Nat) (c : Char) (rest : List Char) :
    decimalDigits n ≠ '0' :: c :: rest := by
  intro h
  by_cases hn : 0 < n
  · exact head?_decimalDigits hn (by rw [h]; rfl)
  · have hzero : n = 0 := by omega
    rw [hzero] at h
    exact absurd (congrArg List.length h) (by simp [decimalDigits])

theorem isDigit_of_mem_decimalDigits {n : Nat} {c : Char} (h : c ∈ decimalDigits n) :
    c.isDigit :=
  Nat.isDigit_of_mem_toDigits (by decide) (by decide) h

theorem decimalDigits_ne_nil (n : Nat) : decimalDigits n ≠ [] := Nat.toDigits_ne_nil

/-! ### What is taken -/

/-- The exponent of a number, or the end of one without an exponent. -/
theorem withExponent_spells (s : Spot) {isNegative : Bool} {whole text rest : List Char}
    {part : Option (List Char)} {exponent : Option (Bool × List Char)}
    (h : SpellsExponent exponent text) (hrest : EndsNumber rest) (seen : Nat) :
    takeNumber.withExponent s ⟨isNegative, whole, part, none⟩ seen (text ++ rest) =
      ⟨numberToken ⟨isNegative, whole, part, exponent⟩ s (seen + text.length), none,
        seen + text.length⟩ := by
  have hrun : ∀ {digits : List Char}, IsFraction digits →
      (digits ++ rest).takeWhile Char.isDigit = digits := fun h =>
    takeWhile_run h.digit fun c hc => (hrest c hc).1
  cases h with
  -- `rest` does not start with a sign of an exponent, as it ends a number
  | none =>
    rw [List.nil_append, takeNumber.withExponent.eq_def]
    split
    · exact absurd rfl (hrest _ rfl).2.2.1
    · exact absurd rfl (hrest _ rfl).2.2.2
    · rfl
  | @plain e digits he h =>
    have hdigits := hrun h
    obtain ⟨d, more, rfl⟩ := List.exists_cons_of_ne_nil h.ne_nil
    have hd : d.isDigit := h.digit d List.mem_cons_self
    -- without a sign the first digit is looked at twice, and must not be taken for one
    have hsign : d ≠ '+' ∧ d ≠ '-' := by
      constructor <;> rintro rfl <;> exact absurd hd (by decide)
    have hlength : seen + 1 + (more.length + 1) = seen + (more.length + 1 + 1) := by omega
    rw [List.cons_append] at hdigits
    rcases he with rfl | rfl <;> simp [takeNumber.withExponent, hsign, hdigits, hlength]
  | @plus e digits he h =>
    have hdigits := hrun h
    obtain ⟨d, more, rfl⟩ := List.exists_cons_of_ne_nil h.ne_nil
    have hlength : seen + 1 + 1 + (d :: more).length = seen + (e :: '+' :: d :: more).length := by
      simp only [List.length_cons]
      omega
    rw [List.cons_append] at hdigits
    rw [← hlength]
    rcases he with rfl | rfl <;> simp only [takeNumber.withExponent, List.cons_append, hdigits]
  | @minus e digits he h =>
    have hdigits := hrun h
    obtain ⟨d, more, rfl⟩ := List.exists_cons_of_ne_nil h.ne_nil
    have hlength : seen + 1 + 1 + (d :: more).length = seen + (e :: '-' :: d :: more).length := by
      simp only [List.length_cons]
      omega
    rw [List.cons_append] at hdigits
    rw [← hlength]
    rcases he with rfl | rfl <;> simp only [takeNumber.withExponent, List.cons_append, hdigits]

/-- What stands behind the digits of an exponent, a part or a whole is no digit. -/
theorem SpellsExponent.head {exponent : Option (Bool × List Char)} {text rest : List Char}
    (h : SpellsExponent exponent text) (hrest : EndsNumber rest) :
    ∀ c ∈ (text ++ rest).head?, c.isDigit = false ∧ c ≠ '.' := by
  intro c hc
  cases h with
  | none => exact ⟨(hrest c hc).1, (hrest c hc).2.1⟩
  | plain he _ | plus he _ | minus he _ =>
    cases hc
    rcases he with rfl | rfl <;> decide

theorem SpellsPart.head {part : Option (List Char)} {text rest : List Char}
    (h : SpellsPart part text) (hrest : ∀ c ∈ rest.head?, c.isDigit = false) :
    ∀ c ∈ (text ++ rest).head?, c.isDigit = false := by
  intro c hc
  cases h with
  | none => exact hrest c hc
  | point _ =>
    cases hc
    decide

/-- A number is taken as it is written, if nothing makes it longer. -/
theorem takeNumber_spells (s : Spot) {w : Written} {text rest : List Char} (h : w.Spells text)
    (hrest : EndsNumber rest) :
    takeNumber s (text ++ rest) = ⟨numberToken w s text.length, none, text.length⟩ := by
  cases h with
  | @mk isNegative whole part exponent sign partText exponentText hsign hwhole hpart hexponent =>
    have hhead := hexponent.head hrest
    have hrun : (whole ++ (partText ++ (exponentText ++ rest))).takeWhile Char.isDigit = whole :=
      takeWhile_run hwhole.digit (hpart.head fun c hc => (hhead c hc).1)
    obtain ⟨d, more, hcons⟩ := List.exists_cons_of_ne_nil hwhole.ne_nil
    have hd : d.isDigit := hwhole.digit d (hcons ▸ List.mem_cons_self)
    have hminus : d ≠ '-' := by
      rintro rfl
      exact absurd hd (by decide)
    -- the sign is the first character, and what is dropped for it is the sign
    have hnegative : (sign ++ (whole ++ (partText ++ (exponentText ++ rest)))).head? =
        some '-' ↔ isNegative = true := by
      cases hsign with
      | minus => simp
      | none => simp [hcons, hminus]
    have hdrop : (sign ++ (whole ++ (partText ++ (exponentText ++ rest)))).drop
        (if isNegative then 1 else 0) = whole ++ (partText ++ (exponentText ++ rest)) := by
      cases hsign <;> rfl
    have hsize : (if isNegative then 1 else 0) = sign.length := by
      cases hsign <;> rfl
    simp only [List.append_assoc, takeNumber, hnegative, Bool.decide_eq_true, hdrop, hrun,
      List.drop_left]
    split
    · exact absurd rfl hwhole.ne_nil
    · -- no digit follows a zero
      exact absurd (hwhole.zero rfl) (by simp)
    · rw [hsize]
      cases hpart with
      | none =>
        split
        · next hpoint =>
          rw [List.nil_append] at hpoint
          exact absurd rfl (hhead '.' (by rw [hpoint]; rfl)).2
        · rw [List.nil_append, withExponent_spells s hexponent hrest]
          simp only [List.length_append, List.length_nil, Nat.add_assoc, Nat.zero_add]
      | @point digits hdigits =>
        have hpart : (digits ++ (exponentText ++ rest)).takeWhile Char.isDigit = digits :=
          takeWhile_run hdigits.digit fun c hc => (hhead c hc).1
        have hempty : digits.isEmpty = false := by simpa using hdigits.ne_nil
        simp only [List.cons_append, hpart, hempty, Bool.false_eq_true, if_false,
          List.drop_left]
        rw [withExponent_spells s hexponent hrest]
        simp only [List.length_append, List.length_cons, Nat.add_assoc, Nat.add_comm 1]

/-- A number starts with a sign or a digit. -/
theorem Written.Spells.exists_cons {w : Written} {text : List Char} (h : w.Spells text) :
    ∃ c rest, text = c :: rest ∧ (c = '-' ∨ c.isDigit) := by
  cases h with
  | mk hsign hwhole hpart hexponent =>
    cases hsign with
    | minus => exact ⟨'-', _, rfl, .inl rfl⟩
    | none =>
      obtain ⟨d, more, rfl⟩ := List.exists_cons_of_ne_nil hwhole.ne_nil
      exact ⟨d, _, rfl, .inr (hwhole.digit d List.mem_cons_self)⟩

/-- What starts with a sign or a digit is taken as a number. -/
theorem takeToken_number (s : Spot) {c : Char} (hc : c = '-' ∨ c.isDigit) (rest : List Char) :
    takeToken s (c :: rest) = takeNumber s (c :: rest) ∧ isBlank c = false := by
  have hne : ∀ d : Char, d ≠ '-' → d.isDigit = false → c ≠ d := by
    rintro d hminus hdigit rfl
    rcases hc with rfl | hc
    · exact hminus rfl
    · rw [hdigit] at hc
      cases hc
  constructor
  · unfold takeToken
    split
    all_goals first
      | rename_i heq
        exact absurd (List.cons.inj heq).1 (hne _ (by decide) (by decide))
      | skip
    · rename_i heq
      cases heq
      simp only [hc, Bool.or_eq_true, decide_eq_true_eq, if_true]
    · rename_i heq
      cases heq
  · simp only [isBlank, Bool.or_eq_false_iff, decide_eq_false_iff_not]
    exact ⟨⟨⟨hne _ (by decide) (by decide), hne _ (by decide) (by decide)⟩,
      hne _ (by decide) (by decide)⟩, hne _ (by decide) (by decide)⟩

/-- A number is one token however it is written, if nothing makes it longer. -/
theorem lexes_number {w : Written} {text : List Char} {v : α} (h : w.Spells text)
    (hview : ∀ (s : Spot) (l : Lexeme), l.token = numberToken w s text.length →
      l.skipped = none → view l = v) : Lexes view text [v] := by
  intro s rest hrest
  obtain ⟨c, more, htext, hc⟩ := h.exists_cons
  have htake : takeToken s (text ++ rest) =
      ⟨numberToken w s text.length, none, text.length⟩ := by
    rw [← takeNumber_spells s h hrest, htext, List.cons_append, (takeToken_number s hc _).1]
  have hblank : ∀ d ∈ text.head?, isBlank d = false := by
    intro d hd
    rw [htext] at hd
    cases hd
    exact (takeToken_number s hc []).2
  obtain ⟨l, s', htoken, hskipped, h'⟩ :=
    viewsFrom_token view s rest (by simp [htext]) hblank (by rw [htake])
  rw [htake] at htoken hskipped
  exact ⟨s', by rw [h', hview s l htoken hskipped]; rfl⟩

/-! ### Natural numbers -/

theorem floatOf_ne_natural (isNegative : Bool) (significand : Nat) (exponent : Int) (n : Nat) :
    floatOf isNegative significand exponent ≠ some (.natural n) := by
  intro h
  obtain ⟨b, -, hb⟩ := Option.map_eq_some_iff.1 h
  cases hb

/-- A number has a natural number of at most 64 bits as its value if and only if it is
written as one. -/
theorem value?_eq_natural_iff {w : Written} {n : Nat} :
    w.value? = some (.natural n) ↔ w.natural? = some n := by
  obtain ⟨isNegative, whole, part, exponent⟩ := w
  unfold Written.value? Written.natural?
  rcases hadd : addDigits 0 whole with ⟨significand, dropped⟩
  have hdropped : dropped = [] ↔ Nat.ofDigitChars 10 whole 0 < 2 ^ 64 := by
    rw [← le_mostSignificand_iff]
    constructor
    · intro hnil
      exact le_of_addDigits (Nat.zero_le _) (by rw [hadd]; exact hnil)
    · intro hle
      rw [addDigits_eq hle] at hadd
      exact (Prod.mk.inj hadd).2.symm
  dsimp only
  split
  · -- all digits are kept, and there is nothing but digits
    have hlt := hdropped.1 rfl
    rw [addDigits_eq (le_mostSignificand_iff.2 hlt)] at hadd
    obtain ⟨rfl, -⟩ := Prod.mk.inj hadd
    cases isNegative with
    | true =>
      simp only [if_true]
      split <;> simp [floatOf_ne_natural]
    | false => simp only [Bool.false_eq_true, if_false, hlt, and_self, if_true, Option.some.injEq,
        Number.natural.injEq]
  · next hother =>
    simp only [floatOf_ne_natural, false_iff]
    rw [if_neg]
    · simp
    · rintro ⟨-, hpart, hexponent, hlt⟩
      exact hother (hdropped.2 hlt) hpart hexponent

/-- The token of a number shows whether it is a natural number of at most 64 bits. -/
theorem numberToken_eq (w : Written) (s : Spot) (length : Nat) :
    ∃ v, numberToken w s length = .number v ∧
      ∀ n, v = .ok (.natural n) ↔ w.natural? = some n := by
  obtain ⟨isNegative, whole, part, exponent⟩ := w
  have hvalue := fun n =>
    value?_eq_natural_iff (w := ⟨isNegative, whole, part, exponent⟩) (n := n)
  unfold numberToken
  generalize Written.value? ⟨isNegative, whole, part, exponent⟩ = value at hvalue ⊢
  have hplain : ∃ v : Except Fault Number, v = value.elim
      (.error ⟨.numberOutOfRange, s.right length⟩) .ok ∧
        ∀ n, v = .ok (.natural n) ↔
          Written.natural? ⟨isNegative, whole, part, exponent⟩ = some n := by
    refine ⟨_, rfl, fun n => ?_⟩
    rw [← hvalue]
    cases value <;> simp
  obtain ⟨plain, hplain, hnatural⟩ := hplain
  rcases exponent with _ | ⟨isSmall, digits⟩
  · refine ⟨plain, ?_, hnatural⟩
    rw [hplain]
    cases value <;> rfl
  · have hnone : Written.natural? ⟨isNegative, whole, part, some (isSmall, digits)⟩ = none :=
      if_neg fun h => Option.some_ne_none _ h.2.2.1
    dsimp only
    generalize exponentLimit 0 0 digits = limit
    cases limit with
    | none =>
      refine ⟨plain, ?_, hnatural⟩
      rw [hplain]
      cases value <;> rfl
    | some n =>
      dsimp only
      split <;> exact ⟨_, rfl, by simp [hnone]⟩

/-- A natural number as it is written. -/
theorem spells_decimalDigits (n : Nat) :
    Written.Spells ⟨false, decimalDigits n, none, none⟩ (decimalDigits n) := by
  have hwhole : IsWhole (decimalDigits n) := by
    refine ⟨decimalDigits_ne_nil n, fun c => isDigit_of_mem_decimalDigits, ?_⟩
    intro hzero
    obtain ⟨c, rest, hcons⟩ := List.exists_cons_of_ne_nil (decimalDigits_ne_nil n)
    rw [hcons] at hzero ⊢
    obtain rfl : c = '0' := Option.some.inj hzero
    cases rest with
    | nil => rfl
    | cons d rest => exact absurd hcons (decimalDigits_ne_zero_cons n d rest)
  simpa using Written.Spells.mk .none hwhole .none .none

/-! ## Strings -/

theorem hexValue?_char (d : HexDigit) : hexValue? d.char = some d.value.val := by
  obtain ⟨value, isCapital⟩ := d
  revert value isCapital
  decide

/-- Four digits are read as their number. -/
theorem fourDigits_append (s : Spot) (a b c d : HexDigit) (rest : List Char) :
    fourDigits s ([a, b, c, d].map HexDigit.char ++ rest) = .ok (numeral [a, b, c, d], rest) := by
  have hvalue : ((16 * a.value.val + b.value) * 16 + c.value) * 16 + d.value =
      numeral [a, b, c, d] := by
    simp only [numeral, List.foldl_cons, List.foldl_nil]
    omega
  simp only [List.map_cons, List.map_nil, List.cons_append, List.nil_append, fourDigits,
    hexValue?_char, hvalue]

/-- A code of four digits in a string. -/
theorem takeString_code (t : StringState) (length fuel : Nat) (s : Spot) (a b c d : HexDigit)
    (rest : List Char) :
    takeString t length (fuel + 1) s (codeText a b c d ++ rest) =
      let n := numeral [a, b, c, d]
      let behind := (s.right 2).right 4
      if isLowSurrogate n then
        takeString (t.fail ⟨.loneSurrogate, behind⟩) (length + 6) fuel behind rest
      else if isHighSurrogate n then
        match secondHalf behind n rest with
        | .ok (c, rest) => takeString (t.push c) (length + 12) fuel (behind.right 6) rest
        | .error f => takeString (t.fail f) (length + 6) fuel behind rest
      else takeString (t.push (Char.ofNat n)) (length + 6) fuel behind rest := by
  have hdigits := fourDigits_append (s.right 2) a b c d rest
  change takeString t length (fuel + 1) s
    ('\\' :: 'u' :: ([a, b, c, d].map HexDigit.char ++ rest)) = _
  rw [takeString.eq_def]
  simp only [hdigits]
  rfl

/-- No character is half of a pair. -/
theorem not_surrogate (c : Char) :
    isLowSurrogate c.toNat = false ∧ isHighSurrogate c.toNat = false := by
  have hvalid : c.toNat.isValidChar := c.valid
  simp only [isLowSurrogate, isHighSurrogate, Bool.and_eq_false_iff, decide_eq_false_iff_not]
  unfold Nat.isValidChar at hvalid
  omega

/-- The second half of a pair completes its character. -/
theorem secondHalf_code (s : Spot) {high low : Nat} {a b c d : HexDigit} {ch : Char}
    (hlow : low < 0x400) (hl : numeral [a, b, c, d] = 0xDC00 + low)
    (hch : ch.toNat = 0x10000 + high * 0x400 + low) (rest : List Char) :
    secondHalf s (0xD800 + high) (codeText a b c d ++ rest) = .ok (ch, rest) := by
  have hdigits := fourDigits_append (s.right 2) a b c d rest
  change secondHalf s (0xD800 + high)
    ('\\' :: 'u' :: ([a, b, c, d].map HexDigit.char ++ rest)) = _
  have hisLow : isLowSurrogate (0xDC00 + low) = true := by
    simp only [isLowSurrogate, Bool.and_eq_true, decide_eq_true_eq]
    omega
  simp only [secondHalf, hdigits, hl, hisLow, if_true, Nat.add_sub_cancel_left, ← hch,
    Char.ofNat_toNat]

/-- A character is read however it is spelled. -/
theorem takeString_character {c : Char} {text : List Char} (h : SpellsCharacter c text)
    (t : StringState) (length fuel : Nat) (s : Spot) (rest : List Char) :
    ∃ s', takeString t length (fuel + 1) s (text ++ rest) =
      takeString (t.push c) (length + text.length) fuel s' rest := by
  cases h with
  | plain hquote hslash hcontrol =>
    refine ⟨s.next c, ?_⟩
    rw [List.singleton_append, takeString.eq_def]
    simp only [hquote, hslash, Nat.not_lt.2 hcontrol, if_false]
    rfl
  | @letter l h =>
    simp only [characterEscapes, List.mem_cons, List.not_mem_nil, or_false, Prod.mk.injEq] at h
    rcases h with ⟨rfl, rfl⟩ | ⟨rfl, rfl⟩ | ⟨rfl, rfl⟩ | ⟨rfl, rfl⟩ | ⟨rfl, rfl⟩ | ⟨rfl, rfl⟩ |
      ⟨rfl, rfl⟩ | ⟨rfl, rfl⟩ <;> exact ⟨_, rfl⟩
  | code hnumeral =>
    obtain ⟨hlow, hhigh⟩ := not_surrogate c
    refine ⟨(s.right 2).right 4, ?_⟩
    rw [takeString_code]
    simp only [hnumeral, hlow, hhigh, Bool.false_eq_true, if_false, Char.ofNat_toNat]
    rfl
  | @pair high low h₁ h₂ h₃ h₄ l₁ l₂ l₃ l₄ hhigh hlow hc hh hl =>
    refine ⟨((s.right 2).right 4).right 6, ?_⟩
    have hisLow : isLowSurrogate (0xD800 + high) = false := by
      simp only [isLowSurrogate, Bool.and_eq_false_iff, decide_eq_false_iff_not]
      omega
    have hisHigh : isHighSurrogate (0xD800 + high) = true := by
      simp only [isHighSurrogate, Bool.and_eq_true, decide_eq_true_eq]
      omega
    rw [List.append_assoc, takeString_code]
    simp only [hh, hisLow, hisHigh, Bool.false_eq_true, if_false, if_true,
      secondHalf_code _ hlow hl hc]
    rfl

theorem SpellsCharacter.length_pos {c : Char} {text : List Char} (h : SpellsCharacter c text) :
    0 < text.length := by
  cases h <;> simp [codeText]

theorem SpellsCharacters.length_le {cs text : List Char} (h : SpellsCharacters cs text) :
    cs.length ≤ text.length := by
  induction h with
  | nil => exact Nat.le_refl _
  | cons hc h ih =>
    have := hc.length_pos
    rw [List.length_cons, List.length_append]
    omega

/-- The characters of a string and its closing quote, behind the opening one. -/
theorem takeString_characters {t : StringState} (ht : t.fault = none) {cs text : List Char}
    (h : SpellsCharacters cs text) (length fuel : Nat) (s : Spot) (rest : List Char)
    (hfuel : cs.length < fuel) :
    takeString t length fuel s (text ++ ('"' :: rest)) =
      ⟨.string (.ok (String.ofList (t.seen.reverse ++ cs))), none, length + text.length + 1⟩ := by
  induction h generalizing t length fuel s with
  | nil =>
    obtain ⟨fuel, rfl⟩ : ∃ k, fuel = k + 1 := ⟨fuel - 1, by simp at hfuel; omega⟩
    rw [List.nil_append, takeString.eq_def]
    simp only [if_true, ht, List.append_nil, List.length_nil, Nat.add_zero]
  | @cons c cs text more hc h ih =>
    rw [List.length_cons] at hfuel
    obtain ⟨fuel, rfl⟩ : ∃ k, fuel = k + 1 := ⟨fuel - 1, by omega⟩
    obtain ⟨s', h'⟩ := takeString_character hc t length fuel s (more ++ ('"' :: rest))
    rw [List.append_assoc, h', ih (t := t.push c) ht _ _ _ (by omega)]
    simp only [StringState.push, List.reverse_cons, List.append_assoc, List.singleton_append,
      List.length_append, Nat.add_assoc]

/-- A string is one token, however its characters are spelled. -/
theorem lexesClosed_string {s : String} {text : List Char} {v : α}
    (h : SpellsCharacters s.toList text)
    (hview : ∀ l : Lexeme, l.token = .string (.ok s) → l.skipped = none → view l = v) :
    LexesClosed view ('"' :: (text ++ ['"'])) [v] := by
  apply lexesClosed_of_takeToken (List.cons_ne_nil _ _)
  · intro c hc
    cases hc
    rfl
  · intro spot rest
    have htake : takeToken spot ('"' :: (text ++ ['"']) ++ rest) = takeString ⟨[], none⟩ 1
        ((text ++ ('"' :: rest)).length + 1) (spot.right 1) (text ++ ('"' :: rest)) := by
      rw [List.cons_append, List.append_assoc, List.singleton_append]
      rfl
    have hlength := h.length_le
    rw [htake, takeString_characters rfl h _ _ _ _ (by simp only [List.length_append]; omega)]
    refine ⟨?_, ?_⟩
    · simp only [List.length_cons, List.length_append, List.length_nil]
      omega
    · intro l htoken hskipped
      apply hview l _ hskipped
      rw [htoken, List.reverse_nil, List.nil_append, String.ofList_toList]

end ScriptInventory.Json
