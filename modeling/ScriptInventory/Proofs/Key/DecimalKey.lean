import Mathlib
import ScriptInventory.Proofs.Key.Numeral
import ScriptInventory.Proofs.Number.Shortest
import ScriptInventory.Proofs.Text.Runs

/-!
# Decimal numeric keys

A decimal literal has digits with an optional point and an optional exponent, or digits and
the mark of an exact integer; separators may stand between digits. `SpellsDecimal` lists the
literals with the rational number that each stands for. Main statement: a literal whose
number is a whole one up to `2 ^ 53` names its decimal digits, as every other literal of that
number does (`name_of_spellsDecimal`).

* `SpellsDecimal.reads`: what is left of a literal is read as a decimal of its value.
* `nameOf?_congr`: the name of a decimal depends on its value only.
* `nameOf?_natural`, `nameOf?_natural_eq_none_iff`: the names of natural numbers.
-/

namespace ScriptInventory.Declaration.NumberKey

open Number
open StringKey (HexDigit)

/-! ## Literals -/

def exponentSigns : List (List Char × Int) := [([], 1), (['+'], 1), (['-'], -1)]

/-- The ways to write an exponent, or to leave it out. -/
inductive SpellsExponent : Int → List Char → Prop
  | none : SpellsExponent 0 []
  | behind {mark : Char} {sign : List Char} {factor : Int} {digits : List HexDigit}
      {written : List Char} : mark ∈ ['e', 'E'] → (sign, factor) ∈ exponentSigns →
      digits ≠ [] → InBase 10 digits → Separated digits written →
      SpellsExponent (factor * valueIn 10 digits) (mark :: (sign ++ written))

/-- The decimal literals with the number that each stands for; whether they have the mark
of an exact integer is part of them. -/
inductive SpellsDecimal : ℚ → Bool → List Char → Prop
  | whole {digits : List HexDigit} {written tail : List Char} {e : Int} :
      digits ≠ [] → InBase 10 digits → Separated digits written → SpellsExponent e tail →
      SpellsDecimal (valueIn 10 digits * 10 ^ e) false (written ++ tail)
  | point {whole part : List HexDigit} {written writtenPart tail : List Char} {e : Int} :
      whole ++ part ≠ [] → InBase 10 (whole ++ part) → Separated whole written →
      Separated part writtenPart → SpellsExponent e tail →
      SpellsDecimal ((valueIn 10 whole + valueIn 10 part / 10 ^ part.length) * 10 ^ e) false
        (written ++ '.' :: (writtenPart ++ tail))
  | exact {digits : List HexDigit} {written : List Char} :
      digits ≠ [] → InBase 10 digits → Separated digits written →
      SpellsDecimal (valueIn 10 digits) true (written ++ ['n'])

/-! ## Reading them -/

theorem foldl_valueIn (base n : Nat) (digits : List HexDigit) :
    digits.foldl (fun n d => base * n + d.value.val) n =
      n * base ^ digits.length + valueIn base digits := by
  induction digits generalizing n with
  | nil => simp [valueIn]
  | cons d digits ih =>
    rw [valueIn, List.foldl_cons, List.foldl_cons, ih, ih (base * 0 + d.value.val),
      List.length_cons]
    ring

theorem valueIn_append (base : Nat) (a b : List HexDigit) :
    valueIn base (a ++ b) = valueIn base a * base ^ b.length + valueIn base b := by
  rw [valueIn, List.foldl_append, foldl_valueIn]
  rfl

theorem toNat_char {d : HexDigit} (hd : d.value.val < 10) : d.char.toNat - '0'.toNat = d.value := by
  obtain ⟨value, isCapital⟩ := d
  revert value isCapital
  decide

theorem isDigit_char {d : HexDigit} (hd : d.value.val < 10) : d.char.isDigit := by
  obtain ⟨value, isCapital⟩ := d
  revert value isCapital
  decide

theorem digitsValue_map_char {digits : List HexDigit} (h : InBase 10 digits) :
    digitsValue (digits.map HexDigit.char) = valueIn 10 digits := by
  rw [digitsValue, List.foldl_map, valueIn]
  exact List.foldl_ext _ _ 0 fun n d hd => congrArg (10 * n + ·) (toNat_char (h d hd))

theorem isDigit_of_mem_map_char {digits : List HexDigit} (h : InBase 10 digits) :
    ∀ c ∈ digits.map HexDigit.char, c.isDigit := by
  intro c hc
  obtain ⟨d, hd, rfl⟩ := List.mem_map.1 hc
  exact isDigit_char (h d hd)

/-- The characters of a decimal literal that are read. -/
def isDecimalPart (c : Char) : Bool := c.isDigit || ['.', 'e', 'E', '+', '-'].contains c

/-- A text that is read as an exponent, whatever digits stand in front of it. -/
structure ReadsExponent (text : List Char) (e : Int) : Prop where
  head : ∀ c ∈ text.head?, c.isDigit = false ∧ c ≠ '.'
  parts : ∀ c ∈ text, isDecimalPart c
  finish : ∀ whole part, whole ++ part ≠ [] →
    Decimal.finish? whole part text = some ⟨digitsValue (whole ++ part), e - part.length⟩

theorem exponent?_map_char {sign : List Char} {factor : Int} {digits : List HexDigit}
    (hsign : (sign, factor) ∈ exponentSigns) (hne : digits ≠ []) (hbase : InBase 10 digits) :
    Decimal.exponent? (sign ++ digits.map HexDigit.char) =
      some (factor * valueIn 10 digits) := by
  have hread : Decimal.exponent?.read (digits.map HexDigit.char) =
      some (valueIn 10 digits : Int) := by
    have hdigits : (digits.map HexDigit.char).all Char.isDigit :=
      List.all_eq_true.2 (isDigit_of_mem_map_char hbase)
    rw [Decimal.exponent?.read, hdigits, digitsValue_map_char hbase, Bool.and_true,
      if_pos (by simpa using hne)]
  simp only [exponentSigns, List.mem_cons, Prod.mk.injEq, List.not_mem_nil, or_false] at hsign
  obtain ⟨rfl, rfl⟩ | ⟨rfl, rfl⟩ | ⟨rfl, rfl⟩ := hsign
  · rw [List.nil_append, Int.one_mul, ← hread]
    cases digits with
    | nil => exact absurd rfl hne
    | cons d digits =>
      rw [List.map_cons, Decimal.exponent?]
      · exact fun _ h => absurd (List.cons.inj h).1 (d.char_ne (by decide))
      · exact fun _ h => absurd (List.cons.inj h).1 (d.char_ne (by decide))
  · rw [Int.one_mul, ← hread]
    rfl
  · have hminus : Decimal.exponent? (['-'] ++ digits.map HexDigit.char) =
        (Decimal.exponent?.read (digits.map HexDigit.char)).map Int.neg := rfl
    rw [hminus, hread, Int.neg_one_mul]
    rfl

theorem finish?_exponent {mark : Char} {rest : List Char} {e : Int} (hmark : mark ∈ ['e', 'E'])
    (h : Decimal.exponent? rest = some e) {whole part : List Char} (hne : whole ++ part ≠ []) :
    Decimal.finish? whole part (mark :: rest) =
      some ⟨digitsValue (whole ++ part), e - part.length⟩ := by
  have hempty : (whole.isEmpty && part.isEmpty) = false := by simpa using hne
  simp only [List.mem_cons, List.not_mem_nil, or_false] at hmark
  obtain rfl | rfl := hmark
  all_goals
    rw [Decimal.finish?, hempty, if_neg Bool.false_ne_true]
    dsimp only
    rw [h, Option.map_some]

theorem isDecimalPart_of_mem {digits : List HexDigit} (h : InBase 10 digits) :
    ∀ c ∈ digits.map HexDigit.char, isDecimalPart c := by
  intro c hc
  rw [isDecimalPart, isDigit_of_mem_map_char h c hc, Bool.true_or]

theorem sign_parts {sign : List Char} {factor : Int} (h : (sign, factor) ∈ exponentSigns) :
    ∀ c ∈ sign, isDecimalPart c ∧ c ≠ '_' := by
  simp only [exponentSigns, List.mem_cons, Prod.mk.injEq, List.not_mem_nil, or_false] at h
  obtain ⟨rfl, -⟩ | ⟨rfl, -⟩ | ⟨rfl, -⟩ := h <;> decide

theorem SpellsExponent.reads {e : Int} {tail : List Char} (h : SpellsExponent e tail) :
    ReadsExponent (tail.filter (· ≠ '_')) e := by
  cases h with
  | none =>
    refine ⟨by simp, by simp, fun whole part hne => ?_⟩
    have hempty : (whole.isEmpty && part.isEmpty) = false := by simpa using hne
    rw [List.filter_nil, Decimal.finish?, hempty]
    rfl
  | @behind mark sign factor digits written hmark hsign hne hbase hwritten =>
    have hmark' : mark.isDigit = false ∧ mark ≠ '.' ∧ isDecimalPart mark ∧ mark ≠ '_' := by
      simp only [List.mem_cons, List.not_mem_nil, or_false] at hmark
      obtain rfl | rfl := hmark <;> decide
    have hsigns : sign.filter (· ≠ '_') = sign :=
      List.filter_eq_self.2 fun c hc => decide_eq_true (sign_parts hsign c hc).2
    have hfilter : (mark :: (sign ++ written)).filter (· ≠ '_') =
        mark :: (sign ++ digits.map HexDigit.char) := by
      rw [List.filter_cons_of_pos (by simpa using hmark'.2.2.2), List.filter_append, hsigns,
        hwritten.filter_eq]
    rw [hfilter]
    refine ⟨?_, ?_, fun whole part =>
      finish?_exponent hmark (exponent?_map_char hsign hne hbase)⟩
    · intro c hc
      obtain rfl := Option.some.inj hc
      exact ⟨hmark'.1, hmark'.2.1⟩
    · intro c hc
      rcases List.mem_cons.1 hc with rfl | hc
      · exact hmark'.2.2.1
      rcases List.mem_append.1 hc with hc | hc
      · exact (sign_parts hsign c hc).1
      · exact isDecimalPart_of_mem hbase c hc

/-- Digits, perhaps with a point between them, and an exponent are read one after the other. -/
theorem parse?_whole {whole text : List Char} {e : Int} (hwhole : ∀ c ∈ whole, c.isDigit)
    (hne : whole ≠ []) (h : ReadsExponent text e) :
    Decimal.parse? (whole ++ text) = some ⟨digitsValue whole, e⟩ := by
  have htake : (whole ++ text).takeWhile Char.isDigit = whole :=
    takeWhile_run hwhole fun c hc => (h.head c hc).1
  have hfinish := h.finish whole [] (by simpa using hne)
  rw [List.append_nil, List.length_nil, Nat.cast_zero, Int.sub_zero] at hfinish
  rw [Decimal.parse?, htake, List.drop_left' rfl]
  split
  · next rest heq =>
    exact absurd rfl (h.head '.' rfl).2
  · exact hfinish

theorem parse?_point {whole part text : List Char} {e : Int} (hwhole : ∀ c ∈ whole, c.isDigit)
    (hpart : ∀ c ∈ part, c.isDigit) (hne : whole ++ part ≠ []) (h : ReadsExponent text e) :
    Decimal.parse? (whole ++ '.' :: (part ++ text)) =
      some ⟨digitsValue (whole ++ part), e - part.length⟩ := by
  have htake : (whole ++ '.' :: (part ++ text)).takeWhile Char.isDigit = whole :=
    takeWhile_run hwhole fun c hc => Option.some.inj hc ▸ rfl
  have htakePart : (part ++ text).takeWhile Char.isDigit = part :=
    takeWhile_run hpart fun c hc => (h.head c hc).1
  rw [Decimal.parse?, htake, List.drop_left' rfl]
  simp only [htakePart, List.drop_left]
  exact h.finish whole part hne

/-! ## Names of decimals -/

def nameOf? (d : Decimal) : Option (List Char) :=
  if d.digits = 0 || isTiny d then some ['0']
  else if isHuge d then none
  else (Binary.nearest? d.fraction.1 d.fraction.2).map fun b => b.shortest.render

theorem decimalName?_eq (text : List Char) :
    decimalName? text = (Decimal.parse? text).bind nameOf? := rfl

/-- The name of a decimal depends on its value only. -/
theorem nameOf?_congr {d d' : Decimal} (h : d.value = d'.value) : nameOf? d = nameOf? d' := by
  have hzero : d.digits = 0 ↔ d'.digits = 0 := by
    rw [← d.value_eq_zero_iff, ← d'.value_eq_zero_iff, h]
  by_cases hd : d.digits = 0
  · rw [nameOf?, nameOf?, decide_eq_true hd, decide_eq_true (hzero.1 hd)]
    rfl
  · have hd' : d'.digits ≠ 0 := mt hzero.2 hd
    have hplace : ((decimalDigits d.digits).length : Int) + d.exponent =
        (decimalDigits d'.digits).length + d'.exponent := by
      rw [Decimal.length_add_exponent hd, Decimal.length_add_exponent hd', h]
    have hnearest : Binary.nearest? d.fraction.1 d.fraction.2 =
        Binary.nearest? d'.fraction.1 d'.fraction.2 := by
      apply Binary.nearest?_congr d.fraction_snd_pos d'.fraction_snd_pos
      rw [d.fraction_quotient, d'.fraction_quotient, h]
    rw [nameOf?, nameOf?, decide_eq_false hd, decide_eq_false hd', isTiny, isTiny, isHuge, isHuge,
      hplace, hnearest]

theorem nameOf?_of_pos {v : Nat} (hv : 0 < v) :
    nameOf? ⟨v, 0⟩ = if 400 < (decimalDigits v).length then none
      else (Binary.nearest? v 1).map fun b => b.shortest.render := by
  have htiny : isTiny ⟨v, 0⟩ = false := decide_eq_false (by dsimp only; omega)
  have hhuge : isHuge ⟨v, 0⟩ = decide (400 < (decimalDigits v).length) := by
    rw [isHuge]
    apply decide_eq_decide.2
    dsimp only
    omega
  have hfraction : Decimal.fraction ⟨v, 0⟩ = (v, 1) := by simp [Decimal.fraction]
  rw [nameOf?, decide_eq_false (p := (⟨v, 0⟩ : Decimal).digits = 0) hv.ne', htiny, hhuge,
    hfraction]
  simp

/-- A natural number up to `2 ^ 53` is named by its digits. -/
theorem nameOf?_natural {v : Nat} (hv : v ≤ 2 ^ 53) :
    nameOf? ⟨v, 0⟩ = some (decimalDigits v) := by
  obtain rfl | hpos := v.eq_zero_or_pos
  · rfl
  · have hlength : (decimalDigits v).length ≤ 16 :=
      (Nat.length_toDigits_le_iff (by decide) (by decide)).2 (hv.trans_lt (by decide))
    rw [nameOf?_of_pos hpos, if_neg (by omega), Binary.render_nearest_natural hpos hv]

/-- A natural number has no name of its own from halfway between the largest binary number and
`2 ^ 1024` on. -/
theorem nameOf?_natural_eq_none_iff (v : Nat) :
    nameOf? ⟨v, 0⟩ = none ↔ 2 ^ 1024 - 2 ^ 970 ≤ v := by
  have hlimit : 0 < 2 ^ 1024 - 2 ^ 970 :=
    tsub_pos_of_lt (pow_lt_pow_right₀ one_lt_two (by decide))
  obtain rfl | hpos := v.eq_zero_or_pos
  · have hzero : nameOf? ⟨0, 0⟩ = some ['0'] := rfl
    rw [hzero]
    simp only [reduceCtorEq, false_iff]
    omega
  · rw [nameOf?_of_pos hpos]
    split
    · next hlength =>
      have hhuge : 2 ^ 1024 ≤ 10 ^ 400 := by
        have h : (2 ^ 64) ^ 16 ≤ (10 ^ 25) ^ 16 := Nat.pow_le_pow_left (by decide) 16
        simpa only [← pow_mul, Nat.reduceMul] using h
      have hdigits : 10 ^ 400 ≤ v := pow_le_of_lt_length (by decide) hlength
      exact iff_of_true rfl (tsub_le_self.trans (hhuge.trans hdigits))
    · rw [Option.map_eq_none_iff, Binary.nearest?_natural_eq_none_iff hpos]

/-! ## Names of literals -/

theorem name?_of_parts {literal : List Char} (h : ∀ c ∈ clean literal, isDecimalPart c) :
    name? literal = decimalName? (clean literal) := by
  have hmark (c : Char) (digits : List Char) (heq : clean literal = '0' :: c :: digits) :
      isDecimalPart c := h c (heq ▸ List.mem_cons_of_mem _ List.mem_cons_self)
  unfold name?
  split
  all_goals first
    | rfl
    | next digits heq => exact absurd (hmark _ digits heq) (by decide)

/-- A literal of the characters of decimals is read without its separators. -/
theorem name?_of_filter {body : List Char} (isExact : Bool) {d : Decimal}
    (hparts : ∀ c ∈ body.filter (· ≠ '_'), isDecimalPart c)
    (hparse : Decimal.parse? (body.filter (· ≠ '_')) = some d) :
    name? (body ++ suffix isExact) = nameOf? d := by
  have hclean : clean (body ++ suffix isExact) = body.filter (· ≠ '_') :=
    clean_eq isExact fun hn => absurd (hparts 'n' hn) (by decide)
  rw [name?_of_parts (hclean ▸ hparts), hclean, decimalName?_eq, hparse, Option.bind_some]

/-- What is left of a decimal literal is read as a decimal of its value. -/
theorem SpellsDecimal.reads {q : ℚ} {isExact : Bool} {literal : List Char}
    (h : SpellsDecimal q isExact literal) :
    ∃ body d, literal = body ++ suffix isExact ∧
      (∀ c ∈ body.filter (· ≠ '_'), isDecimalPart c) ∧
      Decimal.parse? (body.filter (· ≠ '_')) = some d ∧ d.value = q := by
  cases h with
  -- each way of writing loses its separators and is left as digits, with an exponent
  | @whole digits written tail e hne hbase hwritten htail =>
    have hread := htail.reads
    refine ⟨written ++ tail, ⟨valueIn 10 digits, e⟩, (List.append_nil _).symm, ?_, ?_, rfl⟩
    all_goals rw [List.filter_append, hwritten.filter_eq]
    · intro c hc
      exact (List.mem_append.1 hc).elim (isDecimalPart_of_mem hbase c) (hread.parts c)
    · rw [parse?_whole (isDigit_of_mem_map_char hbase) (by simpa using hne) hread,
        digitsValue_map_char hbase]
  -- the digits behind the point lower the exponent by their number
  | @point whole part written writtenPart tail e hne hbase hwritten hpart htail =>
    have hread := htail.reads
    have hbaseWhole : InBase 10 whole := fun d hd => hbase d (List.mem_append_left _ hd)
    have hbasePart : InBase 10 part := fun d hd => hbase d (List.mem_append_right _ hd)
    refine ⟨written ++ '.' :: (writtenPart ++ tail),
      ⟨valueIn 10 (whole ++ part), e - part.length⟩, (List.append_nil _).symm, ?_, ?_, ?_⟩
    · rw [List.filter_append, hwritten.filter_eq, List.filter_cons_of_pos (by decide),
        List.filter_append, hpart.filter_eq]
      intro c hc
      rcases List.mem_append.1 hc with hc | hc
      · exact isDecimalPart_of_mem hbaseWhole c hc
      rcases List.mem_cons.1 hc with rfl | hc
      · decide
      · exact (List.mem_append.1 hc).elim (isDecimalPart_of_mem hbasePart c) (hread.parts c)
    · rw [List.filter_append, hwritten.filter_eq, List.filter_cons_of_pos (by decide),
        List.filter_append, hpart.filter_eq, parse?_point (isDigit_of_mem_map_char hbaseWhole)
        (isDigit_of_mem_map_char hbasePart) (by simpa using hne) hread, ← List.map_append,
        digitsValue_map_char hbase, List.length_map]
    · rw [Decimal.value, valueIn_append, zpow_sub₀ (by norm_num), zpow_natCast]
      push_cast
      field_simp
  -- the suffix is no character of a decimal, and `clean` drops it
  | @exact digits written hne hbase hwritten =>
    have hread : ReadsExponent [] 0 := SpellsExponent.none.reads
    refine ⟨written, ⟨valueIn 10 digits, 0⟩, rfl, ?_, ?_, Decimal.value_natural _⟩
    all_goals rw [hwritten.filter_eq]
    · exact isDecimalPart_of_mem hbase
    · rw [← List.append_nil (digits.map HexDigit.char),
        parse?_whole (isDigit_of_mem_map_char hbase) (by simpa using hne) hread,
        digitsValue_map_char hbase]

/-- A decimal literal is named as any decimal of its value. -/
theorem SpellsDecimal.name?_eq {q : ℚ} {isExact : Bool} {literal : List Char}
    (h : SpellsDecimal q isExact literal) {d : Decimal} (hd : d.value = q) :
    name? literal = nameOf? d := by
  obtain ⟨body, d', rfl, hparts, hparse, hvalue⟩ := h.reads
  rw [name?_of_filter isExact hparts hparse]
  exact nameOf?_congr (hvalue.trans hd.symm)

/-- A decimal literal of a natural number is named as its digits are. -/
theorem SpellsDecimal.name?_natural {v : Nat} {isExact : Bool} {literal : List Char}
    (h : SpellsDecimal v isExact literal) : name? literal = nameOf? ⟨v, 0⟩ :=
  h.name?_eq (Decimal.value_natural v)

/-- A decimal literal of a natural number up to `2 ^ 53` names the digits of the number, and
so does every other literal of it. -/
theorem name_of_spellsDecimal {v : Nat} {isExact : Bool} {literal : String}
    (h : SpellsDecimal v isExact literal.toList) (hv : v ≤ 2 ^ 53) :
    name literal = toString v ∧
    ∀ (isExact' : Bool) (other : String),
      SpellsDecimal v isExact' other.toList ∨ SpellsBased v isExact' other.toList →
      name other = name literal := by
  have hdecimal : ∀ (isExact' : Bool) (other : String), SpellsDecimal v isExact' other.toList →
      name other = toString v := fun _ _ hother =>
    name_of_name?_eq (hother.name?_natural.trans (nameOf?_natural hv))
  have hsmall : v < 2 ^ 128 := hv.trans_lt (by decide)
  have hname := hdecimal isExact literal h
  refine ⟨hname, fun isExact' other hother => ?_⟩
  rw [hname]
  obtain hother | hother := hother
  · exact hdecimal isExact' other hother
  · exact name_of_name?_eq (hother.name?_eq.trans (if_pos hsmall))

/-- The digits behind the point of `lastDecimal`. -/
def lastPart : List HexDigit := plain [1, 9, 9, 2, 5, 4, 7, 4, 0, 9, 9, 2, 0]

/-- `9_007.1992547409920E+12`, the last number whose literals agree. -/
def lastDecimal : List Char :=
  ['9', '_', '0', '0', '7'] ++ '.' :: (lastPart.map HexDigit.char ++ ['E', '+', '1', '2'])

/-- `0x20_0000_0000_0000`, the same number in base sixteen. -/
def lastBased : List Char :=
  '0' :: 'x' :: (['2', '0', '_', '0', '0', '0', '0', '_', '0', '0', '0', '0', '_', '0', '0', '0',
    '0'] ++ suffix false)

theorem spells_lastDecimal : SpellsDecimal ((2 ^ 53 : Nat) : ℚ) false lastDecimal := by
  have hwhole : Separated (plain [9, 0, 0, 7]) ['9', '_', '0', '0', '7'] :=
    .next ⟨9, false⟩ 1 (separated_map_char (plain [0, 0, 7]))
  have htail : SpellsExponent 12 ['E', '+', '1', '2'] :=
    @SpellsExponent.behind 'E' ['+'] 1 (plain [1, 2]) ['1', '2'] (by decide) (by decide)
      (by decide) (by decide) (separated_map_char (plain [1, 2]))
  have hspells := SpellsDecimal.point (by decide) (by decide) hwhole
    (separated_map_char lastPart) htail
  have hvalue : ((valueIn 10 (plain [9, 0, 0, 7]) : ℚ) +
      valueIn 10 lastPart / 10 ^ lastPart.length) * 10 ^ (12 : Int) = ((2 ^ 53 : Nat) : ℚ) := by
    have hwholeValue : valueIn 10 (plain [9, 0, 0, 7]) = 9007 := by decide
    have hpartValue : valueIn 10 lastPart = 1992547409920 := by decide
    have hlength : lastPart.length = 13 := rfl
    rw [hwholeValue, hpartValue, hlength]
    norm_num
  rwa [hvalue] at hspells

theorem spells_lastBased : SpellsBased (2 ^ 53) false lastBased := by
  have hzeros := separated_map_char (plain [0, 0, 0, 0])
  have hwritten : Separated (plain [2, 0, 0, 0, 0, 0, 0, 0, 0, 0, 0, 0, 0, 0])
      ['2', '0', '_', '0', '0', '0', '0', '_', '0', '0', '0', '0', '_', '0', '0', '0', '0'] :=
    .next ⟨2, false⟩ 0 (.next ⟨0, false⟩ 1 (.next ⟨0, false⟩ 0 (.next ⟨0, false⟩ 0
      (.next ⟨0, false⟩ 0 (.next ⟨0, false⟩ 1 (.next ⟨0, false⟩ 0 (.next ⟨0, false⟩ 0
        (.next ⟨0, false⟩ 0 (.next ⟨0, false⟩ 1 hzeros)))))))))
  exact @SpellsBased.intro _ false .hexadecimal 'x' _ _ (by decide) (by decide) (by decide)
    hwritten (by decide)

theorem name_of_spellsDecimal_last :
    SpellsDecimal ((2 ^ 53 : Nat) : ℚ) false lastDecimal ∧ SpellsBased (2 ^ 53) false lastBased ∧
    name (String.ofList lastDecimal) = "9007199254740992" ∧
    name (String.ofList lastBased) = name (String.ofList lastDecimal) := by
  have hdecimal := spells_lastDecimal
  have hbased := spells_lastBased
  rw [← String.toList_ofList (l := lastDecimal)] at hdecimal
  rw [← String.toList_ofList (l := lastBased)] at hbased
  obtain ⟨hname, hother⟩ := name_of_spellsDecimal hdecimal le_rfl
  have hdigits : toString (2 ^ 53) = "9007199254740992" := by decide
  exact ⟨spells_lastDecimal, spells_lastBased, hname.trans hdigits,
    hother false _ (.inr hbased)⟩

end ScriptInventory.Declaration.NumberKey
