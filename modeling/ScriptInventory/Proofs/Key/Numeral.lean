import Mathlib
import ScriptInventory.Declaration.NumberKey
import ScriptInventory.Proofs.Key.Spelling

/-!
# Numeric keys with a base

A natural number can be written in base two, eight or sixteen in many ways: its mark and
its digits have either case, zeros may lead, separators may stand between digits, and the
mark of an exact integer may follow. `SpellsBased` lists the ways, apart from any reader.
Main statement: below `2 ^ 128` each of them names the number in decimal, and from there on
each is its own name (`name_of_spellsBased`).

* `Separated.filter_eq`: without its separators a numeral is its digits.
* `clean_eq`: what is left of a literal to be read.
* `basedValue?_map_char`: digits in a base are read as their number.
-/

namespace ScriptInventory.Declaration.NumberKey

open Number
open StringKey (HexDigit hexDigit?)

/-! ## Digits and separators -/

/-- The number that digits stand for in a base. -/
def valueIn (base : Nat) (digits : List HexDigit) : Nat :=
  digits.foldl (fun n d => base * n + d.value) 0

def InBase (base : Nat) (digits : List HexDigit) : Prop := ∀ d ∈ digits, d.value.val < base

instance (base : Nat) (digits : List HexDigit) : Decidable (InBase base digits) :=
  inferInstanceAs (Decidable (∀ d ∈ digits, d.value.val < base))

/-- The ways to write digits with separators between them. -/
inductive Separated : List HexDigit → List Char → Prop
  | nil : Separated [] []
  | last (d : HexDigit) : Separated [d] [d.char]
  | next (d : HexDigit) (n : Nat) {e : HexDigit} {digits : List HexDigit}
      {written : List Char} : Separated (e :: digits) written →
      Separated (d :: e :: digits) (d.char :: (List.replicate n '_' ++ written))

/-- Digits without separators. -/
theorem separated_map_char (digits : List HexDigit) :
    Separated digits (digits.map HexDigit.char) := by
  induction digits with
  | nil => exact .nil
  | cons d digits ih =>
    cases digits with
    | nil => exact .last d
    | cons e digits => exact .next d 0 ih

theorem filter_cons_char (d : HexDigit) (rest : List Char) :
    (d.char :: rest).filter (· ≠ '_') = d.char :: rest.filter (· ≠ '_') :=
  List.filter_cons_of_pos (by simpa using d.char_ne (by decide))

/-- Without its separators a numeral is its digits. -/
theorem Separated.filter_eq {digits : List HexDigit} {written : List Char}
    (h : Separated digits written) : written.filter (· ≠ '_') = digits.map HexDigit.char := by
  induction h with
  | nil => rfl
  | last d => exact filter_cons_char d []
  | next d n _ ih =>
    have hseparators : (List.replicate n '_').filter (· ≠ '_') = [] := by simp
    rw [filter_cons_char, List.filter_append, hseparators, List.nil_append, ih]
    rfl

/-- The mark of an exact integer, if there is one. -/
def suffix (isExact : Bool) : List Char := if isExact then ['n'] else []

/-- What is left of a literal: neither its separators nor the mark of an exact integer. -/
theorem clean_eq {body : List Char} (isExact : Bool) (h : 'n' ∉ body.filter (· ≠ '_')) :
    clean (body ++ suffix isExact) = body.filter (· ≠ '_') := by
  have hsuffix : (suffix isExact).filter (· ≠ '_') = suffix isExact := by
    cases isExact <;> rfl
  rw [clean, List.filter_append, hsuffix]
  cases isExact with
  | true =>
    have hlast : (body.filter (· ≠ '_') ++ suffix true).getLast? = some 'n' :=
      List.getLast?_concat
    rw [hlast, if_pos rfl]
    exact List.dropLast_concat
  | false =>
    have hlast : (body.filter (· ≠ '_')).getLast? ≠ some 'n' := fun heq =>
      h (List.mem_of_getLast? heq)
    rw [suffix, if_neg Bool.false_ne_true, List.append_nil, if_neg hlast]

/-! ## Digits in a base -/

theorem digitValue?_char {base : Nat} {d : HexDigit} (hd : d.value.val < base) :
    digitValue? base d.char = some d.value.val := by
  have heq : digitValue? base d.char = (hexDigit? d.char).filter (· < base) := rfl
  rw [heq, StringKey.hexDigit?_char]
  exact Option.filter_some_pos (by simpa using hd)

theorem basedValue?_map_char {base : Nat} {digits : List HexDigit} (hne : digits ≠ [])
    (hbase : InBase base digits) :
    basedValue? base (digits.map HexDigit.char) = some (valueIn base digits) := by
  have hfold : ∀ n, (digits.map HexDigit.char).foldlM
      (fun n c => (digitValue? base c).map (base * n + ·)) n =
        some (digits.foldl (fun n d => base * n + d.value.val) n) := by
    clear hne
    induction digits with
    | nil => exact fun n => rfl
    | cons d digits ih =>
      intro n
      rw [List.map_cons, List.foldlM_cons, digitValue?_char (hbase d List.mem_cons_self),
        List.foldl_cons]
      exact ih (fun d hd => hbase d (List.mem_cons_of_mem _ hd)) _
  rw [basedValue?, if_neg (by simpa using hne), hfold, valueIn]

theorem basedName?_map_char {base : Nat} {digits : List HexDigit} (hne : digits ≠ [])
    (hbase : InBase base digits) :
    basedName? base (digits.map HexDigit.char) =
      if valueIn base digits < 2 ^ 128 then some (decimalDigits (valueIn base digits))
      else none := by
  rw [basedName?, basedValue?_map_char hne hbase]
  by_cases hlt : valueIn base digits < 2 ^ 128
  · rw [if_pos hlt, Option.filter_some_pos (by simpa using hlt), Option.map_some]
  · rw [if_neg hlt, Option.filter_some_neg (by simpa using hlt), Option.map_none]

/-! ## Spellings -/

/-- The bases that have a mark. -/
inductive Base where
  | binary
  | octal
  | hexadecimal
deriving DecidableEq, Repr

def Base.size : Base → Nat
  | .binary => 2
  | .octal => 8
  | .hexadecimal => 16

def Base.marks : Base → List Char
  | .binary => ['b', 'B']
  | .octal => ['o', 'O']
  | .hexadecimal => ['x', 'X']

/-- The ways to write a natural number in a base that is marked. -/
inductive SpellsBased (v : Nat) (isExact : Bool) : List Char → Prop
  | intro {base : Base} {mark : Char} {digits : List HexDigit} {written : List Char} :
      mark ∈ base.marks → digits ≠ [] → InBase base.size digits → Separated digits written →
      valueIn base.size digits = v →
      SpellsBased v isExact ('0' :: mark :: (written ++ suffix isExact))

theorem name?_of_clean {literal digits : List Char} {base : Base} {mark : Char}
    (hmark : mark ∈ base.marks) (h : clean literal = '0' :: mark :: digits) :
    name? literal = basedName? base.size digits := by
  rw [name?, h]
  cases base
  all_goals
    simp only [Base.marks, List.mem_cons, List.not_mem_nil, or_false] at hmark
    rcases hmark with rfl | rfl <;> rfl

/-- A literal in a base is named by its value, unless that is too large. -/
theorem SpellsBased.name?_eq {v : Nat} {isExact : Bool} {literal : List Char}
    (h : SpellsBased v isExact literal) :
    name? literal = if v < 2 ^ 128 then some (decimalDigits v) else none := by
  obtain @⟨base, mark, digits, written, hmark, hne, hbase, hwritten, rfl⟩ := h
  have hmark' : mark ≠ '_' ∧ mark ≠ 'n' := by
    cases base
    all_goals
      simp only [Base.marks, List.mem_cons, List.not_mem_nil, or_false] at hmark
      rcases hmark with rfl | rfl <;> decide
  have hfilter : ('0' :: mark :: written).filter (· ≠ '_') =
      '0' :: mark :: digits.map HexDigit.char := by
    rw [List.filter_cons_of_pos (by decide), List.filter_cons_of_pos (by simpa using hmark'.1),
      hwritten.filter_eq]
  have hsuffix : 'n' ∉ '0' :: mark :: digits.map HexDigit.char := by
    simp only [List.mem_cons, List.mem_map, not_or, not_exists, not_and]
    exact ⟨by decide, hmark'.2.symm, fun d _ => d.char_ne (by decide)⟩
  have hclean : clean ('0' :: mark :: (written ++ suffix isExact)) =
      '0' :: mark :: digits.map HexDigit.char :=
    (clean_eq isExact (hfilter ▸ hsuffix)).trans hfilter
  rw [name?_of_clean hmark hclean, basedName?_map_char hne hbase]

theorem name_of_name?_eq {literal : String} {v : Nat}
    (h : name? literal.toList = some (decimalDigits v)) : name literal = toString v := by
  rw [name, h, Nat.toString_eq_ofList_toDigits]
  rfl

theorem name_of_name?_eq_none {literal : String} (h : name? literal.toList = none) :
    name literal = literal := by
  rw [name, h]
  rfl

/-- A natural number in base two, eight or sixteen names its decimal digits below `2 ^ 128`,
and the literal as it is written from there on. -/
theorem name_of_spellsBased {v : Nat} {isExact : Bool} {literal : String}
    (h : SpellsBased v isExact literal.toList) :
    name literal = if v < 2 ^ 128 then toString v else literal := by
  have hname := h.name?_eq
  by_cases hlt : v < 2 ^ 128
  · rw [if_pos hlt] at hname ⊢
    exact name_of_name?_eq hname
  · rw [if_neg hlt] at hname ⊢
    exact name_of_name?_eq_none hname

def plain (digits : List Nat) : List HexDigit := digits.map (⟨Fin.ofNat 16 ·, false⟩)

def repeated (n : Nat) (d : HexDigit) : List HexDigit := List.replicate n d

/-- The largest number below the limit, `0Xf_FF…Fn` with a separator and both cases. -/
def greatestBased : String :=
  String.ofList ('0' :: 'X' :: ('f' :: '_' :: (repeated 31 ⟨15, true⟩).map HexDigit.char ++ ['n']))

/-- The limit itself, `0x01_00…0` with a zero in front. -/
def leastTooLarge : String :=
  String.ofList ('0' :: 'x' :: ('0' :: '1' :: '_' :: (repeated 32 ⟨0, false⟩).map HexDigit.char))

theorem spells_greatestBased : SpellsBased (2 ^ 128 - 1) true greatestBased.toList := by
  have hrest := separated_map_char (repeated 31 ⟨15, true⟩)
  have hwritten : Separated (⟨15, false⟩ :: repeated 31 ⟨15, true⟩)
      ('f' :: '_' :: (repeated 31 ⟨15, true⟩).map HexDigit.char) := .next ⟨15, false⟩ 1 hrest
  have hvalue : valueIn 16 (⟨15, false⟩ :: repeated 31 ⟨15, true⟩) = 2 ^ 128 - 1 := by
    decide
  rw [greatestBased, String.toList_ofList]
  exact @SpellsBased.intro _ true .hexadecimal 'X' _ _ (by decide) (List.cons_ne_nil _ _)
    (by decide) hwritten hvalue

theorem spells_leastTooLarge : SpellsBased (2 ^ 128) false leastTooLarge.toList := by
  have hrest := separated_map_char (repeated 32 ⟨0, false⟩)
  have hwritten : Separated (⟨0, false⟩ :: ⟨1, false⟩ :: repeated 32 ⟨0, false⟩)
      ('0' :: '1' :: '_' :: (repeated 32 ⟨0, false⟩).map HexDigit.char) :=
    .next ⟨0, false⟩ 0 (.next ⟨1, false⟩ 1 hrest)
  have hvalue : valueIn 16 (⟨0, false⟩ :: ⟨1, false⟩ :: repeated 32 ⟨0, false⟩) = 2 ^ 128 := by
    decide
  have hspells := @SpellsBased.intro _ false .hexadecimal 'x' _ _ (by decide)
    (List.cons_ne_nil _ _) (by decide) hwritten hvalue
  rw [leastTooLarge, String.toList_ofList]
  rwa [suffix, if_neg Bool.false_ne_true, List.append_nil] at hspells

theorem name_of_spellsBased_limit :
    SpellsBased (2 ^ 128 - 1) true greatestBased.toList ∧
    name greatestBased = "340282366920938463463374607431768211455" ∧
    SpellsBased (2 ^ 128) false leastTooLarge.toList ∧ name leastTooLarge = leastTooLarge := by
  have hdigits : toString (2 ^ 128 - 1) = "340282366920938463463374607431768211455" := by
    decide
  refine ⟨spells_greatestBased, ?_, spells_leastTooLarge, ?_⟩
  · rw [name_of_spellsBased spells_greatestBased, if_pos (by decide), hdigits]
  · rw [name_of_spellsBased spells_leastTooLarge, if_neg (by decide)]

end ScriptInventory.Declaration.NumberKey
