import Mathlib
import ScriptInventory.Proofs.Corpus
import ScriptInventory.Proofs.Key.DecimalKey

/-!
# Numeric keys of one value

Two literals of one natural number name one key as long as the number is within reach: up to
`2 ^ 53` whatever their forms, and otherwise up to the limit of the form that both have. From
the limit of its form on a literal is its own name. Main statement:
`name_eq_of_spells`; where two literals name one key, a class that has both members records
one name (`collect_of_mem`).
-/

namespace ScriptInventory

namespace Inventory

theorem record_of_mem {i : Inventory} {k : SymbolKind} {name : String}
    (h : name ∈ (i.names k).toList) : i.record k name = i := by
  have hinsert := OrderedNames.insert_of_mem h
  cases k
  all_goals
    rw [record, modify]
    rw [names] at hinsert
    rw [hinsert]

/-- Recording names that are there changes nothing. -/
theorem recordAll_of_mem {i : Inventory} {k : SymbolKind} {names : List String}
    (h : ∀ name ∈ names, name ∈ (i.names k).toList) : i.recordAll k names = i := by
  rw [recordAll]
  induction names with
  | nil => rfl
  | cons name rest ih =>
    rw [List.foldl_cons, record_of_mem (h name List.mem_cons_self)]
    exact ih fun other hother => h other (List.mem_cons_of_mem _ hother)

end Inventory

namespace Declaration

open Script

theorem collect_of_mem {shape : Shape} {n : Node} {i : Inventory}
    (h : ∀ name ∈ names shape n, name ∈ (i.names shape.kind).toList) : collect shape n i = i :=
  Inventory.recordAll_of_mem h

/-- A class member with a numeric literal as its key. -/
inductive HasNumberKey : Shape → Node → String → Prop
  | method {n key : Node} {literal : String} : n.child? .name = some key →
      key.kind = .number → key.text = literal → HasNumberKey .method n literal
  | property {n key : Node} {literal : String} : n.child? .property = some key →
      key.kind = .number → key.text = literal → HasNumberKey .property n literal

theorem HasNumberKey.names_eq {shape : Shape} {n : Node} {literal : String}
    (h : HasNumberKey shape n literal) : names shape n = nonempty (NumberKey.name literal) := by
  cases h with
  | method hkey hkind htext => simp only [names, memberName, hkey, keyName, hkind, htext]
  | property hkey hkind htext => simp only [names, memberName, hkey, keyName, hkind, htext]

namespace NumberKey

open Number (decimalDigits)
open StringKey (HexDigit)

/-- The forms of an integer literal: with the mark of a base, or decimal. -/
inductive IntegerForm where
  | based
  | decimal
deriving DecidableEq, Repr

/-- The literals of a form that stand for a natural number, with or without the mark of an
exact integer. -/
def IntegerForm.Spells : IntegerForm → Nat → Bool → String → Prop
  | .based, v, isExact, literal => SpellsBased v isExact literal.toList
  | .decimal, v, isExact, literal => SpellsDecimal v isExact literal.toList

/-- The least number that no literal of a form names by its value. -/
def IntegerForm.limit : IntegerForm → Nat
  | .based => 2 ^ 128
  | .decimal => 2 ^ 1024 - 2 ^ 970

/-- What the literals of a number in a form are named: it depends on the number only. -/
def IntegerForm.nameOf? : IntegerForm → Nat → Option (List Char)
  | .based, v => if v < 2 ^ 128 then some (decimalDigits v) else none
  | .decimal, v => NumberKey.nameOf? ⟨v, 0⟩

theorem IntegerForm.Spells.name?_eq {form : IntegerForm} {v : Nat} {isExact : Bool}
    {literal : String} (h : form.Spells v isExact literal) :
    name? literal.toList = form.nameOf? v := by
  cases form with
  | based => exact SpellsBased.name?_eq h
  | decimal => exact SpellsDecimal.name?_natural h

theorem IntegerForm.nameOf?_eq_none_iff (form : IntegerForm) (v : Nat) :
    form.nameOf? v = none ↔ form.limit ≤ v := by
  cases form with
  | based => simp [nameOf?, limit]
  | decimal => exact nameOf?_natural_eq_none_iff v

/-- Up to `2 ^ 53` the form makes no difference. -/
theorem IntegerForm.nameOf?_of_le (form : IntegerForm) {v : Nat} (hv : v ≤ 2 ^ 53) :
    form.nameOf? v = some (decimalDigits v) := by
  cases form with
  | based => exact if_pos (hv.trans_lt (by decide))
  | decimal => exact nameOf?_natural hv

/-- Two literals of a number, both or none of them with the mark of an exact integer, name one
key if the number is at most `2 ^ 53`, or if they have the same form and the number is below
its limit: then a class records the second of them once the first is there as nothing new.
From the limit of its form on a literal names itself. -/
theorem name_eq_of_spells {form form' : IntegerForm} {v : Nat} {isExact : Bool}
    {a b : String} (ha : form.Spells v isExact a) (hb : form'.Spells v isExact b) :
    (v ≤ 2 ^ 53 ∨ form = form' ∧ v < form.limit →
      name a = name b ∧
      ∀ (shape : Shape) (n n' : Node) (i : Inventory), HasNumberKey shape n a →
        HasNumberKey shape n' b →
        (∀ x ∈ names shape n, x ∈ (i.names shape.kind).toList) → collect shape n' i = i) ∧
    (form.limit ≤ v → name a = a) := by
  constructor
  · intro hreach
    have hname : name a = name b := by
      have hsome : ∃ text, name? a.toList = some text ∧ name? b.toList = some text := by
        rw [ha.name?_eq, hb.name?_eq]
        obtain hsmall | ⟨rfl, hlimit⟩ := hreach
        · exact ⟨_, form.nameOf?_of_le hsmall, form'.nameOf?_of_le hsmall⟩
        · have hne := mt (form.nameOf?_eq_none_iff v).1 (not_le.2 hlimit)
          obtain ⟨text, htext⟩ := Option.ne_none_iff_exists'.1 hne
          exact ⟨text, htext, htext⟩
      obtain ⟨text, hatext, hbtext⟩ := hsome
      rw [name, name, hatext, hbtext]
      rfl
    refine ⟨hname, fun shape n n' i hn hn' hmem => collect_of_mem ?_⟩
    rwa [hn'.names_eq, ← hname, ← hn.names_eq]
  · intro hlimit
    exact name_of_name?_eq_none (ha.name?_eq.trans ((form.nameOf?_eq_none_iff v).2 hlimit))

/-- The class member `0x20_0000_0000_0000() {}`. -/
def basedMember : Node :=
  .branch .methodDefinition ⟨1, 11⟩
    [(Node.leaf .number ⟨1, 11⟩ (String.ofList lastBased)).withRole .name]

/-- The class member `9_007.1992547409920E+12() {}`. -/
def decimalMember : Node :=
  .branch .methodDefinition ⟨1, 37⟩
    [(Node.leaf .number ⟨1, 37⟩ (String.ofList lastDecimal)).withRole .name]

theorem name_eq_of_spells_last :
    IntegerForm.based.Spells (2 ^ 53) false (String.ofList lastBased) ∧
    IntegerForm.decimal.Spells (2 ^ 53) false (String.ofList lastDecimal) ∧
    name (String.ofList lastBased) = name (String.ofList lastDecimal) ∧
    (let once := collect .method basedMember (.empty .inline)
     collect .method decimalMember once = once) := by
  have hbased : IntegerForm.based.Spells (2 ^ 53) false (String.ofList lastBased) := by
    rw [IntegerForm.Spells, String.toList_ofList]
    exact spells_lastBased
  have hdecimal : IntegerForm.decimal.Spells (2 ^ 53) false (String.ofList lastDecimal) := by
    rw [IntegerForm.Spells, String.toList_ofList]
    exact spells_lastDecimal
  obtain ⟨hname, hrecord⟩ := (name_eq_of_spells hbased hdecimal).1 (.inl le_rfl)
  refine ⟨hbased, hdecimal, hname, ?_⟩
  apply hrecord .method basedMember decimalMember _ (.method rfl rfl rfl)
    (.method rfl rfl rfl)
  intro x hx
  rw [collect, Inventory.toList_recordAll, if_pos rfl, mem_firstOccurrences]
  exact List.mem_append_right _ hx

/-- `0x10…0`, the same number as `leastTooLarge`. -/
def plainTooLarge : String :=
  String.ofList ('0' :: 'x' :: (plain (1 :: List.replicate 32 0)).map HexDigit.char)

/-- `0x20000000000001n`, the least number that two forms name apart. -/
def leastApartBased : String :=
  String.ofList ('0' :: 'x' :: ((plain [2, 0, 0, 0, 0, 0, 0, 0, 0, 0, 0, 0, 0, 1]).map
    HexDigit.char ++ ['n']))

/-- `9007199254740993n`, the same number in decimal. -/
def leastApartDecimal : String :=
  String.ofList ((plain [9, 0, 0, 7, 1, 9, 9, 2, 5, 4, 7, 4, 0, 9, 9, 3]).map
    HexDigit.char ++ ['n'])

theorem spells_plainTooLarge : SpellsBased (2 ^ 128) false plainTooLarge.toList := by
  have hvalue : valueIn 16 (plain (1 :: List.replicate 32 0)) = 2 ^ 128 := by decide
  have hspells := @SpellsBased.intro _ false .hexadecimal 'x' _ _ (by decide)
    (List.cons_ne_nil _ _) (by decide) (separated_map_char _) hvalue
  rw [plainTooLarge, String.toList_ofList]
  rwa [suffix, if_neg Bool.false_ne_true, List.append_nil] at hspells

theorem spells_leastApartBased : SpellsBased (2 ^ 53 + 1) true leastApartBased.toList := by
  have hvalue : valueIn 16 (plain [2, 0, 0, 0, 0, 0, 0, 0, 0, 0, 0, 0, 0, 1]) = 2 ^ 53 + 1 := by
    decide
  rw [leastApartBased, String.toList_ofList]
  exact @SpellsBased.intro _ true .hexadecimal 'x' _ _ (by decide) (by decide) (by decide)
    (separated_map_char _) hvalue

theorem spells_leastApartDecimal :
    SpellsDecimal ((2 ^ 53 + 1 : Nat) : ℚ) true leastApartDecimal.toList := by
  have hvalue : valueIn 10 (plain [9, 0, 0, 7, 1, 9, 9, 2, 5, 4, 7, 4, 0, 9, 9, 3]) =
      2 ^ 53 + 1 := by
    decide
  rw [leastApartDecimal, String.toList_ofList, ← hvalue]
  exact SpellsDecimal.exact (by decide) (by decide) (separated_map_char _)

/-- Not all literals of a number name one key: from `2 ^ 128` on those in base sixteen name
themselves, and right above `2 ^ 53` a decimal literal is rounded where one in base sixteen is
not. -/
theorem names_apart_beyond_limits :
    (IntegerForm.based.Spells (2 ^ 128) false leastTooLarge ∧
      IntegerForm.based.Spells (2 ^ 128) false plainTooLarge ∧
      name leastTooLarge ≠ name plainTooLarge) ∧
    (IntegerForm.based.Spells (2 ^ 53 + 1) true leastApartBased ∧
      IntegerForm.decimal.Spells (2 ^ 53 + 1) true leastApartDecimal ∧
      name leastApartBased ≠ name leastApartDecimal) := by
  have hself : name leastTooLarge = leastTooLarge :=
    name_of_name?_eq_none (spells_leastTooLarge.name?_eq.trans (if_neg (by decide)))
  have hself' : name plainTooLarge = plainTooLarge :=
    name_of_name?_eq_none (spells_plainTooLarge.name?_eq.trans (if_neg (by decide)))
  have hbased : name leastApartBased = toString (2 ^ 53 + 1) :=
    name_of_name?_eq (spells_leastApartBased.name?_eq.trans (if_pos (by decide)))
  have hrounded : nameOf? ⟨2 ^ 53 + 1, 0⟩ = some (decimalDigits (2 ^ 53)) := by decide +kernel
  have hdecimal : name leastApartDecimal = toString (2 ^ 53) :=
    name_of_name?_eq (spells_leastApartDecimal.name?_natural.trans hrounded)
  refine ⟨⟨spells_leastTooLarge, spells_plainTooLarge, ?_⟩, spells_leastApartBased,
    spells_leastApartDecimal, ?_⟩
  · rw [hself, hself']
    decide
  · rw [hbased, hdecimal]
    decide

end NumberKey

end Declaration

end ScriptInventory
