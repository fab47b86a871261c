import ScriptInventory.Proofs.Text.Runs
import ScriptInventory.Script.Letter
import ScriptInventory.Text.WhiteSpace

/-!
# Characters of plain names

Letters and digits of the basic Latin block, the underscore and the dollar sign: no
white space, and parts of words.
-/

namespace ScriptInventory

/-- A letter or a digit of the basic Latin block, the underscore or the dollar sign. -/
def IsPlain (c : Char) : Prop :=
  (65 ≤ c.toNat ∧ c.toNat ≤ 90) ∨ (97 ≤ c.toNat ∧ c.toNat ≤ 122) ∨
    (48 ≤ c.toNat ∧ c.toNat ≤ 57) ∨ c.toNat = 95 ∨ c.toNat = 36

theorem toNat_of_isAlpha {c : Char} (h : c.isAlpha) :
    (65 ≤ c.toNat ∧ c.toNat ≤ 90) ∨ (97 ≤ c.toNat ∧ c.toNat ≤ 122) := by
  have hcases : c.isUpper = true ∨ c.isLower = true := Bool.or_eq_true_iff.1 h
  rcases hcases with hupper | hlower
  · have hrange : c.val ≥ 'A'.val ∧ c.val ≤ 'Z'.val := of_decide_eq_true hupper
    exact .inl ⟨UInt32.le_iff_toNat_le.1 hrange.1, UInt32.le_iff_toNat_le.1 hrange.2⟩
  · have hrange : decide (c.val ≥ 'a'.val) = true ∧ decide (c.val ≤ 'z'.val) = true :=
      Bool.and_eq_true_iff.1 hlower
    exact .inr ⟨UInt32.le_iff_toNat_le.1 (of_decide_eq_true hrange.1),
      UInt32.le_iff_toNat_le.1 (of_decide_eq_true hrange.2)⟩

theorem toNat_of_isDigit {c : Char} (h : c.isDigit) : 48 ≤ c.toNat ∧ c.toNat ≤ 57 := by
  have hrange : decide (c.val ≥ '0'.val) = true ∧ decide (c.val ≤ '9'.val) = true :=
    Bool.and_eq_true_iff.1 h
  exact ⟨UInt32.le_iff_toNat_le.1 (of_decide_eq_true hrange.1),
    UInt32.le_iff_toNat_le.1 (of_decide_eq_true hrange.2)⟩

theorem isWhiteSpace_of_isPlain {c : Char} (h : IsPlain c) : Text.isWhiteSpace c = false := by
  rw [IsPlain] at h
  simp only [Text.isWhiteSpace, Bool.or_eq_false_iff, Bool.and_eq_false_iff,
    decide_eq_false_iff_not]
  omega

theorem isPlainBlank_of_isPlain {c : Char} (h : IsPlain c) : Script.isPlainBlank c = false := by
  rw [IsPlain] at h
  have hspace : c ≠ ' ' := by
    rintro rfl
    revert h
    decide
  simp only [Script.isPlainBlank, hspace, decide_false, Bool.false_or, Bool.and_eq_false_iff,
    decide_eq_false_iff_not]
  omega

theorem isWordPart_of_isPlain {c : Char} (h : IsPlain c) : Script.isWordPart c := by
  have hplain := isPlainBlank_of_isPlain h
  rw [IsPlain] at h
  have hblank : Script.isBlank c = false := by
    simp only [Script.isBlank, hplain, Script.isSpaceSeparator, Script.isLineSeparator,
      Bool.or_eq_false_iff, Bool.and_eq_false_iff, decide_eq_false_iff_not, true_and]
    omega
  have hpunctuation : Script.isPunctuation c = false := by
    unfold Script.isPunctuation
    split
    all_goals first
      | exact absurd h (by decide)
      | rfl
  simp only [Script.isWordPart, hblank, hpunctuation, Bool.not_false, Bool.and_true,
    decide_eq_true_eq]
  omega

theorem isBlank_of_isWordPart {c : Char} (h : Script.isWordPart c) : Script.isBlank c = false := by
  simp only [Script.isWordPart, Bool.and_eq_true, Bool.not_eq_true'] at h
  exact h.1.2

end ScriptInventory
