import Mathlib
import ScriptInventory.Number.Decimal

/-!
# The value of a decimal

A decimal number as a rational one. Main statements: `fraction` gives the value as a
quotient (`fraction_quotient`), the number of digits in front of the point is one more than
the decimal logarithm of the value (`length_add_exponent`), and a whole number is written
in its usual digits, however many of them are in the exponent (`render_natural`).
-/

namespace ScriptInventory.Number

/-! ## Digits of natural numbers -/

theorem decimalDigits_mul_ten {n : Nat} (hn : 0 < n) :
    decimalDigits (n * 10) = decimalDigits n ++ ['0'] := by
  have happend := Nat.toDigits_append_toDigits (b := 10) (d := 0) (by decide) hn (by decide)
  rw [Nat.add_zero, Nat.mul_comm] at happend
  exact happend.symm

theorem decimalDigits_mul_pow {n : Nat} (hn : 0 < n) (k : Nat) :
    decimalDigits (n * 10 ^ k) = decimalDigits n ++ List.replicate k '0' := by
  induction k with
  | zero => rw [pow_zero, Nat.mul_one, List.replicate_zero, List.append_nil]
  | succ k ih =>
    rw [pow_succ, ← Nat.mul_assoc, decimalDigits_mul_ten (by positivity), ih,
      List.append_assoc, ← List.replicate_succ']

theorem length_decimalDigits {n : Nat} (hn : 0 < n) :
    (decimalDigits n).length = Nat.log 10 n + 1 := by
  have hle : (decimalDigits n).length ≤ Nat.log 10 n + 1 :=
    (Nat.length_toDigits_le_iff (by decide) (by omega)).2
      (Nat.lt_pow_succ_log_self (by decide) n)
  have hpos : 0 < (decimalDigits n).length := Nat.length_toDigits_pos
  have hlt : n < 10 ^ (decimalDigits n).length :=
    (Nat.length_toDigits_le_iff (by decide) hpos).1 le_rfl
  have hlog := Nat.log_lt_of_lt_pow hn.ne' hlt
  omega

theorem pow_le_of_lt_length {n k : Nat} (hk : 0 < k) (h : k < (decimalDigits n).length) :
    10 ^ k ≤ n :=
  not_lt.1 (mt (Nat.length_toDigits_le_iff (by decide) hk).2 (not_le.2 h))

namespace Decimal

/-! ## The value -/

def value (d : Decimal) : ℚ := d.digits * 10 ^ d.exponent

theorem fraction_snd_pos (d : Decimal) : 0 < d.fraction.2 := by
  unfold fraction
  split
  · exact Nat.one_pos
  · exact Nat.pow_pos (by decide)

theorem fraction_quotient (d : Decimal) : (d.fraction.1 : ℚ) / d.fraction.2 = d.value := by
  unfold fraction value
  split
  · next he =>
    obtain ⟨k, hk⟩ := Int.eq_ofNat_of_zero_le he
    rw [hk, Int.toNat_natCast, zpow_natCast, Nat.pow_eq, Nat.cast_one, div_one]
    push_cast
    rfl
  · next he =>
    obtain ⟨k, hk⟩ : ∃ k : Nat, d.exponent = -(k : Int) := ⟨(-d.exponent).toNat, by omega⟩
    rw [hk, neg_neg, Int.toNat_natCast, zpow_neg, zpow_natCast, Nat.pow_eq, div_eq_mul_inv]
    push_cast
    rfl

theorem value_eq_zero_iff (d : Decimal) : d.value = 0 ↔ d.digits = 0 := by
  have hpow : (10 : ℚ) ^ d.exponent ≠ 0 := by positivity
  rw [value, mul_eq_zero, or_iff_left hpow, Nat.cast_eq_zero]

/-- The number of digits in front of the point; negative if zeros follow it. -/
theorem length_add_exponent {d : Decimal} (hd : d.digits ≠ 0) :
    ((decimalDigits d.digits).length : Int) + d.exponent = Int.log 10 d.value + 1 := by
  have hdigits : 0 < d.digits := Nat.pos_of_ne_zero hd
  have hpow : (0 : ℚ) < 10 ^ d.exponent := by positivity
  have hvalue : 0 < d.value := mul_pos (Nat.cast_pos.2 hdigits) hpow
  have hlow : ((10 : ℕ) : ℚ) ^ ((Nat.log 10 d.digits : Int) + d.exponent) ≤ d.value := by
    rw [value, zpow_add₀ (by norm_num), zpow_natCast, Nat.cast_ofNat]
    gcongr
    exact_mod_cast Nat.pow_log_le_self 10 hd
  have hhigh : d.value < ((10 : ℕ) : ℚ) ^ ((Nat.log 10 d.digits : Int) + 1 + d.exponent) := by
    rw [value, zpow_add₀ (by norm_num), Nat.cast_ofNat]
    gcongr
    exact_mod_cast Nat.lt_pow_succ_log_self (by decide : 1 < 10) d.digits
  have hle := (Int.zpow_le_iff_le_log (by decide) hvalue).1 hlow
  have hlt := (Int.lt_zpow_iff_log_lt (by decide) hvalue).1 hhigh
  rw [length_decimalDigits hdigits]
  push_cast
  omega

/-! ## Whole numbers -/

theorem value_natural (v : Nat) : value ⟨v, 0⟩ = v := by
  rw [value, zpow_zero, mul_one]

theorem render_natural {n : Nat} (hn : 0 < n) (k : Nat) :
    render ⟨n, k⟩ = decimalDigits (n * 10 ^ k) := by
  rw [decimalDigits_mul_pow hn, render]
  dsimp only
  rw [if_pos (Int.natCast_nonneg k), if_neg hn.ne', Int.toNat_natCast]

end Decimal

end ScriptInventory.Number
