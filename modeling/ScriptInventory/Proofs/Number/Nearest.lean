import Mathlib
import ScriptInventory.Number.Binary

/-!
# Rounding to binary numbers

The nearest binary number is computed from a numerator and a denominator. Main statements:
it depends on their quotient only (`nearest?_congr`), a natural number of at most 53 bits
is its own nearest binary number (`nearest?_eq_of_lt`), and a natural number has none exactly
from halfway between the largest binary number and the next power of two on
(`nearest?_natural_eq_none_iff`).

* `exponentOf_eq`: the exponent by the binary logarithm of the quotient.
* `roundDiv_congr`: rounding depends on the quotient only.
-/

namespace ScriptInventory.Number.Binary

/-! ## Rounding a quotient -/

theorem roundDiv_mul_left {k : Nat} (hk : 0 < k) (num den : Nat) :
    roundDiv (k * num) (k * den) = roundDiv num den := by
  have hlt : k * den < 2 * (k * (num % den)) ↔ den < 2 * (num % den) := by
    rw [Nat.mul_left_comm, Nat.mul_lt_mul_left hk]
  have heq : 2 * (k * (num % den)) = k * den ↔ 2 * (num % den) = den := by
    rw [Nat.mul_left_comm, Nat.mul_right_inj hk.ne']
  simp only [roundDiv, Nat.mul_div_mul_left _ _ hk, Nat.mul_mod_mul_left, hlt, heq]

theorem mul_eq_mul_of_quotient_eq {num den num' den' : Nat} (hden : 0 < den) (hden' : 0 < den')
    (h : (num : ℚ) / den = (num' : ℚ) / den') : num * den' = num' * den := by
  rw [div_eq_div_iff (by positivity) (by positivity)] at h
  exact_mod_cast h

/-- Rounding depends on the quotient only. -/
theorem roundDiv_congr {num den num' den' : Nat} (hden : 0 < den) (hden' : 0 < den')
    (h : (num : ℚ) / den = (num' : ℚ) / den') : roundDiv num den = roundDiv num' den' := by
  have hcross := mul_eq_mul_of_quotient_eq hden hden' h
  calc roundDiv num den
      = roundDiv (den' * num) (den' * den) := (roundDiv_mul_left hden' num den).symm
    _ = roundDiv (den * num') (den * den') := by
        rw [Nat.mul_comm den' num, hcross, Nat.mul_comm num' den, Nat.mul_comm den' den]
    _ = roundDiv num' den' := roundDiv_mul_left hden num' den'

theorem roundDiv_one (num : Nat) : roundDiv num 1 = num := by
  simp [roundDiv, Nat.mod_one]

/-! ## The exponent -/

/-- A fraction in units of a power of two. -/
theorem inUnits_quotient (num den : Nat) (e : Int) :
    ((inUnits num den e).1 : ℚ) / (inUnits num den e).2 = (num : ℚ) / den / 2 ^ e := by
  unfold inUnits
  split
  · next he =>
    obtain ⟨k, rfl⟩ := Int.eq_ofNat_of_zero_le he
    rw [Int.toNat_natCast, zpow_natCast, div_div, Nat.pow_eq]
    push_cast
    rfl
  · next he =>
    obtain ⟨k, hk⟩ : ∃ k : Nat, e = -(k : Int) := ⟨(-e).toNat, by omega⟩
    subst hk
    rw [neg_neg, Int.toNat_natCast, zpow_neg, zpow_natCast, div_inv_eq_mul, div_mul_eq_mul_div,
      Nat.pow_eq]
    push_cast
    rfl

theorem inUnits_snd_pos {den : Nat} (hden : 0 < den) (num : Nat) (e : Int) :
    0 < (inUnits num den e).2 := by
  unfold inUnits
  split
  · exact Nat.mul_pos hden (Nat.pow_pos (by decide))
  · exact hden

theorem inUnits_div_lt_iff {num den : Nat} (hden : 0 < den) (e : Int) (k : Nat) :
    (inUnits num den e).1 / (inUnits num den e).2 < 2 ^ k ↔
      (num : ℚ) / den < (2 : ℚ) ^ (e + k) := by
  have hunits : 0 < (inUnits num den e).2 := inUnits_snd_pos hden num e
  have hunits' : (0 : ℚ) < (inUnits num den e).2 := Nat.cast_pos.2 hunits
  have hscale : (0 : ℚ) < 2 ^ e := by positivity
  rw [Nat.div_lt_iff_lt_mul hunits, ← Nat.cast_lt (α := ℚ), Nat.cast_mul, ← div_lt_iff₀ hunits',
    inUnits_quotient, div_lt_iff₀ hscale, add_comm e, zpow_add₀ two_ne_zero, zpow_natCast]
  push_cast
  rfl

/-- The logarithms of numerator and denominator tell the one of the quotient but for one. -/
theorem log_quotient {num den : Nat} (hnum : 0 < num) (hden : 0 < den) :
    Int.log 2 ((num : ℚ) / den) = num.log2 - den.log2 ∨
      Int.log 2 ((num : ℚ) / den) = num.log2 - den.log2 - 1 := by
  have hpos : (0 : ℚ) < num / den := by positivity
  -- a number lies between the powers of two of its logarithm and of the next one
  have hnumLow : ((2 : ℚ)) ^ (num.log2 : Int) ≤ num := by
    rw [zpow_natCast]
    exact_mod_cast Nat.log2_self_le hnum.ne'
  have hnumHigh : (num : ℚ) < (2 : ℚ) ^ ((num.log2 : Int) + 1) := by
    exact_mod_cast Nat.lt_log2_self (n := num)
  have hdenLow : ((2 : ℚ)) ^ (den.log2 : Int) ≤ den := by
    rw [zpow_natCast]
    exact_mod_cast Nat.log2_self_le hden.ne'
  have hdenHigh : (den : ℚ) < (2 : ℚ) ^ ((den.log2 : Int) + 1) := by
    exact_mod_cast Nat.lt_log2_self (n := den)
  -- hence the quotient lies between two powers that are two apart
  have hlow : ((2 : ℕ) : ℚ) ^ ((num.log2 : Int) - den.log2 - 1) ≤ (num : ℚ) / den := by
    rw [le_div_iff₀ (by positivity)]
    calc ((2 : ℕ) : ℚ) ^ ((num.log2 : Int) - den.log2 - 1) * den
        ≤ 2 ^ ((num.log2 : Int) - den.log2 - 1) * 2 ^ ((den.log2 : Int) + 1) := by
          push_cast
          gcongr
      _ = 2 ^ (num.log2 : Int) := by
          rw [← zpow_add₀ two_ne_zero]
          congr 1
          ring
      _ ≤ num := hnumLow
  have hhigh : (num : ℚ) / den < ((2 : ℕ) : ℚ) ^ ((num.log2 : Int) - den.log2 + 1) := by
    rw [div_lt_iff₀ (by positivity)]
    calc (num : ℚ) < 2 ^ ((num.log2 : Int) + 1) := hnumHigh
      _ = 2 ^ ((num.log2 : Int) - den.log2 + 1) * 2 ^ (den.log2 : Int) := by
          rw [← zpow_add₀ two_ne_zero]
          congr 1
          ring
      _ ≤ ((2 : ℕ) : ℚ) ^ ((num.log2 : Int) - den.log2 + 1) * den := by
          push_cast
          gcongr
  have hle := (Int.zpow_le_iff_le_log (by decide) hpos).1 hlow
  have hlt := (Int.lt_zpow_iff_log_lt (by decide) hpos).1 hhigh
  omega

/-- The exponent leaves 53 bits in front of the point, unless that is too small. -/
theorem exponentOf_eq {num den : Nat} (hnum : 0 < num) (hden : 0 < den) :
    exponentOf num den = max leastExponent (Int.log 2 ((num : ℚ) / den) - 52) := by
  have hpos : (0 : ℚ) < num / den := by positivity
  generalize hguess : (num.log2 : Int) - den.log2 - precision = guess
  have hprecision : (precision : Int) = 53 := rfl
  have htest : (inUnits num den guess).1 / (inUnits num den guess).2 < Nat.pow 2 precision ↔
      Int.log 2 ((num : ℚ) / den) < guess + 53 :=
    (inUnits_div_lt_iff hden guess 53).trans (Int.lt_zpow_iff_log_lt (by decide) hpos)
  have hlog := log_quotient hnum hden
  unfold exponentOf
  rw [hguess]
  dsimp only
  by_cases h : (inUnits num den guess).1 / (inUnits num den guess).2 < Nat.pow 2 precision
  · have hlt := htest.1 h
    rw [if_pos h]
    congr 1
    omega
  · have hle := mt htest.2 h
    rw [if_neg h]
    congr 1
    omega

/-! ## The nearest number -/

/-- The rounded number of units of the exponent. -/
def mantissaOf (num den : Nat) : Nat :=
  roundDiv (inUnits num den (exponentOf num den)).1 (inUnits num den (exponentOf num den)).2

theorem mantissaOf_eq {num den n d : Nat} (hden : 0 < den) (hd : 0 < d)
    (h : (num : ℚ) / den / 2 ^ exponentOf num den = (n : ℚ) / d) :
    mantissaOf num den = roundDiv n d :=
  roundDiv_congr (inUnits_snd_pos hden num _) hd ((inUnits_quotient num den _).trans h)

/-- A mantissa with a bit too many moves into the exponent. -/
def carry (mantissa : Nat) (exponent : Int) : Binary :=
  if mantissa = 2 ^ 53 then ⟨2 ^ 52, exponent + 1⟩ else ⟨mantissa, exponent⟩

theorem nearest?_of_pos {num : Nat} (hnum : 0 < num) (den : Nat) :
    nearest? num den =
      if greatestExponent < (carry (mantissaOf num den) (exponentOf num den)).exponent then none
      else some (carry (mantissaOf num den) (exponentOf num den)) := by
  unfold nearest?
  rw [if_neg hnum.ne']
  rfl

/-- The nearest number depends on the quotient only. -/
theorem nearest?_congr {num den num' den' : Nat} (hden : 0 < den) (hden' : 0 < den')
    (h : (num : ℚ) / den = (num' : ℚ) / den') : nearest? num den = nearest? num' den' := by
  have hcross := mul_eq_mul_of_quotient_eq hden hden' h
  have hzero : num = 0 ↔ num' = 0 := by
    constructor
    · rintro rfl
      simpa [hden.ne'] using hcross.symm
    · rintro rfl
      simpa [hden'.ne'] using hcross
  obtain rfl | hnum := num.eq_zero_or_pos
  · rw [hzero.1 rfl, nearest?, nearest?, if_pos rfl, if_pos rfl]
  · have hnum' : 0 < num' := Nat.pos_of_ne_zero (mt hzero.2 hnum.ne')
    have hexponent : exponentOf num den = exponentOf num' den' := by
      rw [exponentOf_eq hnum hden, exponentOf_eq hnum' hden', h]
    have hmantissa : mantissaOf num den = mantissaOf num' den' := by
      apply mantissaOf_eq hden (inUnits_snd_pos hden' num' _)
      rw [inUnits_quotient, h, hexponent]
    rw [nearest?_of_pos hnum, nearest?_of_pos hnum', hexponent, hmantissa]

/-! ## Natural numbers -/

theorem exponentOf_natural {v : Nat} (hv : 0 < v) : exponentOf v 1 = Nat.log 2 v - 52 := by
  have hleast : leastExponent = -1074 := rfl
  rw [exponentOf_eq hv Nat.one_pos, Nat.cast_one, div_one, Int.log_natCast]
  omega

/-- A natural number of at most 53 bits is its own nearest number. -/
theorem nearest?_eq_of_lt {v : Nat} (hv : 0 < v) (hlt : v < 2 ^ 53) :
    nearest? v 1 = some ⟨v * 2 ^ (52 - Nat.log 2 v), -((52 - Nat.log 2 v : Nat) : Int)⟩ := by
  have hlog : Nat.log 2 v < 53 := Nat.log_lt_of_lt_pow hv.ne' hlt
  have hexponent : exponentOf v 1 = -((52 - Nat.log 2 v : Nat) : Int) := by
    rw [exponentOf_natural hv]
    omega
  have hmantissa : mantissaOf v 1 = v * 2 ^ (52 - Nat.log 2 v) := by
    rw [← roundDiv_one (v * 2 ^ (52 - Nat.log 2 v))]
    apply mantissaOf_eq Nat.one_pos Nat.one_pos
    rw [hexponent, zpow_neg, zpow_natCast, div_inv_eq_mul]
    push_cast
    ring
  have hfits : v * 2 ^ (52 - Nat.log 2 v) < 2 ^ 53 := by
    have hbits : v < 2 ^ (Nat.log 2 v + 1) := Nat.lt_pow_succ_log_self (by decide) v
    calc v * 2 ^ (52 - Nat.log 2 v)
        < 2 ^ (Nat.log 2 v + 1) * 2 ^ (52 - Nat.log 2 v) :=
          Nat.mul_lt_mul_of_pos_right hbits (by positivity)
      _ = 2 ^ 53 := by
          rw [← pow_add]
          congr 1
          omega
  have hgreatest : greatestExponent = 971 := rfl
  rw [nearest?_of_pos hv, hmantissa, hexponent, carry, if_neg hfits.ne, if_neg]
  dsimp only
  omega

/-- Rounding up to an even number happens from halfway on. -/
theorem roundDiv_eq_even_iff {num den m : Nat} (hden : 0 < den) (hlt : num < 2 * m * den) :
    roundDiv num den = 2 * m ↔ 4 * m * den ≤ 2 * num + den := by
  have hsplit : den * (num / den) + num % den = num := Nat.div_add_mod num den
  have hrest : num % den < den := Nat.mod_lt num hden
  have hquotient : num / den < 2 * m := (Nat.div_lt_iff_lt_mul hden).2 hlt
  have hm : den * (2 * m) * 2 = 4 * m * den := by ring
  unfold roundDiv
  dsimp only
  obtain hlast | hbefore : num / den + 1 = 2 * m ∨ num / den + 2 ≤ 2 * m := by omega
  · have hone : den * (num / den) + den = den * (2 * m) := by rw [← hlast, Nat.mul_add_one]
    have hodd : num / den % 2 = 1 := by omega
    simp only [hodd, Bool.or_eq_true, Bool.and_eq_true, decide_eq_true_eq, decide_true,
      and_true]
    split <;> omega
  · have htwo : den * (num / den) + 2 * den ≤ den * (2 * m) := by
      calc den * (num / den) + 2 * den = den * (num / den + 2) := by ring
        _ ≤ den * (2 * m) := Nat.mul_le_mul_left den hbefore
    split <;> omega

/-- The largest binary number is `2 ^ 1024 - 2 ^ 971`: from halfway to `2 ^ 1024` on, a
natural number is too large. -/
theorem nearest?_natural_eq_none_iff {v : Nat} (hv : 0 < v) :
    nearest? v 1 = none ↔ 2 ^ 1024 - 2 ^ 970 ≤ v := by
  have hgreatest : greatestExponent = 971 := rfl
  have hexponent := exponentOf_natural hv
  -- A name for the exponent keeps its powers from being computed.
  obtain ⟨k, hk⟩ : ∃ k : Nat, k = 970 := ⟨970, rfl⟩
  rw [show 1024 = k + 54 by omega, show 970 = k from hk.symm]
  have hpow (j : Nat) : 2 ^ (k + j) = 2 ^ j * 2 ^ k := by rw [pow_add, mul_comm]
  have hlog_lt (j : Nat) : Nat.log 2 v < k + j ↔ v < 2 ^ j * 2 ^ k := by
    rw [← hpow]
    exact Nat.log_lt_iff_lt_pow (by decide) hv.ne'
  have hlow := hlog_lt 53
  have hhigh := hlog_lt 54
  rw [nearest?_of_pos hv, hpow 54]
  obtain hlog | hlog | hlog := Nat.lt_trichotomy (Nat.log 2 v) 1023
  · have hsmall : (carry (mantissaOf v 1) (exponentOf v 1)).exponent ≤ greatestExponent := by
      unfold carry
      split <;> dsimp only <;> omega
    rw [if_neg (not_lt.2 hsmall)]
    simp only [reduceCtorEq, false_iff]
    omega
  · -- Only in the last binade does the mantissa decide.
    have hlast : exponentOf v 1 = ((k + 1 : Nat) : Int) := by omega
    have hmantissa : mantissaOf v 1 = roundDiv v (2 ^ (k + 1)) := by
      apply mantissaOf_eq Nat.one_pos (by positivity)
      rw [hlast, zpow_natCast, Nat.cast_one, div_one]
      push_cast
      rfl
    have hround : mantissaOf v 1 = 2 * 2 ^ 52 ↔
        4 * 2 ^ 52 * (2 ^ 1 * 2 ^ k) ≤ 2 * v + 2 ^ 1 * 2 ^ k := by
      rw [hmantissa, hpow 1]
      apply roundDiv_eq_even_iff (by positivity)
      omega
    unfold carry
    split
    · next h =>
      have := hround.1 h
      rw [if_pos (by dsimp only; omega)]
      simp only [true_iff]
      omega
    · next h =>
      have := mt hround.2 h
      rw [if_neg (by dsimp only; omega)]
      simp only [reduceCtorEq, false_iff]
      omega
  · have hlarge : greatestExponent < (carry (mantissaOf v 1) (exponentOf v 1)).exponent := by
      unfold carry
      split <;> dsimp only <;> omega
    rw [if_pos hlarge]
    simp only [true_iff]
    omega

end ScriptInventory.Number.Binary
