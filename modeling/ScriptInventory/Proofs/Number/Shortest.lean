import Mathlib
import ScriptInventory.Number.Shortest
import ScriptInventory.Proofs.Number.Decimal
import ScriptInventory.Proofs.Number.Nearest

/-!
# The shortest decimal of a natural number

Main statement: a natural number up to `2 ^ 53` that is rounded to the nearest binary number
and written as its shortest decimal gives its own digits (`render_nearest_natural`).

The gaps around such a binary number are at most one wide. So a decimal without places
behind the point reads back only if it is the number itself (`readsBack_scaled`), and the
search over the grids ends at one that holds the number (`shortest_scaled`).
-/

namespace ScriptInventory.Number.Binary

/-- A natural number with the bits behind its point filled up. -/
def scaled (v j : Nat) : Binary := ⟨v * 2 ^ j, -(j : Int)⟩

theorem fraction_scaled (v j : Nat) : (scaled v j).fraction = (v * 2 ^ j, 2 ^ j) := by
  cases j with
  | zero => simp [scaled, fraction]
  | succ j =>
    rw [scaled, fraction]
    dsimp only
    rw [if_neg (by omega), neg_neg, Int.toNat_natCast, Nat.pow_eq]

/-- The ends are within half a unit of the value, which is a whole number of units. -/
theorem interval_scaled (v j : Nat) : ∃ gap, 0 < gap ∧ gap ≤ 2 ∧
    (scaled v j).interval =
      (4 * (v * 2 ^ j) - gap, 4 * (v * 2 ^ j), 4 * (v * 2 ^ j) + 2, 4 * 2 ^ j) := by
  have hunit : (if 0 ≤ (scaled v j).exponent then Nat.pow 2 (scaled v j).exponent.toNat else 1)
      = 1 := by
    have htoNat : (-(j : Int)).toNat = 0 := by omega
    simp [scaled, htoNat]
  rw [interval, fraction_scaled]
  dsimp only
  rw [hunit]
  split
  · exact ⟨1, by omega, by omega, rfl⟩
  · exact ⟨2, by omega, by omega, rfl⟩

/-- On a grid without places behind the point only the number itself reads back. -/
theorem readsBack_scaled {v : Nat} (hv : 0 < v) (j n i : Nat) :
    (scaled v j).readsBack ⟨n, i⟩ = decide (n * 10 ^ i = v) := by
  obtain ⟨gap, hgap, hgap', hinterval⟩ := interval_scaled v j
  have hfraction : Decimal.fraction ⟨n, i⟩ = (n * 10 ^ i, 1) := by
    rw [Decimal.fraction]
    dsimp only
    rw [if_pos (Int.natCast_nonneg i), Int.toNat_natCast, Nat.pow_eq]
  have hpow : 0 < 2 ^ j := Nat.two_pow_pos j
  have hvalue : n * 10 ^ i * (4 * 2 ^ j) = 4 * (n * 10 ^ i * 2 ^ j) := by ring
  rw [readsBack, hinterval, hfraction]
  dsimp only
  rw [hvalue, Nat.mul_one, Nat.mul_one]
  generalize n * 10 ^ i = m
  have hbelow : m < v → m * 2 ^ j + 2 ^ j ≤ v * 2 ^ j := fun h => by
    rw [← Nat.succ_mul]
    exact Nat.mul_le_mul_right _ h
  have habove : v < m → v * 2 ^ j + 2 ^ j ≤ m * 2 ^ j := fun h => by
    rw [← Nat.succ_mul]
    exact Nat.mul_le_mul_right _ h
  have hsame : m = v → m * 2 ^ j = v * 2 ^ j := congrArg (· * 2 ^ j)
  have hpos : 0 < v * 2 ^ j := Nat.mul_pos hv hpow
  rw [Bool.eq_iff_iff, decide_eq_true_iff]
  split
  all_goals
    rw [Bool.and_eq_true, decide_eq_true_iff, decide_eq_true_iff]
    omega

/-- A grid without places behind the point has a decimal that reads back exactly if the
number is on it. -/
theorem onGrid?_scaled {v : Nat} (hv : 0 < v) (j i : Nat) :
    (scaled v j).onGrid? i = if 10 ^ i ∣ v then some ⟨v / 10 ^ i, i⟩ else none := by
  have hpow : 0 < 10 ^ i := Nat.pow_pos (by decide)
  have hneighbours : (scaled v j).neighbours i = (⟨v / 10 ^ i, i⟩, ⟨v / 10 ^ i + 1, i⟩) := by
    rw [neighbours, fraction_scaled]
    dsimp only
    rw [if_pos (Int.natCast_nonneg i), Int.toNat_natCast, Nat.pow_eq, Nat.mul_comm v,
      Nat.mul_div_mul_left _ _ (Nat.two_pow_pos j)]
  have habove : (v / 10 ^ i + 1) * 10 ^ i ≠ v := by
    have hlt := Nat.lt_div_mul_add hpow (a := v)
    rw [Nat.add_one_mul]
    omega
  rw [onGrid?, hneighbours]
  dsimp only
  rw [readsBack_scaled hv, readsBack_scaled hv, decide_eq_false habove]
  by_cases hdvd : 10 ^ i ∣ v
  · rw [decide_eq_true (Nat.div_mul_cancel hdvd), if_pos hdvd]
  · have hbelow : v / 10 ^ i * 10 ^ i ≠ v := fun h => hdvd (Dvd.intro_left _ h)
    rw [decide_eq_false hbelow, if_neg hdvd]

theorem pointAt_scaled {v : Nat} (hv : 0 < v) (j : Nat) :
    pointAt (v * 2 ^ j) (2 ^ j) = (decimalDigits v).length := by
  rw [pointAt, if_pos (Nat.le_mul_of_pos_left _ hv), Nat.mul_div_cancel _ (Nat.two_pow_pos j)]

/-- The search ends at a grid that holds the number, at the latest where the grid is that
of the whole numbers. -/
theorem shortest_scaled {v : Nat} (hv : 0 < v) (j : Nat)
    (hlength : (decimalDigits v).length ≤ 17) :
    ∃ i : Nat, 10 ^ i ∣ v ∧ (scaled v j).shortest = ⟨v / 10 ^ i, i⟩ := by
  generalize hL : (decimalDigits v).length = L at hlength
  have hmantissa : (scaled v j).mantissa ≠ 0 :=
    (Nat.mul_pos hv (Nat.two_pow_pos j)).ne'
  have hsome : ((List.range (L + 1)).findSome? fun n : Nat =>
      (scaled v j).onGrid? ((L : Int) - n)).isSome := by
    rw [List.findSome?_isSome_iff]
    refine ⟨L, List.mem_range.2 (Nat.lt_succ_self L), ?_⟩
    have hgrid : (L : Int) - L = (0 : Nat) := by omega
    rw [hgrid, onGrid?_scaled hv, pow_zero, if_pos (one_dvd v)]
    rfl
  obtain ⟨d, hd⟩ := Option.isSome_iff_exists.1 hsome
  have hshortest : (scaled v j).shortest = d := by
    have hrange : List.range 18 =
        List.range (L + 1) ++ (List.range (17 - L)).map (L + 1 + ·) := by
      rw [← List.range_add]
      congr 1
      omega
    rw [shortest, if_neg hmantissa, fraction_scaled]
    dsimp only
    rw [pointAt_scaled hv, hL, hrange, List.findSome?_append, hd]
    rfl
  obtain ⟨n, hn, hgrid⟩ := List.exists_of_findSome?_eq_some hd
  have hexponent : (L : Int) - n = ((L - n : Nat) : Int) := by
    have := List.mem_range.1 hn
    omega
  rw [hexponent, onGrid?_scaled hv] at hgrid
  refine ⟨L - n, ?_⟩
  split at hgrid
  · next hdvd => exact ⟨hdvd, hshortest.trans (Option.some.inj hgrid).symm⟩
  · cases hgrid

/-- A natural number up to `2 ^ 53` is written in its own digits. -/
theorem render_nearest_natural {v : Nat} (hv : 0 < v) (hle : v ≤ 2 ^ 53) :
    (nearest? v 1).map (fun b => b.shortest.render) = some (decimalDigits v) := by
  obtain heq | hlt := hle.eq_or_lt
  · -- The only one of these numbers with a gap two wide above it.
    subst heq
    decide +kernel
  · have hlength : (decimalDigits v).length ≤ 17 :=
      (Nat.length_toDigits_le_iff (by decide) (by decide)).2 (hlt.trans (by decide))
    obtain ⟨i, hdvd, hshortest⟩ := shortest_scaled hv (52 - Nat.log 2 v) hlength
    have hquotient : 0 < v / 10 ^ i :=
      Nat.div_pos (Nat.le_of_dvd hv hdvd) (Nat.pow_pos (by decide))
    have hscaled : nearest? v 1 = some (scaled v (52 - Nat.log 2 v)) := nearest?_eq_of_lt hv hlt
    rw [hscaled, Option.map_some, hshortest, Decimal.render_natural hquotient,
      Nat.div_mul_cancel hdvd]

end ScriptInventory.Number.Binary
