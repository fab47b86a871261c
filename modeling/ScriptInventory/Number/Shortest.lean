import ScriptInventory.Number.Binary
import ScriptInventory.Number.Decimal

/-!
# The shortest decimal

The decimal with the fewest digits that is nearer to a binary number than to any
other one. For each number of digits only the two neighbours of the value on that
decimal grid need to be tried, because if any point of the grid is near enough, one
of those is.
-/

namespace ScriptInventory.Number

namespace Binary

/-- The fractions, over one denominator, between which a decimal reads back as `b`:
the lower end, the value itself, the upper end and the denominator. -/
def interval (b : Binary) : Nat × Nat × Nat × Nat :=
  let (num, den) := b.fraction
  -- The gap below is half as wide where the numbers below have a smaller exponent.
  let unit := if 0 ≤ b.exponent then Nat.pow 2 b.exponent.toNat else 1
  let narrow := b.mantissa = Nat.pow 2 (precision - 1) && leastExponent < b.exponent
  (4 * num - (if narrow then unit else 2 * unit), 4 * num, 4 * num + 2 * unit, 4 * den)

/-- Whether the decimal `digits * 10 ^ exponent` reads back as `b`. -/
def readsBack (b : Binary) (d : Decimal) : Bool :=
  let (low, _, high, den) := b.interval
  let (n, m) := d.fraction
  let value := n * den
  if b.mantissa % 2 = 0 then low * m ≤ value && value ≤ high * m
  else low * m < value && value < high * m

/-- The distance of a decimal from `b`, in units that depend on its exponent only. -/
def distance (b : Binary) (d : Decimal) : Nat :=
  let (_, middle, _, den) := b.interval
  let (n, m) := d.fraction
  let value := n * den
  (value - middle * m) + (middle * m - value)

/-- The number of digits that `num / den` has in front of the point; negative if
zeros follow the point. -/
def pointAt (num den : Nat) : Int :=
  if den ≤ num then (decimalDigits (num / den)).length
  else
    let zeros := (List.range 400).find? fun j => den ≤ num * Nat.pow 10 (j + 1)
    Int.neg (zeros.getD 0 : Nat)

/-- The two neighbours of `b` on the grid of multiples of `10 ^ exponent`. -/
def neighbours (b : Binary) (exponent : Int) : Decimal × Decimal :=
  let (num, den) := b.fraction
  let below :=
    if 0 ≤ exponent then num / (den * Nat.pow 10 exponent.toNat)
    else num * Nat.pow 10 (-exponent).toNat / den
  (⟨below, exponent⟩, ⟨below + 1, exponent⟩)

/-- The decimal on a grid that reads back as `b`, the nearer one of two. -/
def onGrid? (b : Binary) (exponent : Int) : Option Decimal :=
  let (below, above) := b.neighbours exponent
  match b.readsBack below, b.readsBack above with
  | true, true => some (if b.distance above < b.distance below then above else below)
  | true, false => some below
  | false, true => some above
  | false, false => none

/-- The shortest decimal that reads back as `b`. -/
def shortest (b : Binary) : Decimal :=
  if b.mantissa = 0 then ⟨0, 0⟩
  else
    let (num, den) := b.fraction
    let point := pointAt num den
    let found := (List.range 18).findSome? fun (n : Nat) => b.onGrid? (point - n)
    found.getD ⟨0, 0⟩

end Binary

end ScriptInventory.Number
