/-!
# Binary floating point

A finite positive number with 53 significant bits is `mantissa * 2 ^ exponent`. Here
is how a fraction is rounded to the nearest of them, a tie going to the even
mantissa.
-/

namespace ScriptInventory.Number

/-- The number `mantissa * 2 ^ exponent`. -/
structure Binary where
  mantissa : Nat
  exponent : Int
deriving DecidableEq, Repr, Inhabited

namespace Binary

def precision : Nat := 53
/-- The exponent of the smallest numbers. -/
def leastExponent : Int := -1074
/-- The exponent of the largest numbers. -/
def greatestExponent : Int := 971

/-- The value of a number as a fraction. -/
def fraction (b : Binary) : Nat × Nat :=
  if 0 ≤ b.exponent then (b.mantissa * Nat.pow 2 b.exponent.toNat, 1)
  else (b.mantissa, Nat.pow 2 (-b.exponent).toNat)

/-- The natural number that is nearest to `num / den`, the even one of two. -/
def roundDiv (num den : Nat) : Nat :=
  let quotient := num / den
  let twice := 2 * (num % den)
  if den < twice || (twice = den && quotient % 2 = 1) then quotient + 1 else quotient

/-- The fraction `num / den` in units of `2 ^ exponent`. -/
def inUnits (num den : Nat) (exponent : Int) : Nat × Nat :=
  if 0 ≤ exponent then (num, den * Nat.pow 2 exponent.toNat)
  else (num * Nat.pow 2 (-exponent).toNat, den)

/-- The exponent at which the fraction `num / den` has all significant bits in front
of the point. -/
def exponentOf (num den : Nat) : Int :=
  let guess := (num.log2 : Int) - den.log2 - precision
  let (n, d) := inUnits num den guess
  let exponent := if n / d < Nat.pow 2 precision then guess else guess + 1
  max leastExponent exponent

/-- The number nearest to the fraction `num / den`, unless it is too large. -/
def nearest? (num den : Nat) : Option Binary :=
  if num = 0 then some ⟨0, leastExponent⟩
  else
    let exponent := exponentOf num den
    let (n, d) := inUnits num den exponent
    let mantissa := roundDiv n d
    let b : Binary :=
      if mantissa = Nat.pow 2 precision then ⟨Nat.pow 2 (precision - 1), exponent + 1⟩
      else ⟨mantissa, exponent⟩
    if greatestExponent < b.exponent then none else some b

end Binary

end ScriptInventory.Number
