/-!
# Decimal numbers

A decimal number is `digits * 10 ^ exponent`. It is read from digits with an optional
point and an optional exponent, and written in positions, without an exponent.
-/

namespace ScriptInventory.Number

/-- The number `digits * 10 ^ exponent`. -/
structure Decimal where
  digits : Nat
  exponent : Int
deriving DecidableEq, Repr, Inhabited

/-- The digits of a number in base ten, `0` for zero. -/
def decimalDigits (n : Nat) : List Char := Nat.toDigits 10 n

/-- The value of a run of decimal digits. -/
def digitsValue (digits : List Char) : Nat :=
  digits.foldl (fun n c => 10 * n + (c.toNat - '0'.toNat)) 0

namespace Decimal

def exponent? : List Char → Option Int
  | '+' :: digits => read digits
  | '-' :: digits => (read digits).map Int.neg
  | digits => read digits
where
  /-- Digits, and at least one. -/
  read (digits : List Char) : Option Int :=
    if !digits.isEmpty && digits.all Char.isDigit then some (digitsValue digits) else none

/-- Behind the digits in front of the point and those behind it: the exponent, if
there is one. -/
def finish? (whole part rest : List Char) : Option Decimal :=
  if whole.isEmpty && part.isEmpty then none
  else
    let exponent := match rest with
      | [] => some 0
      | 'e' :: rest => exponent? rest
      | 'E' :: rest => exponent? rest
      | _ => none
    exponent.map fun e => ⟨digitsValue (whole ++ part), e - part.length⟩

def parse? (text : List Char) : Option Decimal :=
  let whole := text.takeWhile Char.isDigit
  match text.drop whole.length with
  | '.' :: rest =>
    let part := rest.takeWhile Char.isDigit
    finish? whole part (rest.drop part.length)
  | rest => finish? whole [] rest

def fraction (d : Decimal) : Nat × Nat :=
  if 0 ≤ d.exponent then (d.digits * Nat.pow 10 d.exponent.toNat, 1)
  else (d.digits, Nat.pow 10 (-d.exponent).toNat)

def render (d : Decimal) : List Char :=
  let digits := decimalDigits d.digits
  if 0 ≤ d.exponent then
    if d.digits = 0 then ['0'] else digits ++ List.replicate d.exponent.toNat '0'
  else
    let places := (-d.exponent).toNat
    let padded := List.replicate (places + 1 - digits.length) '0' ++ digits
    padded.take (padded.length - places) ++ ['.'] ++ padded.drop (padded.length - places)

end Decimal

end ScriptInventory.Number
