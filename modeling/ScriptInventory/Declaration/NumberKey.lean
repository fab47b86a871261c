import ScriptInventory.Number.Shortest

/-!
# Numeric keys

The name that a numeric key stands for: its value in decimal, written without an
exponent. A literal with a base is exact up to 128 bits; a decimal one is rounded to
53 significant bits. A literal beyond these limits stands for its own text.
-/

namespace ScriptInventory.Declaration.NumberKey

open Number

/-- The value of a digit in any base up to sixteen. -/
def digitValue? (base : Nat) (c : Char) : Option Nat :=
  let value :=
    if c.isDigit then some (c.toNat - '0'.toNat)
    else if 'a' ≤ c && c ≤ 'f' then some (c.toNat - 'a'.toNat + 10)
    else if 'A' ≤ c && c ≤ 'F' then some (c.toNat - 'A'.toNat + 10)
    else none
  value.filter (· < base)

def basedValue? (base : Nat) (digits : List Char) : Option Nat :=
  if digits.isEmpty then none
  else digits.foldlM (fun n c => (digitValue? base c).map (base * n + ·)) 0

def basedName? (base : Nat) (digits : List Char) : Option (List Char) :=
  ((basedValue? base digits).filter (· < Nat.pow 2 128)).map decimalDigits

/-- Exponents outside of these bounds leave nothing to compute: the value is too large
for any binary number, or nearer to zero than to the smallest one. -/
def isHuge (d : Decimal) : Bool := 400 < (decimalDigits d.digits).length + d.exponent
/-- The value is nearer to zero than to the smallest binary number. -/
def isTiny (d : Decimal) : Bool := (decimalDigits d.digits).length + d.exponent < -400

def decimalName? (text : List Char) : Option (List Char) :=
  (Decimal.parse? text).bind fun d =>
    if d.digits = 0 || isTiny d then some ['0']
    else if isHuge d then none
    else
      let (num, den) := d.fraction
      (Binary.nearest? num den).map fun b => b.shortest.render

/-- The literal without its separators and without the mark of an exact integer. -/
def clean (literal : List Char) : List Char :=
  let digits := literal.filter (· ≠ '_')
  if digits.getLast? = some 'n' then digits.dropLast else digits

/-- The name of a numeric literal, if its value can be told. -/
def name? (literal : List Char) : Option (List Char) :=
  match clean literal with
  | '0' :: 'x' :: digits | '0' :: 'X' :: digits => basedName? 16 digits
  | '0' :: 'o' :: digits | '0' :: 'O' :: digits => basedName? 8 digits
  | '0' :: 'b' :: digits | '0' :: 'B' :: digits => basedName? 2 digits
  | digits => decimalName? digits

/-- The name that a numeric literal stands for. A literal whose value cannot be told keeps its
text. -/
def name (literal : String) : String :=
  ((name? literal.toList).map String.ofList).getD literal

end ScriptInventory.Declaration.NumberKey
