import ScriptInventory.Number.Shortest

/-!
# JSON values

A JSON value keeps the members of an object in their order, repetitions included.
Numbers are integers of at most 64 bits where they are written as such, and floating
point numbers otherwise.
-/

namespace ScriptInventory.Json

/-- A number as a JSON text writes it. -/
inductive Number where
  | natural (n : Nat)
  /-- The integer `-n`. -/
  | negative (n : Nat)
  | float (isNegative : Bool) (magnitude : Number.Binary)
deriving DecidableEq, Repr, Inhabited

/-- A JSON value. -/
inductive Value where
  | null
  | bool (b : Bool)
  | number (n : Number)
  | string (s : String)
  | array (items : List Value)
  | object (members : List (String × Value))
deriving Repr, Inhabited

/-! ## The text of floating point numbers -/

/-- The exponents, of the first digit, at which a float is written in positions. -/
def isPositional (exponent : Int) : Bool := -5 ≤ exponent && exponent ≤ 15

def twoDigits (n : Nat) : List Char :=
  let digits := ScriptInventory.Number.decimalDigits n
  if digits.length < 2 then '0' :: digits else digits

/-- The shortest text of a float: in positions with at least one digit behind the
point, or with an exponent that has a sign. -/
def floatText (isNegative : Bool) (b : ScriptInventory.Number.Binary) : String :=
  let sign := if isNegative then ['-'] else []
  let d := b.shortest
  let digits := ScriptInventory.Number.decimalDigits d.digits
  let exponent : Int := d.exponent + (digits.length - 1 : Nat)
  let body :=
    if d.digits = 0 then ['0', '.', '0']
    else if isPositional exponent then
      let text := d.render
      if text.contains '.' then text else text ++ ['.', '0']
    else
      let mantissa := match digits with
        | first :: second :: rest => first :: '.' :: second :: rest
        | _ => digits
      let mark := if exponent < 0 then ['e', '-'] else ['e', '+']
      mantissa ++ mark ++ twoDigits exponent.natAbs
  String.ofList (sign ++ body)

end ScriptInventory.Json
