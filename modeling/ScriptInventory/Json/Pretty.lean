import ScriptInventory.Json.Value

/-!
# Writing JSON

JSON with two spaces for every level of nesting. Only quotes, backslashes and
control characters are escaped; empty lists and objects stay on one line.
-/

namespace ScriptInventory.Json

/-- The hexadecimal digit of a number below sixteen. -/
def hexDigit (n : Nat) : Char :=
  if n < 10 then Char.ofNat ('0'.toNat + n) else Char.ofNat ('a'.toNat + n - 10)

def escapeChar (c : Char) : List Char :=
  match c with
  | '"' => ['\\', '"']
  | '\\' => ['\\', '\\']
  | '\x08' => ['\\', 'b']
  | '\x0c' => ['\\', 'f']
  | '\n' => ['\\', 'n']
  | '\r' => ['\\', 'r']
  | '\t' => ['\\', 't']
  | c =>
    if c.toNat < 0x20 then
      ['\\', 'u', '0', '0', hexDigit (c.toNat / 16), hexDigit (c.toNat % 16)]
    else [c]

def quote (s : String) : List Char := '"' :: (s.toList.flatMap escapeChar ++ ['"'])

def Number.render : Number → List Char
  | .natural n => ScriptInventory.Number.decimalDigits n
  | .negative n => '-' :: ScriptInventory.Number.decimalDigits n
  | .float isNegative b => (floatText isNegative b).toList

/-- The start of a line at some level of nesting. -/
def newLine (level : Nat) : List Char := '\n' :: List.replicate (2 * level) ' '

mutual

/-- A value at some level of nesting. -/
def Value.write (level : Nat) : Value → List Char
  | .null => "null".toList
  | .bool true => "true".toList
  | .bool false => "false".toList
  | .number n => n.render
  | .string s => quote s
  | .array [] => ['[', ']']
  | .array (first :: rest) =>
    '[' :: (newLine (level + 1) ++ first.write (level + 1) ++ writeItems (level + 1) rest
      ++ newLine level ++ [']'])
  | .object [] => ['{', '}']
  | .object ((key, value) :: rest) =>
    '{' :: (newLine (level + 1) ++ quote key ++ [':', ' '] ++ value.write (level + 1)
      ++ writeMembers (level + 1) rest ++ newLine level ++ ['}'])

/-- The items of a list behind the first one. -/
def writeItems (level : Nat) : List Value → List Char
  | [] => []
  | v :: rest => ',' :: (newLine level ++ v.write level ++ writeItems level rest)

/-- The members of an object behind the first one. -/
def writeMembers (level : Nat) : List (String × Value) → List Char
  | [] => []
  | (key, value) :: rest =>
    ',' :: (newLine level ++ quote key ++ [':', ' '] ++ value.write level
      ++ writeMembers level rest)

end

def Value.pretty (v : Value) : String := String.ofList (v.write 0)

end ScriptInventory.Json
