/-!
# String keys

The name that a quoted key stands for. Escapes are resolved; an escape that stands
for no character contributes its letters and digits as they are written, and the end
of a line behind a backslash vanishes.
-/

namespace ScriptInventory.Declaration.StringKey

/-- The value of a hexadecimal digit. -/
def hexDigit? (c : Char) : Option Nat :=
  if c.isDigit then some (c.toNat - '0'.toNat)
  else if 'a' ≤ c && c ≤ 'f' then some (c.toNat - 'a'.toNat + 10)
  else if 'A' ≤ c && c ≤ 'F' then some (c.toNat - 'A'.toNat + 10)
  else none

/-- The value of hexadecimal digits, if there are any and nothing else. -/
def hexDigits? (digits : List Char) : Option Nat :=
  if digits.isEmpty then none
  else digits.foldlM (fun n c => (hexDigit? c).map (16 * n + ·)) 0

/-- The value of a hexadecimal number of at most 32 bits, which may have a plus
sign. -/
def hexNumber? (text : List Char) : Option Nat :=
  let value := match text with
    | '+' :: digits => hexDigits? digits
    | digits => hexDigits? digits
  value.filter (· < Nat.pow 2 32)

/-- The character with a code point, if there is one. -/
def scalar? (n : Nat) : Option Char :=
  if n.isValidChar then some (Char.ofNat n) else none

/-- What an escape with the digits `hex` contributes; `letter` is the letter behind its
backslash. Without a character for the digits they stay as they are, behind the backslash and
the letter; braces around them are lost. -/
def codePoint (letter : Char) (hex : List Char) : List Char :=
  match (hexNumber? hex).bind scalar? with
  | some c => [c]
  | none => '\\' :: letter :: hex

/-- The character that a letter behind a backslash stands for. -/
def escaped : Char → Char
  | 'n' => '\n'
  | 't' => '\t'
  | 'r' => '\r'
  | 'b' => '\x08'
  | 'f' => '\x0c'
  | 'v' => '\x0b'
  | '0' => '\x00'
  | c => c

/-- Whether a character behind a backslash ends a line. -/
def endsLine (c : Char) : Bool :=
  c = '\n' || c.toNat = 0x2028 || c.toNat = 0x2029

/-- The text with its escapes resolved. -/
def unescape : List Char → List Char
  | [] => []
  | ['\\'] => ['\\']
  | '\\' :: 'x' :: rest => codePoint 'x' (rest.take 2) ++ unescape (rest.drop 2)
  | '\\' :: 'u' :: '{' :: rest =>
    codePoint 'u' (rest.takeWhile (· ≠ '}')) ++
      unescape ((rest.dropWhile (· ≠ '}')).drop 1)
  | '\\' :: 'u' :: rest => codePoint 'u' (rest.take 4) ++ unescape (rest.drop 4)
  | '\\' :: '\r' :: '\n' :: rest => unescape rest
  | '\\' :: '\r' :: rest => unescape rest
  | '\\' :: c :: rest => if endsLine c then unescape rest else escaped c :: unescape rest
  | c :: rest => c :: unescape rest
termination_by text => text.length
decreasing_by
  all_goals simp only [List.length_cons, List.length_drop]
  all_goals try omega
  all_goals
    have := (List.dropWhile_sublist (p := fun c => decide (c ≠ '}')) (l := rest)).length_le
    omega

@[simp] theorem unescape_nil : unescape [] = [] := by rw [unescape]

/-- The text between the quotes of a literal. The literals of a syntax tree begin and end
with a quote, so no white space around them has to be taken off. -/
def unquote (literal : List Char) : List Char :=
  match literal with
  | '\'' :: rest => if rest.getLast? = some '\'' then rest.dropLast else literal
  | '"' :: rest => if rest.getLast? = some '"' then rest.dropLast else literal
  | _ => literal

/-- The name that a string literal stands for. -/
def name (literal : String) : String := String.ofList (unescape (unquote literal.toList))

end ScriptInventory.Declaration.StringKey
