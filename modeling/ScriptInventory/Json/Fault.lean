import ScriptInventory.Json.Value

/-!
# What can be wrong with a JSON text

The reasons for which a JSON text, or a value of the wrong shape, is refused, and
their wording. A spot is where reading stands: a line, counted from one, and the
number of bytes in front of it on that line.
-/

namespace ScriptInventory.Json

/-- A position between the bytes of a text. -/
structure Spot where
  line : Nat
  column : Nat
deriving DecidableEq, Repr, Inhabited

namespace Spot

def start : Spot := ⟨1, 0⟩

def next (s : Spot) (c : Char) : Spot :=
  if c = '\n' then ⟨s.line + 1, 0⟩ else ⟨s.line, s.column + c.utf8Size⟩

/-- Behind the next byte of a text; at its end, where it is. -/
def peek (s : Spot) : List Char → Spot
  | [] => s
  | c :: _ => if c = '\n' then ⟨s.line + 1, 0⟩ else ⟨s.line, s.column + 1⟩

def right (s : Spot) (n : Nat) : Spot := ⟨s.line, s.column + n⟩

def afterBytes (s : Spot) : Nat → List Char → Spot
  | _, [] => s
  | 0, _ => s
  | n + 1, c :: rest =>
    if c.utf8Size ≤ n + 1 then (s.next c).afterBytes (n + 1 - c.utf8Size) rest
    else s.right (n + 1)
termination_by _ text => text.length

end Spot

/-- A value that stands where another one is expected. -/
inductive Unexpected where
  | null
  | bool (b : Bool)
  | number (n : Number)
  | string (s : String)
  | sequence
  | map
  | unitVariant
deriving Repr, Inhabited

/-- Why a text is refused. -/
inductive Cause where
  | endInValue
  | endInList
  | endInObject
  | endInString
  | expectedColon
  | expectedCommaOrBracket
  | expectedCommaOrBrace
  | expectedWord
  | expectedValue
  | invalidEscape
  | invalidNumber
  | numberOutOfRange
  | controlCharacter
  | keyMustBeString
  | loneSurrogate
  | unfinishedPair
  | trailingComma
  | trailingCharacters
  | invalidType (found : Unexpected) (expected : String)
  | invalidValue (found : Unexpected) (expected : String)
  | unknownVariant (name : String) (expected : List String)
  | duplicateField (name : String)
deriving Repr, Inhabited

/-! ## Wording -/

/-- Characters that a quoted text shows by their number: controls, separators other
than the space, format and private characters, and marks that combine with the
character in front of them. -/
def isHidden (c : Char) : Bool :=
  let n := c.toNat
  n < 0x20 || (0x7F ≤ n && n ≤ 0xA0) || n = 0xAD || (0x300 ≤ n && n ≤ 0x36F) ||
    (0x600 ≤ n && n ≤ 0x605) || n = 0x61C || n = 0x6DD || n = 0x70F || n = 0x1680 ||
    n = 0x180E || (0x2000 ≤ n && n ≤ 0x200F) || (0x2028 ≤ n && n ≤ 0x202F) ||
    (0x205F ≤ n && n ≤ 0x206F) || (0x20D0 ≤ n && n ≤ 0x20F0) || n = 0x3000 ||
    (0xE000 ≤ n && n ≤ 0xF8FF) || (0xFE00 ≤ n && n ≤ 0xFE0F) ||
    (0xFE20 ≤ n && n ≤ 0xFE2F) || n = 0xFEFF || (0xFFF9 ≤ n && n ≤ 0xFFFB) ||
    n = 0xFFFE || n = 0xFFFF || 0xE0000 ≤ n

def showChar (c : Char) : List Char :=
  match c with
  | '"' => ['\\', '"']
  | '\\' => ['\\', '\\']
  | '\n' => ['\\', 'n']
  | '\r' => ['\\', 'r']
  | '\t' => ['\\', 't']
  | '\x00' => ['\\', '0']
  | c => if isHidden c then ['\\', 'u', '{'] ++ Nat.toDigits 16 c.toNat ++ ['}'] else [c]

/-- A text in quotes, as messages show it. -/
def showText (s : String) : String :=
  String.ofList ('"' :: (s.toList.flatMap showChar ++ ['"']))

/-- The text of a number in messages. -/
def Number.describe : Number → String
  | .natural n => s!"integer `{n}`"
  | .negative n => s!"integer `-{n}`"
  | .float isNegative b => "floating point `" ++ floatText isNegative b ++ "`"

def Unexpected.describe : Unexpected → String
  | .null => "null"
  | .bool b => if b then "boolean `true`" else "boolean `false`"
  | .number n => n.describe
  | .string s => "string " ++ showText s
  | .sequence => "sequence"
  | .map => "map"
  | .unitVariant => "unit variant"

def ticked (name : String) : String := "`" ++ name ++ "`"

/-- Several names, of which one is expected. -/
def oneOf : List String → String
  | [a] => ticked a
  | [a, b] => ticked a ++ " or " ++ ticked b
  | names => "one of " ++ ", ".intercalate (names.map ticked)

def Cause.message : Cause → String
  | .endInValue => "EOF while parsing a value"
  | .endInList => "EOF while parsing a list"
  | .endInObject => "EOF while parsing an object"
  | .endInString => "EOF while parsing a string"
  | .expectedColon => "expected `:`"
  | .expectedCommaOrBracket => "expected `,` or `]`"
  | .expectedCommaOrBrace => "expected `,` or `\x7d`"
  | .expectedWord => "expected ident"
  | .expectedValue => "expected value"
  | .invalidEscape => "invalid escape"
  | .invalidNumber => "invalid number"
  | .numberOutOfRange => "number out of range"
  | .controlCharacter =>
    "control character (\\u0000-\\u001F) found while parsing a string"
  | .keyMustBeString => "key must be a string"
  | .loneSurrogate => "lone leading surrogate in hex escape"
  | .unfinishedPair => "unexpected end of hex escape"
  | .trailingComma => "trailing comma"
  | .trailingCharacters => "trailing characters"
  | .invalidType found expected => "invalid type: " ++ found.describe ++ ", expected " ++ expected
  | .invalidValue found expected =>
    "invalid value: " ++ found.describe ++ ", expected " ++ expected
  | .unknownVariant name expected =>
    "unknown variant " ++ ticked name ++ ", expected " ++ oneOf expected
  | .duplicateField name => "duplicate field " ++ ticked name

/-- Why and where a text is refused. -/
structure Fault where
  cause : Cause
  spot : Spot
deriving Repr, Inhabited

/-- The message about a fault, with its place. -/
def Fault.message (f : Fault) : String :=
  f.cause.message ++ s!" at line {f.spot.line} column {f.spot.column}"

end ScriptInventory.Json
