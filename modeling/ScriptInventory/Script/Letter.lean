/-!
# Character classes of scripts

Which characters separate tokens, which ones words are made of, and which ones
end a line. A word may hold any character that is no blank, no control character
and no punctuation of the language, so words are not limited to letters.
-/

namespace ScriptInventory.Script

/-- The blanks of the basic Latin block: tab to carriage return, and space. -/
def isPlainBlank (c : Char) : Bool :=
  c = ' ' || (0x09 ≤ c.toNat && c.toNat ≤ 0x0D)

/-- Space separators beyond the basic Latin block. -/
def isSpaceSeparator (c : Char) : Bool :=
  c.toNat = 0xA0 || c.toNat = 0x1680 ||
    (0x2000 ≤ c.toNat && c.toNat ≤ 0x200A) ||
    c.toNat = 0x202F || c.toNat = 0x205F || c.toNat = 0x3000

/-- The two separators that end a line beside the line feed. -/
def isLineSeparator (c : Char) : Bool :=
  c.toNat = 0x2028 || c.toNat = 0x2029

/-- A character that may stand between any two tokens. -/
def isBlank (c : Char) : Bool :=
  isPlainBlank c || isSpaceSeparator c || isLineSeparator c ||
    c.toNat = 0xFEFF || c.toNat = 0x2060 || c.toNat = 0x200B

/-- A character that ends a line where the end of a line matters. -/
def endsLine (c : Char) : Bool :=
  c = '\n' || isLineSeparator c

/-- Punctuation, which no word holds. -/
def isPunctuation (c : Char) : Bool :=
  match c with
  | ':' | ';' | '`' | '"' | '\'' | '@' | '#' | '.' | ',' | '|' | '^' | '&'
  | '<' | '=' | '>' | '+' | '-' | '*' | '/' | '\\' | '%' | '?' | '!' | '~'
  | '(' | ')' | '[' | ']' | '{' | '}' => true
  | _ => false

/-- A character that may stand inside a word. -/
def isWordPart (c : Char) : Bool :=
  0x20 ≤ c.toNat && !isBlank c && !isPunctuation c

/-- A character that may open a word. -/
def isWordStart (c : Char) : Bool :=
  isWordPart c && !c.isDigit

/-- A hexadecimal digit of either case. -/
def isHexDigit (c : Char) : Bool :=
  c.isDigit || ('a' ≤ c && c ≤ 'f') || ('A' ≤ c && c ≤ 'F')

def isOctalDigit (c : Char) : Bool :=
  '0' ≤ c && c ≤ '7'

/-- The character that no token holds, and that counts as the end of the text
where the end of a line matters. -/
def isNul (c : Char) : Bool :=
  c.toNat = 0

end ScriptInventory.Script
