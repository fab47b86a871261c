import ScriptInventory.Script.Letter
import ScriptInventory.Script.Place

/-!
# Tokens of plain scripts

A plain script is made of names, numbers, quoted texts and a few signs, with plain
blanks between them. `tokens?` takes it apart in one pass, a character at a time. It
gives up at anything else: a comment, an operator, an escape, or a word that means
something in a construct that plain scripts do not have.
-/

namespace ScriptInventory.Script.Plain

/-! ## Words -/

/-- The words that open a declaration. -/
inductive Opener where
  | «class»
  | function
  | let
  | const
  | var
deriving DecidableEq, Repr, Inhabited

/-- The opener that a word is, if it is one. -/
def Opener.ofWord? : String → Option Opener
  | "class" => some .class
  | "function" => some .function
  | "let" => some .let
  | "const" => some .const
  | "var" => some .var
  | _ => none

/-- The words that some construct gives a meaning to. None of them is a name here,
although most of them may be one in many places. -/
def specialWords : List String :=
  ["as", "async", "await", "break", "case", "catch", "class", "const", "continue",
   "debugger", "default", "delete", "do", "else", "export", "extends", "false",
   "finally", "for", "from", "function", "get", "if", "import", "in", "instanceof",
   "let", "meta", "new", "null", "of", "return", "set", "static", "super", "switch",
   "target", "this", "throw", "true", "try", "typeof", "undefined", "var", "void",
   "while", "with", "yield"]

/-! ## Tokens -/

/-- What a token is. -/
inductive Form where
  | opener (o : Opener)
  | name (text : String)
  | number (text : String)
  /-- A text in quotes, with the quotes. -/
  | quoted (text : String)
  | sign (c : Char)
  /-- The three dots in front of the rest of a pattern. -/
  | dots
deriving DecidableEq, Repr, Inhabited

/-- A token. `newLine` says whether a line ends between it and the token before. -/
structure Token where
  form : Form
  place : Place
  newLine : Bool
deriving DecidableEq, Repr, Inhabited

def Form.ofWord? (word : String) : Option Form :=
  match Opener.ofWord? word with
  | some o => some (.opener o)
  | none => if word ∈ specialWords then none else some (.name word)

def isSign : Char → Bool
  | ';' | ',' | ':' | '=' | '(' | ')' | '[' | ']' | '{' | '}' => true
  | _ => false

/-- A character that may stand between quotes, the closing quote apart. -/
def isQuotable (c : Char) : Bool :=
  c ≠ '\\' && c ≠ '\r' && c ≠ '\n' && !isNul c

/-! ## One pass over the characters -/

/-- The token that is being read: where it starts and what of it has been seen, latest
character first. -/
inductive Pending where
  | nothing
  | word (start : Place) (seen : List Char)
  | number (start : Place) (seen : List Char)
  | quoted (start : Place) (quote : Char) (seen : List Char)
  | dot (start : Place)
  | twoDots (start : Place)
deriving DecidableEq, Repr, Inhabited

/-- The state between two characters. -/
structure Scan where
  place : Place
  newLine : Bool
  pending : Pending
  /-- The finished tokens, latest first. -/
  found : List Token
deriving DecidableEq, Repr, Inhabited

namespace Scan

/-- The state at the start of a text. -/
def start : Scan := ⟨.start, false, .nothing, []⟩

def emit (s : Scan) (form : Form) (start : Place) : Scan :=
  { s with newLine := false, pending := .nothing,
           found := ⟨form, start, s.newLine⟩ :: s.found }

/-- Adds the word or the number that is being read; nothing else ends by itself. -/
def finish? (s : Scan) : Option Scan :=
  match s.pending with
  | .nothing => some s
  | .word start seen =>
    (Form.ofWord? (String.ofList seen.reverse)).map fun form => s.emit form start
  | .number start seen => some (s.emit (.number (String.ofList seen.reverse)) start)
  | .quoted _ _ _ | .dot _ | .twoDots _ => none

/-- Reads a character between tokens. -/
def open? (s : Scan) (c : Char) : Option Scan :=
  if isPlainBlank c then some { s with newLine := s.newLine || c = '\n' }
  else if isWordStart c then some { s with pending := .word s.place [c] }
  else if c.isDigit then some { s with pending := .number s.place [c] }
  else if c = '\'' || c = '"' then some { s with pending := .quoted s.place c [c] }
  else if c = '.' then some { s with pending := .dot s.place }
  else if isSign c then some (s.emit (.sign c) s.place)
  else none

/-- Reads a character. No number goes on behind a leading zero, and none has a letter
or a point behind it. -/
def read? (s : Scan) (c : Char) : Option Scan :=
  match s.pending with
  | .nothing => s.open? c
  | .word start seen =>
    if isWordPart c then some { s with pending := .word start (c :: seen) }
    else s.finish?.bind fun t => t.open? c
  | .number start seen =>
    if c.isDigit && seen ≠ ['0'] then some { s with pending := .number start (c :: seen) }
    else if isWordPart c || c = '.' then none
    else s.finish?.bind fun t => t.open? c
  | .quoted start quote seen =>
    if c = quote then some (s.emit (.quoted (String.ofList (c :: seen).reverse)) start)
    else if isQuotable c then some { s with pending := .quoted start quote (c :: seen) }
    else none
  | .dot start => if c = '.' then some { s with pending := .twoDots start } else none
  | .twoDots start => if c = '.' then some (s.emit .dots start) else none

/-- Reads a character and moves on behind it. -/
def step? (s : Scan) (c : Char) : Option Scan :=
  (s.read? c).map fun t => { t with place := s.place.next c }

end Scan

def tokens? (text : List Char) : Option (List Token) :=
  ((text.foldlM Scan.step? Scan.start).bind Scan.finish?).map fun s => s.found.reverse

end ScriptInventory.Script.Plain
