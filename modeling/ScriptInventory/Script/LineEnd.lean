import ScriptInventory.Script.Letter

/-!
# Statements that end with their line

Where a statement may end, a semicolon can be left out if the text ends there,
if a closing brace follows, or if the line ends and the next line does not start
with something that continues the statement. `onLine` decides this for the
text behind a token.

Only the plain blanks count as blanks here, and a line ends at a line feed or at
one of the two line separators; a lone carriage return ends no line.
-/

namespace ScriptInventory.Script.LineEnd

/-- Whether `i` opens the word `in` or `instanceof`, which continue an
expression. What counts behind either word is only whether a plain letter
follows it. -/
def continuesWithIn : List Char → Bool
  | 'n' :: 's' :: 't' :: 'a' :: 'n' :: 'c' :: 'e' :: 'o' :: 'f' :: rest => noLetter rest
  | 'n' :: rest => noLetter rest
  | _ => false
where
  /-- No plain letter comes next. -/
  noLetter : List Char → Bool
    | c :: _ => !c.isAlpha
    | [] => true

/-- Whether a new line that starts like this lets the line above end a
statement. -/
def opensStatement : List Char → Bool
  | '.' :: rest => rest.head?.any Char.isDigit
  | '+' :: rest => rest.head? = some '+'
  | '-' :: rest => rest.head? = some '-'
  | '!' :: rest => rest.head? ≠ some '='
  | 'i' :: rest => !continuesWithIn rest
  | c :: _ =>
    match c with
    | '`' | ',' | ':' | ';' | '*' | '%' | '>' | '<' | '=' | '[' | '(' | '?'
    | '^' | '|' | '&' | '/' => false
    | _ => true
  | [] => true

mutual

/-- Behind the end of a line: skips blanks and comments and looks at what starts
the next one. -/
def nextLine : List Char → Bool
  | '/' :: '/' :: cs => nextLineComment cs
  | '/' :: '*' :: cs => nextBlockComment cs
  | c :: cs => if isPlainBlank c then nextLine cs else opensStatement (c :: cs)
  | [] => true

/-- In a comment that runs to the end of a line, behind the end of a line. -/
def nextLineComment : List Char → Bool
  | [] => true
  | c :: cs =>
    if c = '\n' then nextLine cs
    else if isLineSeparator c || isNul c then true
    else nextLineComment cs

/-- In a bracketed comment, behind the end of a line. -/
def nextBlockComment : List Char → Bool
  | [] => true
  | '*' :: '/' :: cs => nextLine cs
  | c :: cs => if isNul c then true else nextBlockComment cs

end

mutual

/-- On the line of the token: `commentEnds` says whether a comment with an end
of line in it ends the statement by itself. -/
def onLine (commentEnds : Bool) : List Char → Bool
  | [] => true
  | '/' :: '/' :: cs => inLineComment commentEnds false cs
  | '/' :: '*' :: cs => inBlockComment commentEnds false cs
  | c :: cs =>
    if c = '}' || isNul c then true
    else if endsLine c then nextLine cs
    else isPlainBlank c && onLine commentEnds cs

/-- In a comment that runs to the end of the line; `broken` once a line has ended
in a bracketed comment. -/
def inLineComment (commentEnds broken : Bool) : List Char → Bool
  | [] => commentEnds
  | c :: cs =>
    if c = '\n' then behindComments commentEnds broken cs
    else if isLineSeparator c then commentEnds || nextLine cs
    else if isNul c then commentEnds
    else inLineComment commentEnds broken cs

def inBlockComment (commentEnds broken : Bool) : List Char → Bool
  | [] => commentEnds
  | '*' :: '/' :: '/' :: '/' :: cs => inLineComment commentEnds broken cs
  | '*' :: '/' :: '/' :: '*' :: cs => inBlockComment commentEnds broken cs
  | '*' :: '/' :: '/' :: _ => false
  | '*' :: '/' :: [] => broken && commentEnds
  | '*' :: '/' :: c :: cs =>
    if broken && commentEnds && c ≠ ',' && c ≠ '=' then true
    else if c = '}' then true
    else if endsLine c then nextLine cs
    else isPlainBlank c && onLine commentEnds cs
  | c :: cs =>
    if isNul c then commentEnds else inBlockComment commentEnds (broken || endsLine c) cs

/-- Behind a comment that ran to the end of its line. -/
def behindComments (commentEnds broken : Bool) : List Char → Bool
  | [] => commentEnds
  | '/' :: '/' :: cs => inLineComment commentEnds broken cs
  | '/' :: '*' :: cs => inBlockComment commentEnds broken cs
  | c :: cs =>
    if isPlainBlank c then behindComments commentEnds broken cs
    else if c = '/' then false
    else if commentEnds && c ≠ ',' && c ≠ '=' then true
    else if c = '}' then true
    else isLineSeparator c && nextLine cs

end

end ScriptInventory.Script.LineEnd
