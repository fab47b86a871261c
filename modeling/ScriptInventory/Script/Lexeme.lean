import ScriptInventory.Script.Letter

/-!
# Lexemes

The readers of single lexemes. Each one looks at the start of a text and gives
back the lexeme and what follows it, so that the two together are the text again,
or nothing when no such lexeme starts there. All of them are structural in the
text.
-/

namespace ScriptInventory.Script.Lexeme

abbrev Split := List Char × List Char

/-- Puts a character in front of a lexeme. -/
def Split.cons (c : Char) (s : Split) : Split := (c :: s.1, s.2)

/-! ## Words -/

mutual

/-- The longest run of word characters; a character of a word may also be
written as `\uXXXX` or `\u{X}`. -/
def wordTail : List Char → Split
  | '\\' :: 'u' :: '{' :: cs =>
    match bracedTail false cs with
    | some s => ('\\' :: 'u' :: '{' :: s.1, s.2)
    | none => ([], '\\' :: 'u' :: '{' :: cs)
  | '\\' :: 'u' :: a :: b :: c :: d :: cs =>
    if isHexDigit a && isHexDigit b && isHexDigit c && isHexDigit d then
      let s := wordTail cs
      ('\\' :: 'u' :: a :: b :: c :: d :: s.1, s.2)
    else
      ([], '\\' :: 'u' :: a :: b :: c :: d :: cs)
  | c :: cs => if isWordPart c then (wordTail cs).cons c else ([], c :: cs)
  | [] => ([], [])

/-- Behind `\u{`: the digits, the closing brace and the rest of the word. -/
def bracedTail (seen : Bool) : List Char → Option Split
  | '}' :: cs => if seen then some ((wordTail cs).cons '}') else none
  | c :: cs => if isHexDigit c then (bracedTail true cs).map (Split.cons c) else none
  | [] => none

end

/-- A word: it does not start with a digit. -/
def word? (cs : List Char) : Option Split :=
  match wordTail cs with
  | (c :: w, rest) => if c.isDigit then none else some (c :: w, rest)
  | ([], _) => none

/-- The words `static get` at the end of a line, with the line end. -/
def staticGet? : List Char → Option Split
  | 's' :: 't' :: 'a' :: 't' :: 'i' :: 'c' :: cs =>
    let gap := cs.takeWhile isPlainBlank
    match cs.drop gap.length with
    | 'g' :: 'e' :: 't' :: rest =>
      let tail := rest.takeWhile isPlainBlank
      let line := (tail.reverse.dropWhile fun c => c ≠ '\n').reverse
      if gap.isEmpty || line.isEmpty then none
      else
        some (['s', 't', 'a', 't', 'i', 'c'] ++ gap ++ ['g', 'e', 't'] ++ line,
          rest.drop line.length)
    | _ => none
  | _ => none

/-- A private name: a number sign and a word. -/
def privateName? : List Char → Option Split
  | '#' :: cs => (word? cs).map (Split.cons '#')
  | _ => none

/-! ## Numbers -/

/-- A run of digits of one class, in which single underscores may separate
digits. -/
def digits (isDigit : Char → Bool) : List Char → Split
  | '_' :: d :: cs =>
    if isDigit d then ((digits isDigit cs).cons d).cons '_' else ([], '_' :: d :: cs)
  | c :: cs => if isDigit c then (digits isDigit cs).cons c else ([], c :: cs)
  | [] => ([], [])

/-- A run of digits that starts with a digit. -/
def digits? (isDigit : Char → Bool) (cs : List Char) : Option Split :=
  match cs with
  | c :: _ => if isDigit c then some (digits isDigit cs) else none
  | [] => none

/-- The mark of an exact integer behind its digits. -/
def integerMark (s : Split) : Split :=
  match s.2 with
  | 'n' :: rest => (s.1 ++ ['n'], rest)
  | _ => s

/-- The digits that may stand in front of a fraction or an exponent. -/
def isIntegerPart : List Char → Bool
  | ['0'] => true
  | '0' :: c :: _ => c.isDigit && c != '0'
  | c :: _ => c.isDigit && c != '0'
  | [] => false

def exponent (cs : List Char) : Split :=
  let read (mark : List Char) (cs : List Char) : Option Split :=
    (digits? Char.isDigit cs).map fun s => (mark ++ s.1, s.2)
  let signed (mark : Char) (rest : List Char) : Split :=
    let found := match rest with
      | '+' :: rest => read [mark, '+'] rest
      | '-' :: rest => read [mark, '-'] rest
      | rest => read [mark] rest
    found.getD ([], cs)
  match cs with
  | 'e' :: rest => signed 'e' rest
  | 'E' :: rest => signed 'E' rest
  | _ => ([], cs)

/-- What follows a lexeme, as one lexeme with it. -/
def Split.andThen (s : Split) (next : List Char → Split) : Split :=
  let t := next s.2
  (s.1 ++ t.1, t.2)

/-- The digits behind a point, if there are any. -/
def fraction (cs : List Char) : Split :=
  (digits? Char.isDigit cs).getD ([], cs)

/-- A number that starts with decimal digits. -/
def decimal (s : Split) : Split :=
  match s.2 with
  | 'n' :: rest => (s.1 ++ ['n'], rest)
  | '.' :: rest =>
    if isIntegerPart s.1 then
      (Split.andThen (s.1 ++ ['.'], rest) fraction).andThen exponent
    else s
  | _ => if isIntegerPart s.1 then s.andThen exponent else s

/-- A number in the base that its second character names. -/
def based? (zero mark : Char) (cs : List Char) : Option Split :=
  let read (isDigit : Char → Bool) : Option Split :=
    (digits? isDigit cs).map fun s => integerMark (zero :: mark :: s.1, s.2)
  match mark with
  | 'x' | 'X' => read isHexDigit
  | 'o' | 'O' => read isOctalDigit
  | 'b' | 'B' => read fun c => c = '0' || c = '1'
  | _ => none

def number? (cs : List Char) : Option Split :=
  let plain := (digits? Char.isDigit cs).map decimal
  match cs with
  | '0' :: mark :: rest => (based? '0' mark rest).or plain
  | '.' :: rest =>
    (digits? Char.isDigit rest).map fun s => (s.cons '.').andThen exponent
  | _ => plain

/-! ## Comments -/

/-- Behind `//`: the end of the comment. -/
def lineCommentEnd : List Char → Split
  | [] => ([], [])
  | c :: cs =>
    if c = '\r' || endsLine c || isNul c then ([], c :: cs)
    else (lineCommentEnd cs).cons c

end ScriptInventory.Script.Lexeme
