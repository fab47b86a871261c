import ScriptInventory.Script.Grammar.Rule
import ScriptInventory.Script.Lexeme
import ScriptInventory.Script.LineEnd
import ScriptInventory.Script.Place

/-!
# Terminals in a text

Which terminals can be read at a position of a text, and how long they are. Most
terminals may have blanks in front of them; inside quotes, templates and regular
expressions blanks count.

Some terminals are recognised by what surrounds them: `surrounded?` decides about
those. Of the others the longest one wins (`longest?`), and text inside quotes wins
over all else.
-/

namespace ScriptInventory.Script.Tolerant

open Grammar

/-! ## Texts by position -/

/-- A text with what is known about its positions. -/
structure Text where
  rests : Array (List Char)
  places : Array Place
  bytes : Array Nat
deriving Inhabited

namespace Text

/-- The positions of a text, the one at its end included. -/
def ofString (text : String) : Text :=
  let rec go (rests : Array (List Char)) (places : Array Place) (bytes : Array Nat)
      (place : Place) (byte : Nat) : List Char → Text
    | [] => ⟨rests.push [], places.push place, bytes.push byte⟩
    | c :: cs =>
      go (rests.push (c :: cs)) (places.push place) (bytes.push byte) (place.next c)
        (byte + c.utf8Size) cs
  go #[] #[] #[] .start 0 text.toList

def size (t : Text) : Nat := t.rests.size - 1

/-- What stands at a position and behind it. -/
def rest (t : Text) (i : Nat) : List Char := t.rests.getD i []

def place (t : Text) (i : Nat) : Place := t.places.getD i .start

/-- The number of bytes from one position to another. -/
def bytesBetween (t : Text) (i j : Nat) : Nat := t.bytes.getD j 0 - t.bytes.getD i 0

/-- The number of line ends from one position to another. -/
def linesBetween (t : Text) (i j : Nat) : Nat := (t.place j).line - (t.place i).line

/-- The characters from one position to another. -/
def between (t : Text) (i j : Nat) : List Char := (t.rest i).take (j - i)

/-- The first position from `i` on that holds no blank. -/
def behindBlanks (t : Text) (i : Nat) : Nat :=
  i + ((t.rest i).takeWhile isBlank).length

end Text

/-! ## Lengths of lexemes -/

/-- The length of a run of characters, if it is not empty. -/
def run? (isPart : Char → Bool) (cs : List Char) : Option Nat :=
  match (cs.takeWhile isPart).length with
  | 0 => none
  | n => some n

def fixed? (text : String) (cs : List Char) : Option Nat :=
  if text.toList.isPrefixOf cs then some text.length else none

/-- The length of a bracketed comment behind its opening. -/
def blockComment? (seen : Nat) : List Char → Option Nat
  | '*' :: '/' :: _ => some (seen + 2)
  | c :: cs => if isNul c then none else blockComment? (seen + 1) cs
  | [] => none

def comment? : List Char → Option Nat
  | '/' :: '/' :: cs => some (2 + (Lexeme.lineCommentEnd cs).1.length)
  | '/' :: '*' :: cs => blockComment? 2 cs
  | _ => none

/-- The length of a line that starts with `#!`. -/
def hashBang? : List Char → Option Nat
  | '#' :: '!' :: cs => some (2 + (cs.takeWhile fun c => c ≠ '\n' && !isNul c).length)
  | _ => none

def isLetter (c : Char) : Bool := c.isAlpha

/-- The length of a reference such as `&amp;` or `&#x41;`. -/
def reference? : List Char → Option Nat
  | '&' :: '#' :: 'x' :: cs | '&' :: '#' :: 'X' :: cs => closed isHexDigit 6 3 cs
  | '&' :: '#' :: cs => closed Char.isDigit 5 2 cs
  | '&' :: cs => closed isLetter 30 1 cs
  | _ => none
where
  /-- At most `most` characters and a semicolon. -/
  closed (isPart : Char → Bool) (most seen : Nat) (cs : List Char) : Option Nat :=
    let n := ((cs.take most).takeWhile isPart).length
    if 0 < n && (cs.drop n).head? = some ';' then some (seen + n + 1) else none

/-- The length of a name with a dash in it. -/
def dashedName? (cs : List Char) : Option Nat :=
  let opens (c : Char) : Bool := isLetter c || c = '_' || c = '$'
  let isPart (c : Char) : Bool := opens c || c.isDigit
  match cs with
  | c :: rest =>
    if opens c then
      let n := (rest.takeWhile isPart).length
      match rest.drop n with
      | '-' :: tail => some (n + 2 + (tail.takeWhile fun c => isPart c || c = '-').length)
      | _ => none
    else none
  | [] => none

/-- The length of text inside the quotes of an attribute; an ampersand belongs to
it unless it could open a reference. -/
def markupText (quote : Char) (seen : Nat) : List Char → Nat
  | [] => seen
  | ['&'] => seen
  | '&' :: d :: cs =>
    if isNul d || d = '#' || isLetter d then seen else markupText quote (seen + 2) cs
  | c :: cs => if isNul c || c = quote then seen else markupText quote (seen + 1) cs

/-- The length of text inside quotes. -/
def quotedText? (quote : Char) : List Char → Option Nat :=
  run? fun c => !(isNul c || c = quote || c = '\\' || c = '\r' || c = '\n')

def escape? : List Char → Option Nat
  | '\\' :: 'x' :: a :: b :: _ => if isHexDigit a && isHexDigit b then some 4 else none
  | '\\' :: 'u' :: '{' :: cs =>
    match run? isHexDigit cs with
    | some n => if (cs.drop n).head? = some '}' then some (n + 4) else none
    | none => none
  | '\\' :: 'u' :: a :: b :: c :: d :: _ =>
    if isHexDigit a && isHexDigit b && isHexDigit c && isHexDigit d then some 6 else none
  | '\\' :: c :: cs =>
    if isNul c || c = 'x' || c = 'u' then none
    else if isOctalDigit c then some (2 + ((cs.take 2).takeWhile isOctalDigit).length)
    else if (c = '\r' || c = '?') && cs.head?.any endsLine then some 3
    else some 2
  | _ => none

/-- The length of a character class of a regular expression, from its bracket
on. -/
def regexClass? (seen : Nat) : List Char → Option Nat
  | [] => none
  | ']' :: _ => some (seen + 1)
  | '\\' :: c :: cs => if isNul c || c = '\n' then none else regexClass? (seen + 2) cs
  | c :: cs => if isNul c || c = '\n' || c = '\\' then none else regexClass? (seen + 1) cs

/-- The length of the body of a regular expression; a character class that never
closes is not part of it. -/
def regexBody (inClass seen : Nat) : List Char → Nat
  | [] => seen
  | c :: cs =>
    if 0 < inClass then regexBody (inClass - 1) (seen + 1) cs
    else
      match c with
      | '/' => seen
      | '[' =>
        match regexClass? 1 cs with
        | some n => regexBody (n - 1) (seen + 1) cs
        | none => seen
      | '\\' =>
        match cs with
        | d :: _ => if isNul d || d = '\n' then seen else regexBody 1 (seen + 1) cs
        | [] => seen
      | c => if isNul c || c = '\n' then seen else regexBody 0 (seen + 1) cs

def positive? (n : Nat) : Option Nat := if n = 0 then none else some n

/-- The length of a terminal, and whether blanks may stand in front of it; `here`
is the text with those blanks and `rest` the text behind them. -/
def length? (t : Terminal) (here rest : List Char) : Option (Bool × Nat) :=
  let spaced (n : Option Nat) := n.map fun n => (true, n)
  let tight (n : Option Nat) := n.map fun n => (false, n)
  let split (s : Option Lexeme.Split) := spaced (s.map fun s => s.1.length)
  match t with
  | .endOfText | .lineEnd | .questionMark | .templateText | .markupComment
  | .elementText => none
  | .mark text | .named _ text => spaced (fixed? text rest)
  | .word => split (Lexeme.word? rest)
  | .number => split (Lexeme.number? rest)
  | .privateName => split (Lexeme.privateName? rest)
  | .staticGet => split (Lexeme.staticGet? rest)
  | .comment => spaced (comment? rest)
  | .hashBang => spaced (hashBang? rest)
  | .dashedName => spaced (dashedName? rest)
  | .reference => spaced (reference? rest)
  | .doubleText => tight (quotedText? '"' here)
  | .singleText => tight (quotedText? '\'' here)
  | .doubleMarkupText => tight (positive? (markupText '"' 0 here))
  | .singleMarkupText => tight (positive? (markupText '\'' 0 here))
  | .escape => tight (escape? here)
  | .regexBody => tight (positive? (regexBody 0 0 here))
  | .regexClose => tight (fixed? "/" here)
  | .regexFlags => tight (run? (fun c => 'a' ≤ c && c ≤ 'z') here)

/-! ## The longest terminal -/

/-- A terminal by its number, with the positions at which it starts and ends. -/
structure Found where
  terminal : Nat
  start : Nat
  stop : Nat
deriving Repr, Inhabited

/-- How strongly a terminal claims its text: text inside quotes before all else. -/
def rank : Terminal → Int
  | .doubleText | .singleText | .doubleMarkupText | .singleMarkupText | .regexClose => 3
  | .regexFlags => 2
  | .regexBody => -1
  | _ => 0

/-- Whether a terminal is a fixed text without a kind of its own. -/
def isFixed : Terminal → Bool
  | .mark _ | .named _ _ => true
  | _ => false

def keywordText? : Terminal → Option (List Char)
  | .mark text | .named _ text =>
    if text.toList.all Char.isLower then some text.toList else none
  | _ => none

/-- Whether the second of two terminals is to be taken instead of the first. -/
def isBetter (a : Terminal) (aStop : Nat) (b : Terminal) (bStop : Nat) : Bool :=
  if 3 ≤ rank b && rank a < 3 then true
  else if 3 ≤ rank a && rank b < 3 then false
  else
    aStop < bStop ||
      (aStop = bStop && (rank a < rank b || (rank a = rank b && isFixed b && !isFixed a)))

/-- The terminal to take at position `i`, among those for which `valid` holds. A
word is also looked for where only a keyword is valid. -/
def longest? (terminals : Array Terminal) (t : Text) (valid : Nat → Bool) (i : Nat) :
    Option Found :=
  let j := t.behindBlanks i
  let here := t.rest i
  let rest := t.rest j
  let consider (best : Option (Terminal × Found)) (n : Nat) (terminal : Terminal) :
      Option (Terminal × Found) :=
    match length? terminal here rest with
    | none => best
    | some (spaced, length) =>
      let start := if spaced then j else i
      let found : Found := ⟨n, start, start + length⟩
      match best with
      | none => some (terminal, found)
      | some (old, was) =>
        if isBetter old was.stop terminal found.stop then some (terminal, found) else best
  let wantsWord := terminals.zipIdx.any fun (terminal, n) =>
    valid n && (terminal = .word || (keywordText? terminal).isSome)
  let word := terminals.idxOf .word
  let best := if wantsWord then consider none word .word else none
  let best := terminals.zipIdx.foldl (fun best (terminal, n) =>
    if valid n && terminal ≠ .word && (keywordText? terminal).isNone then
      consider best n terminal
    else best) best
  match best with
  | some (_, found) => some found
  | none => if t.size ≤ j && valid 0 then some ⟨0, j, j⟩ else none

/-! ## Terminals known by their surroundings -/

/-- The length of template text: up to the end of the template, an escape or an
embedded expression. -/
def templateText? (seen : Nat) : List Char → Option Nat
  | [] => none
  | '$' :: '{' :: _ => some seen
  | c :: cs =>
    if c = '`' || c = '\\' then some seen
    else if isNul c then none
    else templateText? (seen + 1) cs

/-- The length of text between elements, and whether it is more than the blanks
behind an end of line. -/
def elementText (seen : Nat) (newLine shown : Bool) : List Char → Nat × Bool
  | [] => (seen, shown)
  | c :: cs =>
    if isNul c || c = '<' || c = '>' || c = '{' || c = '}' || c = '&' then (seen, shown)
    else if c = '\n' then elementText (seen + 1) true shown cs
    else
      let newLine := newLine && isPlainBlank c
      elementText (seen + 1) newLine (shown || !newLine) cs

/-- A question mark that asks for a condition, behind plain blanks: how many
blanks there are. -/
def questionMark? (cs : List Char) : Option Nat :=
  let blanks := (cs.takeWhile isPlainBlank).length
  match cs.drop blanks with
  | '?' :: '?' :: _ => none
  | '?' :: '.' :: d :: _ => if d.isDigit then some blanks else none
  | ['?', '.'] => none
  | '?' :: _ => some blanks
  | _ => none

/-- The first character behind the blanks of this line and of the next. -/
def behindLine (cs : List Char) : List Char :=
  let rest := cs.dropWhile isPlainBlank
  match rest with
  | c :: cs => if isLineSeparator c then cs.dropWhile isPlainBlank else rest
  | [] => []

/-- A line that is commented out by markup: the blanks in front of it, and its
length. -/
def markupComment? (cs : List Char) : Option (Nat × Nat) :=
  let blanks := (cs.takeWhile fun c => isPlainBlank c || isLineSeparator c).length
  let line (seen : Nat) (rest : List Char) : Option (Nat × Nat) :=
    some (blanks, seen + (rest.takeWhile fun c => !(endsLine c || isNul c)).length)
  match cs.drop blanks with
  | '<' :: '!' :: '-' :: '-' :: rest => line 4 rest
  | '-' :: '-' :: '>' :: rest => line 3 rest
  | _ => none

/-- The terminal that its surroundings show at position `i`, if it is wanted. -/
def surrounded? (terminals : Array Terminal) (t : Text) (wanted : Terminal → Bool)
    (i : Nat) : Option Found :=
  let here := t.rest i
  let found (terminal : Terminal) (blanks length : Nat) : Option Found :=
    some ⟨terminals.idxOf terminal, i + blanks, i + blanks + length⟩
  let question (skipped : Nat) : Option Found :=
    (questionMark? (here.drop skipped)).bind fun blanks =>
      found .questionMark (skipped + blanks) 1
  if wanted .templateText then
    if wanted .lineEnd then none
    else
      match templateText? 0 here with
      | some n => if n = 0 then none else found .templateText 0 n
      | none => none
  else
    let text : Option Found :=
      if wanted .elementText then
        match elementText 0 false false here with
        | (length, true) => found .elementText 0 length
        | (_, false) => none
      else none
    if text.isSome then text
    else if wanted .lineEnd then
      if LineEnd.onLine (!wanted (.mark "||")) here then found .lineEnd 0 0
      else if wanted .questionMark && (behindLine here).head? = some '?' then
        question (here.length - (behindLine here).length)
      else none
    else if wanted .questionMark then question 0
    else if wanted .markupComment && !wanted (.mark "||") && !wanted .escape
        && !wanted .regexBody then
      (markupComment? here).bind fun (blanks, length) => found .markupComment blanks length
    else none

end ScriptInventory.Script.Tolerant
