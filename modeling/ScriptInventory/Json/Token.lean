import ScriptInventory.Json.Fault

/-!
# Tokens of JSON

A JSON text as a list of tokens with their positions. Reading a text depends on
what is expected in it: an item that nobody asks for is skipped with fewer checks
than one that is used. So a token keeps both what is wrong with it when it is used
and what is wrong with it when it is skipped. Behind a token that cannot even be
skipped there are no more tokens.
-/

namespace ScriptInventory.Json

/-- A token of JSON. -/
inductive Token where
  | openBrace
  | closeBrace
  | openBracket
  | closeBracket
  | comma
  | colon
  | null
  | bool (b : Bool)
  | number (value : Except Fault Number)
  | string (value : Except Fault String)
  /-- Something that starts no value, or a word that breaks off. -/
  | bad (fault : Fault)
deriving Inhabited

/-- A token with its positions: where it starts, behind its first byte, and behind
it. -/
structure Lexeme where
  token : Token
  start : Spot
  peek : Spot
  stop : Spot
  /-- What is wrong with the token if it is skipped. -/
  skipped : Option Fault
deriving Inhabited

def isBlank (c : Char) : Bool := c = ' ' || c = '\n' || c = '\t' || c = '\r'

/-! ## Numbers -/

open ScriptInventory.Number (Binary)

/-- The largest significand that is kept exactly. -/
def mostSignificand : Nat := Nat.pow 2 64 - 1

def digitOf (c : Char) : Nat := c.toNat - '0'.toNat

/-- Adds digits to a significand as long as they fit; also gives the digits that do
not. -/
def addDigits (significand : Nat) : List Char → Nat × List Char
  | [] => (significand, [])
  | c :: rest =>
    let more := 10 * significand + digitOf c
    if mostSignificand < more then (significand, c :: rest) else addDigits more rest

/-- The product of a number with a power of ten, which is itself rounded, or the
quotient if the exponent is negative; each step is rounded. Without a result the
number is out of range. -/
def scale : Nat → Binary → Int → Option Binary
  | 0, b, _ => some b
  | fuel + 1, b, exponent =>
    let power (n : Nat) : Binary := (Binary.nearest? (Nat.pow 10 n) 1).getD ⟨0, 0⟩
    let (num, den) := b.fraction
    let divided (n : Nat) : Binary :=
      let (pn, pd) := (power n).fraction
      (Binary.nearest? (num * pd) (den * pn)).getD ⟨0, 0⟩
    if exponent.natAbs ≤ 308 then
      if 0 ≤ exponent then
        let (pn, pd) := (power exponent.natAbs).fraction
        Binary.nearest? (num * pn) (den * pd)
      else some (divided exponent.natAbs)
    else if b.mantissa = 0 then some b
    else if 0 ≤ exponent then none
    else scale fuel (divided 308) (exponent + 308)

/-- The float `significand * 10 ^ exponent`, unless it is out of range. -/
def floatOf (isNegative : Bool) (significand : Nat) (exponent : Int) : Option Number :=
  let b := (Binary.nearest? significand 1).getD ⟨0, 0⟩
  -- Far below the smallest number the rounding steps all give zero.
  let exponent := max exponent (-100000)
  (scale 400 b exponent).map (.float isNegative)

/-- The parts of a number as it is written. -/
structure Written where
  isNegative : Bool
  whole : List Char
  /-- The digits behind the point, if there is one. -/
  part : Option (List Char)
  /-- The sign and the digits of the exponent, if there is one. -/
  exponent : Option (Bool × List Char)

/-- The largest exponent that is computed with. -/
def mostExponent : Nat := Nat.pow 2 31 - 1

/-- The value of a number. Digits beyond 64 bits count for the size only. -/
def Written.value? (w : Written) : Option Number :=
  let (significand, dropped) := addDigits 0 w.whole
  match dropped, w.part, w.exponent with
  | [], none, none =>
    if w.isNegative then
      if significand = 0 || Nat.pow 2 63 < significand then
        floatOf true significand 0
      else some (.negative significand)
    else some (.natural significand)
  | _, _, _ =>
    let part := w.part.getD []
    let (significand, lost) := addDigits significand part
    let before : Int := (dropped.length : Int) - (part.length - lost.length : Nat)
    let exponent : Int := match w.exponent with
      | none => 0
      | some (isNegative, digits) =>
        let e : Int := digits.foldl (fun n c => 10 * n + digitOf c) 0
        if isNegative then 0 - e else e
    floatOf w.isNegative significand (before + exponent)

/-- How many digits of an exponent there are up to the one that makes it too large
to be computed with. -/
def exponentLimit (seen value : Nat) : List Char → Option Nat
  | [] => none
  | c :: rest =>
    let more := 10 * value + digitOf c
    if mostExponent < more then some (seen + 1) else exponentLimit (seen + 1) more rest

/-- A number that is well formed, `length` characters long, as a token. -/
def numberToken (w : Written) (s : Spot) (length : Nat) : Token :=
  let plain := match w.value? with
    | some n => .ok n
    | none => .error ⟨.numberOutOfRange, s.right length⟩
  match w.exponent with
  | none => .number plain
  | some (isNegative, digits) =>
    match exponentLimit 0 0 digits with
    | none => .number plain
    | some n =>
      let isZero := (w.whole ++ w.part.getD []).all (· = '0')
      if isNegative || isZero then .number (.ok (.float w.isNegative ⟨0, 0⟩))
      else .number (.error ⟨.numberOutOfRange, s.right (length - digits.length + n)⟩)

/-- What reading a token gives: the token, what is wrong if it is skipped, and what
follows it. -/
structure Taken where
  token : Token
  skipped : Option Fault
  length : Nat
deriving Inhabited

/-- A number that breaks off: what is wrong if it is used, and if it is skipped. -/
def brokenNumber (used skipped : Fault) : Taken := ⟨.number (.error used), some skipped, 0⟩

/-- The number that a text starts with. -/
def takeNumber (s : Spot) (text : List Char) : Taken :=
  let isNegative := text.head? = some '-'
  let sign := if isNegative then 1 else 0
  let rest := text.drop sign
  let whole := rest.takeWhile Char.isDigit
  let behindWhole := rest.drop whole.length
  let spot (n : Nat) : Spot := s.right n
  match whole with
  | [] =>
    match rest with
    | [] => brokenNumber ⟨.endInValue, spot sign⟩ ⟨.invalidNumber, spot sign⟩
    | c :: _ =>
      let f : Fault := ⟨.invalidNumber, (spot sign).next c⟩
      brokenNumber f f
  | '0' :: _ :: _ =>
    let f : Fault := ⟨.invalidNumber, spot (sign + 2)⟩
    brokenNumber f f
  | _ =>
    let seen := sign + whole.length
    match behindWhole with
    | '.' :: rest =>
      let part := rest.takeWhile Char.isDigit
      let behind := rest.drop part.length
      if part.isEmpty then
        let peek := (spot (seen + 1)).peek behind
        brokenNumber ⟨if behind.isEmpty then .endInValue else .invalidNumber, peek⟩
          ⟨.invalidNumber, peek⟩
      else
        withExponent s ⟨isNegative, whole, some part, none⟩ (seen + 1 + part.length) behind
    | rest => withExponent s ⟨isNegative, whole, none, none⟩ seen rest
where
  /-- Behind the digits of a number: its exponent, if there is one. -/
  withExponent (s : Spot) (w : Written) (seen : Nat) (text : List Char) : Taken :=
    let read (rest : List Char) : Taken :=
      let (isNegative, signed, rest) := match rest with
        | '+' :: rest => (false, 1, rest)
        | '-' :: rest => (true, 1, rest)
        | rest => (false, 0, rest)
      let seen := seen + 1 + signed
      let digits := rest.takeWhile Char.isDigit
      match digits, rest with
      | [], [] => brokenNumber ⟨.endInValue, s.right seen⟩ ⟨.invalidNumber, s.right seen⟩
      | [], c :: _ =>
        let f : Fault := ⟨.invalidNumber, (s.right seen).next c⟩
        brokenNumber f f
      | digits, _ =>
        let length := seen + digits.length
        ⟨numberToken { w with exponent := some (isNegative, digits) } s length, none, length⟩
    match text with
    | 'e' :: rest => read rest
    | 'E' :: rest => read rest
    | _ => ⟨numberToken w s seen, none, seen⟩

/-! ## Strings -/

/-- The value of a hexadecimal digit. -/
def hexValue? (c : Char) : Option Nat :=
  if c.isDigit then some (c.toNat - '0'.toNat)
  else if 'a' ≤ c && c ≤ 'f' then some (c.toNat - 'a'.toNat + 10)
  else if 'A' ≤ c && c ≤ 'F' then some (c.toNat - 'A'.toNat + 10)
  else none

/-- What four hexadecimal digits give: their value, or what is wrong. -/
def fourDigits (s : Spot) (text : List Char) : Except Fault (Nat × List Char) :=
  let bytes := (text.take 4).foldl (fun n c => n + c.utf8Size) 0
  match text with
  | a :: b :: c :: d :: rest =>
    match hexValue? a, hexValue? b, hexValue? c, hexValue? d with
    | some a, some b, some c, some d => .ok (((16 * a + b) * 16 + c) * 16 + d, rest)
    | _, _, _, _ => .error ⟨.invalidEscape, s.afterBytes 4 text⟩
  | _ =>
    if 4 ≤ bytes then .error ⟨.invalidEscape, s.afterBytes 4 text⟩
    else .error ⟨.endInString, s.afterBytes bytes text⟩

/-- Whether a number is the first half of a pair of surrogates. -/
def isHighSurrogate (n : Nat) : Bool := 0xD800 ≤ n && n ≤ 0xDBFF
/-- Whether a number is the second half of a pair of surrogates. -/
def isLowSurrogate (n : Nat) : Bool := 0xDC00 ≤ n && n ≤ 0xDFFF

/-- A string while it is read: its characters so far, latest first, unless something
is wrong with it that skipping does not mind. -/
structure StringState where
  seen : List Char
  fault : Option Fault

def StringState.push (t : StringState) (c : Char) : StringState := { t with seen := c :: t.seen }

/-- Notes a fault, unless there is one. -/
def StringState.fail (t : StringState) (f : Fault) : StringState :=
  { t with fault := t.fault.or (some f) }

def brokenString (t : StringState) (used skipped : Fault) : Taken :=
  ⟨.string (.error (t.fault.getD used)), some skipped, 0⟩

/-- Behind the first half of a pair of surrogates: the fault that stands in place of
the second half, or the character of the pair. -/
def secondHalf (s : Spot) (high : Nat) (text : List Char) : Except Fault (Char × List Char) :=
  match text with
  | [] => .error ⟨.endInString, s⟩
  | '\\' :: [] => .error ⟨.endInString, s.right 1⟩
  | '\\' :: 'u' :: rest =>
    match fourDigits (s.right 2) rest with
    | .error f => .error f
    | .ok (low, rest) =>
      if isLowSurrogate low then
        .ok (Char.ofNat (0x10000 + (high - 0xD800) * 0x400 + (low - 0xDC00)), rest)
      else .error ⟨.loneSurrogate, s.right 6⟩
  | '\\' :: rest => .error ⟨.unfinishedPair, (s.right 1).peek rest⟩
  | rest => .error ⟨.unfinishedPair, s.peek rest⟩

/-- The character of a simple escape. -/
def simpleEscape? : Char → Option Char
  | '"' => some '"'
  | '\\' => some '\\'
  | '/' => some '/'
  | 'b' => some '\x08'
  | 'f' => some '\x0c'
  | 'n' => some '\n'
  | 'r' => some '\r'
  | 't' => some '\t'
  | _ => none

/-- The rest of a string behind its opening quote; `length` characters of it have
been read. -/
def takeString (t : StringState) (length : Nat) : Nat → Spot → List Char → Taken
  | 0, s, _ => brokenString t ⟨.endInString, s⟩ ⟨.endInString, s⟩
  | _ + 1, s, [] => brokenString t ⟨.endInString, s⟩ ⟨.endInString, s⟩
  | fuel + 1, s, c :: rest =>
    if c = '"' then
      let value := match t.fault with
        | some f => .error f
        | none => .ok (String.ofList t.seen.reverse)
      ⟨.string value, none, length + 1⟩
    else if c = '\\' then
      match rest with
      | [] => brokenString t ⟨.endInString, s.right 1⟩ ⟨.endInString, s.right 1⟩
      | 'u' :: rest =>
        let behind := s.right 2
        match fourDigits behind rest with
        | .error f => brokenString t f f
        | .ok (n, rest) =>
          let behind := behind.right 4
          if isLowSurrogate n then
            takeString (t.fail ⟨.loneSurrogate, behind⟩) (length + 6) fuel behind rest
          else if isHighSurrogate n then
            match secondHalf behind n rest with
            | .ok (c, rest) =>
              takeString (t.push c) (length + 12) fuel (behind.right 6) rest
            | .error f => takeString (t.fail f) (length + 6) fuel behind rest
          else takeString (t.push (Char.ofNat n)) (length + 6) fuel behind rest
      | c :: rest =>
        match simpleEscape? c with
        | some c => takeString (t.push c) (length + 2) fuel (s.right 2) rest
        | none =>
          let f : Fault := ⟨.invalidEscape, (s.right 1).peek (c :: rest)⟩
          brokenString t f f
    else if c.toNat < 0x20 then
      brokenString t ⟨.controlCharacter, s.next c⟩ ⟨.controlCharacter, s⟩
    else takeString (t.push c) (length + 1) fuel (s.next c) rest

/-! ## Words and marks -/

/-- Compares a text with the rest of a word. -/
def wordFault? (s : Spot) : List Char → List Char → Option Fault
  | [], _ => none
  | _ :: _, [] => some ⟨.endInValue, s⟩
  | a :: word, c :: rest =>
    if a = c then wordFault? (s.right 1) word rest else some ⟨.expectedWord, s.peek (c :: rest)⟩

def takeWord (s : Spot) (word : List Char) (token : Token) (text : List Char) : Taken :=
  match wordFault? (s.right 1) (word.drop 1) (text.drop 1) with
  | none => ⟨token, none, word.length⟩
  | some f => ⟨.bad f, some f, 0⟩

/-- The token that a text starts with. -/
def takeToken (s : Spot) (text : List Char) : Taken :=
  let mark (t : Token) : Taken :=
    ⟨t, some ⟨.expectedValue, s.peek text⟩, 1⟩
  match text with
  | '{' :: _ => ⟨.openBrace, none, 1⟩
  | '[' :: _ => ⟨.openBracket, none, 1⟩
  | '}' :: _ => mark .closeBrace
  | ']' :: _ => mark .closeBracket
  | ',' :: _ => mark .comma
  | ':' :: _ => mark .colon
  | 'n' :: _ => takeWord s "null".toList .null text
  | 't' :: _ => takeWord s "true".toList (.bool true) text
  | 'f' :: _ => takeWord s "false".toList (.bool false) text
  | '"' :: rest =>
    takeString ⟨[], none⟩ 1 (rest.length + 1) (s.right 1) rest
  | c :: _ =>
    if c = '-' || c.isDigit then takeNumber s text
    else
      let f : Fault := ⟨.expectedValue, s.peek text⟩
      ⟨.bad f, some f, 0⟩
  | [] => default

/-- A text in tokens, and the spot behind it. -/
structure Tokens where
  lexemes : List Lexeme
  finish : Spot
deriving Inhabited

/-- Reads tokens up to the end of a text, or to one that breaks off. -/
def lex : Nat → List Lexeme → Spot → List Char → Tokens
  | 0, seen, s, _ => ⟨seen.reverse, s⟩
  | _ + 1, seen, s, [] => ⟨seen.reverse, s⟩
  | fuel + 1, seen, s, c :: rest =>
    if isBlank c then lex fuel seen (s.next c) rest
    else
      let taken := takeToken s (c :: rest)
      let stop := ((c :: rest).take taken.length).foldl Spot.next s
      let lexeme : Lexeme := ⟨taken.token, s, s.peek (c :: rest), stop, taken.skipped⟩
      if taken.length = 0 then ⟨(lexeme :: seen).reverse, stop⟩
      else lex fuel (lexeme :: seen) stop ((c :: rest).drop taken.length)

def Tokens.ofText (text : String) : Tokens :=
  let chars := text.toList
  lex (chars.length + 1) [] .start chars

end ScriptInventory.Json
