import ScriptInventory.Glob.Piece

/-!
# Reading globs

In a glob `?` stands for any byte and `*` for any bytes within a name, `[...]` for
bytes in ranges, `**` between slashes for any directories, and `{a,b}` for one of
several globs. A backslash makes the character behind it stand for itself. An empty
alternative counts only if there is no other one.
-/

namespace ScriptInventory.Glob

/-- Why a text is no glob. -/
inductive GlobError where
  | unclosedClass
  | invalidRange (first last : Char)
  | unopenedGroup
  | unclosedGroup
  | danglingEscape
deriving DecidableEq, Repr, Inhabited

/-- The message about a text that is no glob. -/
def GlobError.message : GlobError → String
  | .unclosedClass => "unclosed character class; missing ']'"
  | .invalidRange first last =>
    "invalid range; '" ++ first.toString ++ "' > '" ++ last.toString ++ "'"
  | .unopenedGroup =>
    "unopened alternate group; missing '\x7b' (maybe escape '\x7d' with '[\x7d]'?)"
  | .unclosedGroup =>
    "unclosed alternate group; missing '\x7d' (maybe escape '\x7b' with '[\x7b]'?)"
  | .danglingEscape => "dangling '\\'"

/-- A token of a glob. -/
inductive Token where
  /-- A character that stands for itself. -/
  | literal (c : Char)
  | piece (p : Piece)
  /-- One of several lists of pieces. -/
  | choice (options : List (List Piece))
deriving Inhabited

/-- The lists of pieces that a token stands for. -/
def Token.options : Token → List (List Piece)
  | .literal c => [(String.utf8EncodeChar c).map .byte]
  | .piece p => [[p]]
  | .choice options => options

/-- The lists of pieces that tokens stand for. -/
def expand : List Token → List (List Piece)
  | [] => [[]]
  | t :: rest => t.options.flatMap fun first => (expand rest).map fun more => first ++ more

/-- One of several branches; empty ones are left out. -/
def choose (branches : List (List Token)) : Token :=
  let options := (branches.flatMap expand).filter fun o => !o.isEmpty
  .choice (if options.isEmpty then [[]] else options)

/-! ## Character classes -/

/-- Both ends of a range of characters, as ranges of bytes. -/
def byteRanges (first last : Char) : List (UInt8 × UInt8) :=
  let a := String.utf8EncodeChar first
  let b := String.utf8EncodeChar last
  let alone (bytes : List UInt8) : List (UInt8 × UInt8) := bytes.map fun x => (x, x)
  if first = last then alone a
  else alone a.dropLast ++ [(a.getLast?.getD 0, b.head?.getD 0)] ++ alone b.tail

/-- A class while it is read: its ranges, latest first, and whether a dash waits for
the end of a range. -/
structure ClassState where
  ranges : List (Char × Char)
  inRange : Bool

def ClassState.add (s : ClassState) (c : Char) : Except GlobError ClassState :=
  match s.inRange, s.ranges with
  | true, (first, _) :: rest =>
    if c < first then .error (.invalidRange first c) else .ok ⟨(first, c) :: rest, false⟩
  | _, _ => .ok ⟨(c, c) :: s.ranges, false⟩

/-- The rest of a class behind its first character, and the text behind it; without
an end there is none. -/
def readClass (s : ClassState) : List Char → Except GlobError (Option (ClassState × List Char))
  | [] => .ok none
  | ']' :: rest =>
    .ok (some (if s.inRange then ⟨('-', '-') :: s.ranges, false⟩ else s, rest))
  | '-' :: rest =>
    if s.inRange then do readClass (← s.add '-') rest
    else readClass ⟨s.ranges, true⟩ rest
  | c :: rest => do readClass (← s.add c) rest

/-- The class behind an opening bracket, as a piece, and the text behind it. -/
def takeClass (text : List Char) : Except GlobError (Option (Piece × List Char)) := do
  let (negated, body) := match text with
    | '!' :: rest => (true, rest)
    | '^' :: rest => (true, rest)
    | _ => (false, text)
  match body with
  | [] => .ok none
  | c :: rest =>
    match ← readClass ⟨[(c, c)], false⟩ rest with
    | none => .ok none
    | some (s, rest) =>
      .ok (some (.oneOf negated (s.ranges.reverse.flatMap fun r => byteRanges r.1 r.2), rest))

/-! ## Globs -/

/-- A group of alternatives that is open: what stands in front of it, and its
branches so far. -/
structure Group where
  outer : List Token
  branches : List (List Token)

/-- A glob while it is read: the tokens of the current branch, latest first, the open
groups, the character in front, and whether brackets stand for themselves. -/
structure State where
  tokens : List Token
  groups : List Group
  behind : Option Char
  plainBrackets : Bool

/-- Adds a token; `c` is the last character of it. -/
def State.push (s : State) (t : Token) (c : Char) : State :=
  { s with tokens := t :: s.tokens, behind := some c }

/-- Two stars at a place where they do not stand for directories. -/
def State.twoRuns (s : State) : State := (s.push (.piece .run) '*').push (.piece .run) '*'

/-- Puts a piece for directories in place of the last token, unless that is one. -/
def State.pushDirectories (s : State) (p : Piece) (c : Char) : State :=
  match s.tokens with
  | .piece .leading :: _ => { s with behind := some c }
  | .piece .trailing :: _ => { s with behind := some c }
  | tokens => { s with tokens := .piece p :: tokens.drop 1, behind := some c }

/-- Whether two stars stand inside a name, given what is in front of them. -/
def State.isInName (s : State) : Bool :=
  s.behind != some '/' && (s.groups.isEmpty || (s.behind != some ',' && s.behind != some '{'))

/-- What two stars stand for, given the text behind them. -/
def State.twoStars (s : State) : List Char → State × List Char
  | [] =>
    if s.tokens.isEmpty then (s.push (.piece .leading) '*', [])
    else if s.isInName then (s.twoRuns, [])
    else (s.pushDirectories .trailing '*', [])
  | c :: rest =>
    if s.tokens.isEmpty then
      if c = '/' then (s.push (.piece .leading) '/', rest) else (s.twoRuns, c :: rest)
    else if s.isInName then (s.twoRuns, c :: rest)
    else if c = '/' then (s.pushDirectories .between '/', rest)
    else if (c = ',' || c = '}') && !s.groups.isEmpty then
      (s.pushDirectories .trailing '*', c :: rest)
    else (s.twoRuns, c :: rest)

/-- Reads a glob to its end. With `lenient`, a bracket without an end stands for
itself. -/
def readGlob (lenient : Bool) : Nat → State → List Char → Except GlobError (List Token)
  | 0, _, _ => .ok []
  | _ + 1, s, [] => if s.groups.isEmpty then .ok s.tokens.reverse else .error .unclosedGroup
  | fuel + 1, s, c :: rest =>
    match c with
    | '?' => readGlob lenient fuel (s.push (.piece .one) c) rest
    | '*' =>
      match rest with
      | '*' :: rest =>
        let (s, rest) := s.twoStars rest
        readGlob lenient fuel s rest
      | _ => readGlob lenient fuel (s.push (.piece .run) c) rest
    | '{' =>
      readGlob lenient fuel
        { s with tokens := [], groups := ⟨s.tokens, []⟩ :: s.groups, behind := some c } rest
    | '}' =>
      match s.groups with
      | [] => .error .unopenedGroup
      | g :: groups =>
        let t := choose (g.branches ++ [s.tokens.reverse])
        readGlob lenient fuel
          { s with tokens := t :: g.outer, groups := groups, behind := some c } rest
    | ',' =>
      match s.groups with
      | [] => readGlob lenient fuel (s.push (.literal c) c) rest
      | g :: groups =>
        let g : Group := { g with branches := g.branches ++ [s.tokens.reverse] }
        readGlob lenient fuel { s with tokens := [], groups := g :: groups, behind := some c } rest
    | '\\' =>
      match rest with
      | [] => .error .danglingEscape
      | d :: rest => readGlob lenient fuel (s.push (.literal d) d) rest
    | '[' =>
      if s.plainBrackets then readGlob lenient fuel (s.push (.literal c) c) rest
      else
        match takeClass rest with
        | .error e => .error e
        | .ok (some (p, rest)) => readGlob lenient fuel (s.push (.piece p) ']') rest
        | .ok none =>
          if lenient then
            readGlob lenient fuel { s.push (.literal c) c with plainBrackets := true } rest
          else .error .unclosedClass
    | _ => readGlob lenient fuel (s.push (.literal c) c) rest

end ScriptInventory.Glob

namespace ScriptInventory

/-- A glob: the lists of pieces of which one has to match. -/
structure Glob where
  options : List (List Glob.Piece)
deriving DecidableEq, Repr, Inhabited

namespace Glob

/-- The glob of some tokens. Two stars alone stand for anything. -/
def ofTokens : List Token → Glob
  | [.piece .leading] => ⟨[[.leading], [.leading, .run]]⟩
  | tokens => ⟨expand tokens⟩

def parse (lenient : Bool) (text : List Char) : Except GlobError Glob :=
  (readGlob lenient (text.length + 1) ⟨[], [], none, false⟩ text).map ofTokens

def accepts (g : Glob) (path : List Char) : Bool :=
  let bytes := utf8 path
  g.options.any fun pieces => matchPieces pieces bytes

end Glob

end ScriptInventory
