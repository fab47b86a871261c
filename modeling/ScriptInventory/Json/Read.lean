import ScriptInventory.Json.Token

/-!
# Reading JSON by what is expected

Readers for the shapes that a JSON text may be expected to have. A reader takes the
tokens it needs and refuses the text at the first thing that does not fit; members
that are not asked for are skipped.

A structure may be written as an object or as an array of its fields in order.
Fields that are left out keep their defaults, and a field that occurs twice is
refused.
-/

namespace ScriptInventory.Json

/-- The tokens that are left, and the spot behind the text. -/
structure Input where
  lexemes : List Lexeme
  finish : Spot
deriving Inhabited

/-- Why reading stopped. Some faults are only placed once the list or the object that
holds them has been left. -/
inductive Failure where
  | placed (fault : Fault)
  | pending (cause : Cause) (rest : Input)

/-- Reads something from the tokens that are left. -/
abbrev Reader (α : Type) := Input → Except Failure (α × Input)

namespace Input

def token? (i : Input) : Option Token := i.lexemes.head?.map Lexeme.token

def here (i : Input) : Spot := (i.lexemes.head?.map Lexeme.start).getD i.finish

/-- The spot behind the first byte of the next token. -/
def peek (i : Input) : Spot := (i.lexemes.head?.map Lexeme.peek).getD i.finish

def behind (i : Input) : Spot := (i.lexemes.head?.map Lexeme.stop).getD i.finish

def eat (i : Input) : Input := { i with lexemes := i.lexemes.drop 1 }

def refuse (i : Input) (cause : Cause) : Failure := .placed ⟨cause, i.peek⟩

/-- Refuses what comes next because something else is expected. A value is read as far
as that is needed to say what it is. -/
def wrongType (i : Input) (expected : String) : Failure :=
  let placed (found : Unexpected) (spot : Spot) : Failure :=
    .placed ⟨.invalidType found expected, spot⟩
  match i.token? with
  | some .null => placed .null i.behind
  | some (.bool b) => placed (.bool b) i.behind
  | some (.number (.ok n)) => placed (.number n) i.behind
  | some (.number (.error f)) => .placed f
  | some (.string (.ok s)) => placed (.string s) i.behind
  | some (.string (.error f)) => .placed f
  | some .openBracket => placed .sequence i.here
  | some .openBrace => placed .map i.here
  | some (.bad f) => .placed f
  | some _ => i.refuse .expectedValue
  | none => i.refuse .endInValue

/-- The spot at which reading stands once it has tried to leave a list. -/
def leaveList (i : Input) : Spot :=
  match i.token? with
  | some .closeBracket => i.behind
  | some .comma => i.eat.here
  | _ => i.here

/-- The spot at which reading stands once it has tried to leave an object. -/
def leaveObject (i : Input) : Spot :=
  match i.token? with
  | some .closeBrace => i.behind
  | _ => i.here

end Input

/-- Places a fault that waits for the list to be left. -/
def Failure.inList : Failure → Failure
  | .pending cause rest => .placed ⟨cause, rest.leaveList⟩
  | f => f

/-- Places a fault that waits for the object to be left. -/
def Failure.inObject : Failure → Failure
  | .pending cause rest => .placed ⟨cause, rest.leaveObject⟩
  | f => f

def onFailure {α : Type} (f : Failure → Failure) : Except Failure α → Except Failure α
  | .ok a => .ok a
  | .error e => .error (f e)

/-! ## Skipping -/

mutual

def skipValue : Nat → Input → Except Failure Input
  | 0, i => .error (i.refuse .endInValue)
  | fuel + 1, i =>
    match i.lexemes with
    | [] => .error (i.refuse .endInValue)
    | l :: _ =>
      match l.skipped with
      | some f => .error (.placed f)
      | none =>
        match l.token with
        | .openBracket => skipItems fuel true i.eat
        | .openBrace => skipMembers fuel true i.eat
        | _ => .ok i.eat

/-- Skips the items of a list and its end. -/
def skipItems : Nat → Bool → Input → Except Failure Input
  | 0, _, i => .error (i.refuse .endInList)
  | fuel + 1, first, i =>
    match i.token? with
    | none => .error (i.refuse .endInList)
    | some .closeBracket => .ok i.eat
    | some .comma =>
      if first then .error (i.refuse .expectedValue)
      else do skipItems fuel false (← skipValue fuel i.eat)
    | some _ =>
      if first then do skipItems fuel false (← skipValue fuel i)
      else .error (i.refuse .expectedCommaOrBracket)

/-- Skips the members of an object and its end. -/
def skipMembers : Nat → Bool → Input → Except Failure Input
  | 0, _, i => .error (i.refuse .endInObject)
  | fuel + 1, first, i =>
    match i.token? with
    | none => .error (i.refuse .endInObject)
    | some .closeBrace => .ok i.eat
    | some .comma =>
      if first then .error (i.refuse .keyMustBeString) else skipMember fuel i.eat
    | some _ =>
      if first then skipMember fuel i else .error (i.refuse .expectedCommaOrBrace)

/-- Skips a member of an object and what follows it. -/
def skipMember : Nat → Input → Except Failure Input
  | 0, i => .error (i.refuse .endInObject)
  | fuel + 1, i =>
    match i.lexemes with
    | [] => .error (i.refuse .endInObject)
    | l :: _ =>
      match l.token, l.skipped with
      | .string _, some f => .error (.placed f)
      | .string _, none =>
        let i := i.eat
        match i.token? with
        | none => .error (i.refuse .endInObject)
        | some .colon => do skipMembers fuel false (← skipValue fuel i.eat)
        | some _ => .error (i.refuse .expectedColon)
      | _, _ => .error (i.refuse .keyMustBeString)

end

def skip (i : Input) : Except Failure Input := skipValue (2 * i.lexemes.length + 2) i

/-! ## Plain values -/

def readString (expected : String) : Reader String := fun i =>
  match i.token? with
  | none => .error (i.refuse .endInValue)
  | some (.string (.ok s)) => .ok (s, i.eat)
  | _ => .error (i.wrongType expected)

def readText : Reader String := readString "a string"

def readBool : Reader Bool := fun i =>
  match i.token? with
  | none => .error (i.refuse .endInValue)
  | some (.bool b) => .ok (b, i.eat)
  | _ => .error (i.wrongType "a boolean")

/-- Reads a natural number of 64 bits. -/
def readNatural : Reader Nat := fun i =>
  match i.token? with
  | none => .error (i.refuse .endInValue)
  | some (.number (.ok (.natural n))) => .ok (n, i.eat)
  | some (.number (.ok (.negative n))) =>
    .error (.placed ⟨.invalidValue (.number (.negative n)) "u64", i.behind⟩)
  | _ => .error (i.wrongType "u64")

/-- Reads `null` where nothing else may stand. -/
def readNothing : Reader Unit := fun i =>
  match i.token? with
  | none => .error (i.refuse .endInValue)
  | some .null => .ok ((), i.eat)
  | _ => .error (i.wrongType "unit")

/-- Reads `null` or a value. -/
def readOptional {α : Type} (read : Reader α) : Reader (Option α) := fun i =>
  match i.token? with
  | some .null => .ok (none, i.eat)
  | _ => (read i).map fun (a, i) => (some a, i)

/-! ## Lists -/

/-- Moves to the next item of a list, if there is one. -/
def nextItem? (first : Bool) (i : Input) : Except Failure (Option Input) :=
  match i.token? with
  | none => .error (i.refuse .endInList)
  | some .closeBracket => .ok none
  | some .comma =>
    if first then .ok (some i)
    else
      match i.eat.token? with
      | none => .error (i.eat.refuse .endInValue)
      | some .closeBracket => .error (i.eat.refuse .trailingComma)
      | some _ => .ok (some i.eat)
  | some _ => if first then .ok (some i) else .error (i.refuse .expectedCommaOrBracket)

/-- Reads the items of a list up to its end. -/
def readItems {α : Type} (read : Reader α) : Nat → Bool → List α → Reader (List α)
  | 0, _, _, i => .error (i.refuse .endInList)
  | fuel + 1, first, found, i => do
    match ← nextItem? first i with
    | none => pure (found.reverse, i)
    | some i =>
      let (a, i) ← read i
      readItems read fuel false (a :: found) i

def endList (i : Input) : Except Failure Input :=
  match i.token? with
  | none => .error (i.refuse .endInList)
  | some .closeBracket => .ok i.eat
  | some .comma =>
    match i.eat.token? with
    | some .closeBracket => .error (i.eat.refuse .trailingComma)
    | _ => .error (i.eat.refuse .trailingCharacters)
  | some _ => .error (i.refuse .trailingCharacters)

def readList {α : Type} (read : Reader α) : Reader (List α) := fun i =>
  match i.token? with
  | none => .error (i.refuse .endInValue)
  | some .openBracket => onFailure Failure.inList do
    let (items, i) ← readItems read (i.lexemes.length + 1) true [] i.eat
    pure (items, ← endList i)
  | _ => .error (i.wrongType "a sequence")

/-! ## Objects -/

/-- Moves to the next key of an object, if there is one. -/
def nextKey? (first : Bool) (i : Input) : Except Failure (Option (String × Input)) :=
  let key (i : Input) : Except Failure (Option (String × Input)) :=
    match i.token? with
    | some (.string (.ok s)) => .ok (some (s, i.eat))
    | some (.string (.error f)) => .error (.placed f)
    | _ => .error (i.refuse .keyMustBeString)
  match i.token? with
  | none => .error (i.refuse .endInObject)
  | some .closeBrace => .ok none
  | some .comma =>
    if first then .error (i.refuse .keyMustBeString)
    else
      match i.eat.token? with
      | none => .error (i.eat.refuse .endInValue)
      | some .closeBrace => .error (i.eat.refuse .trailingComma)
      | some _ => key i.eat
  | some _ => if first then key i else .error (i.refuse .expectedCommaOrBrace)

def readColon (i : Input) : Except Failure Input :=
  match i.token? with
  | none => .error (i.refuse .endInObject)
  | some .colon => .ok i.eat
  | some _ => .error (i.refuse .expectedColon)

def endObject (i : Input) : Except Failure Input :=
  match i.token? with
  | none => .error (i.refuse .endInObject)
  | some .closeBrace => .ok i.eat
  | some .comma => .error (i.refuse .trailingComma)
  | some _ => .error (i.refuse .trailingCharacters)

/-- Reads the members of an object up to its end, with values of one sort. -/
def readEntries {α : Type} (read : Reader α) : Nat → Bool → List (String × α) →
    Reader (List (String × α))
  | 0, _, _, i => .error (i.refuse .endInObject)
  | fuel + 1, first, found, i => do
    match ← nextKey? first i with
    | none => pure (found.reverse, i)
    | some (key, i) =>
      let (a, i) ← read (← readColon i)
      readEntries read fuel false ((key, a) :: found) i

/-- Reads an object with values of one sort; all its members, in their order. -/
def readMap {α : Type} (read : Reader α) : Reader (List (String × α)) := fun i =>
  match i.token? with
  | none => .error (i.refuse .endInValue)
  | some .openBrace => onFailure Failure.inObject do
    let (entries, i) ← readEntries read (i.lexemes.length + 1) true [] i.eat
    pure (entries, ← endObject i)
  | _ => .error (i.wrongType "a map")

/-! ## Structures -/

/-- A field of a structure that is being read as a `σ`. -/
structure Field (σ : Type) where
  name : String
  isSet : σ → Bool
  read : σ → Reader σ

/-- Reads the members of a structure up to its end. -/
def readMembers {σ : Type} (fields : List (Field σ)) : Nat → Bool → σ → Reader σ
  | 0, _, _, i => .error (i.refuse .endInObject)
  | fuel + 1, first, s, i => do
    match ← nextKey? first i with
    | none => pure (s, i)
    | some (key, i) =>
      match fields.find? fun f => f.name = key with
      | none => readMembers fields fuel false s (← skip (← readColon i))
      | some field =>
        if field.isSet s then .error (.pending (.duplicateField key) i)
        else
          let (s, i) ← field.read s (← readColon i)
          readMembers fields fuel false s i

/-- Reads fields in their order from the items of a list, as far as there are any. -/
def readInOrder {σ : Type} : List (Field σ) → Bool → σ → Reader σ
  | [], _, s, i => .ok (s, i)
  | field :: rest, first, s, i => do
    match ← nextItem? first i with
    | none => pure (s, i)
    | some i =>
      let (s, i) ← field.read s i
      readInOrder rest false s i

def readStruct {σ : Type} (name : String) (fields : List (Field σ)) (empty : σ) :
    Reader σ := fun i =>
  match i.token? with
  | none => .error (i.refuse .endInValue)
  | some .openBracket => onFailure Failure.inList do
    let (s, i) ← readInOrder fields true empty i.eat
    pure (s, ← endList i)
  | some .openBrace => onFailure Failure.inObject do
    let (s, i) ← readMembers fields (i.lexemes.length + 1) true empty i.eat
    pure (s, ← endObject i)
  | _ => .error (i.wrongType ("struct " ++ name))

/-! ## Variants -/

/-- A variant: its name, and how it is read with content and without. -/
structure Variant (α : Type) where
  name : String
  withContent : Reader α
  alone : Except Cause α

def readVariantName {α : Type} (variants : List (Variant α)) : Reader (Variant α) := fun i => do
  let (name, rest) ← readString "variant identifier" i
  match variants.find? fun v => v.name = name with
  | some v => pure (v, rest)
  | none => .error (.placed ⟨.unknownVariant name (variants.map Variant.name), i.behind⟩)

/-- Reads one of several variants: its name, or an object with its name as the only
key. -/
def readVariant {α : Type} (variants : List (Variant α)) : Reader α := fun i =>
  match i.token? with
  | none => .error (i.refuse .endInValue)
  | some .openBrace => do
    let (v, i) ← readVariantName variants i.eat
    let (a, i) ← v.withContent (← readColon i)
    match i.token? with
    | some .closeBrace => pure (a, i.eat)
    | some _ => .error (.placed ⟨.expectedValue, i.here⟩)
    | none => .error (.placed ⟨.endInObject, i.here⟩)
  | some (.string _) => do
    let (v, i) ← readVariantName variants i
    match v.alone with
    | .ok a => pure (a, i)
    | .error cause => .error (.pending cause i)
  | some _ => .error (i.refuse .expectedValue)

/-! ## Whole texts -/

def readWhole {α : Type} (read : Reader α) (text : String) : Except Fault α :=
  let tokens := Tokens.ofText text
  match read ⟨tokens.lexemes, tokens.finish⟩ with
  | .error (.placed f) => .error f
  | .error (.pending cause rest) => .error ⟨cause, rest.here⟩
  | .ok (a, rest) =>
    if rest.lexemes.isEmpty then .ok a else .error ⟨.trailingCharacters, rest.peek⟩

end ScriptInventory.Json
