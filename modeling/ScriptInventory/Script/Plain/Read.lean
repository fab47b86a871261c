import ScriptInventory.Script.Node
import ScriptInventory.Script.Plain.Token

/-!
# Plain scripts

Texts that hold nothing but declarations: classes with methods and fields, functions,
and variables that are bound to names or patterns, where every value is a number, a
quoted text or a name. Such a text can be read by a descent that takes nothing back.
`read?` gives the syntax tree of a plain script; for any other text, sound or not, it
gives nothing.

All readers work on the tokens from some point on and give back those that they leave.
Their first argument bounds the number of calls that are open at one time.
-/

namespace ScriptInventory.Script.Plain

/-- What is read, and the tokens behind it. -/
abbrev Result (α : Type) := Option (α × List Token)

def value? : List Token → Result Node
  | ⟨.number text, p, _⟩ :: rest => some (.leaf .number p text, rest)
  | ⟨.quoted text, p, _⟩ :: rest => some (.leaf .string p text, rest)
  | ⟨.name text, p, _⟩ :: rest => some (.leaf .identifier p text, rest)
  | _ => none

/-! ## Patterns -/

/-- A target, and a default for it if there is one. -/
def withDefault? (target : Node) : List Token → Result Node
  | ⟨.sign '=', _, _⟩ :: rest =>
    (value? rest).map fun (value, rest) =>
      (.branch .assignmentPattern target.start [target.withRole .left, value], rest)
  | rest => some (target, rest)

mutual

def pattern? : Nat → List Token → Result Node
  | _ + 1, ⟨.name text, p, _⟩ :: rest => some (.leaf .identifier p text, rest)
  | n + 1, ⟨.sign '{', p, _⟩ :: rest =>
    (entries? n [] rest).map fun (nodes, rest) => (.branch .objectPattern p nodes, rest)
  | n + 1, ⟨.sign '[', p, _⟩ :: rest =>
    (elements? n [] rest).map fun (nodes, rest) => (.branch .arrayPattern p nodes, rest)
  | _, _ => none

/-- The entries of an object pattern and its closing brace; `seen` are the entries so
far, latest first. -/
def entries? : Nat → List Node → List Token → Result (List Node)
  | _ + 1, seen, ⟨.sign '}', _, _⟩ :: rest => some (seen.reverse, rest)
  | n + 1, seen, ⟨.dots, p, _⟩ :: rest =>
    match pattern? n rest with
    | some (target, rest) => moreEntries? n (.branch .restPattern p [target] :: seen) rest
    | none => none
  | n + 1, seen, ⟨.name key, p, _⟩ :: ⟨.sign ':', _, _⟩ :: rest =>
    match (pattern? n rest).bind fun (target, rest) => withDefault? target rest with
    | some (target, rest) =>
      moreEntries? n (.branch .pairPattern p
        [.leaf .propertyIdentifier p key, target.withRole .value] :: seen) rest
    | none => none
  | n + 1, seen, ⟨.name name, p, _⟩ :: ⟨.sign '=', _, _⟩ :: rest =>
    match value? rest with
    | some (value, rest) =>
      moreEntries? n (.branch .objectAssignmentPattern p
        [(Node.leaf .shorthandPropertyIdentifierPattern p name).withRole .left, value]
          :: seen) rest
    | none => none
  | n + 1, seen, ⟨.name name, p, _⟩ :: rest =>
    moreEntries? n (.leaf .shorthandPropertyIdentifierPattern p name :: seen) rest
  | _, _, _ => none

/-- Behind an entry of an object pattern. -/
def moreEntries? : Nat → List Node → List Token → Result (List Node)
  | n + 1, seen, ⟨.sign ',', _, _⟩ :: rest => entries? n seen rest
  | _ + 1, seen, ⟨.sign '}', _, _⟩ :: rest => some (seen.reverse, rest)
  | _, _, _ => none

/-- The elements of an array pattern and its closing bracket. An element may be left
out. -/
def elements? : Nat → List Node → List Token → Result (List Node)
  | _ + 1, seen, ⟨.sign ']', _, _⟩ :: rest => some (seen.reverse, rest)
  | n + 1, seen, ⟨.sign ',', _, _⟩ :: rest => elements? n seen rest
  | n + 1, seen, ⟨.dots, p, _⟩ :: rest =>
    match pattern? n rest with
    | some (target, rest) => moreElements? n (.branch .restPattern p [target] :: seen) rest
    | none => none
  | n + 1, seen, rest =>
    match (pattern? n rest).bind fun (target, rest) => withDefault? target rest with
    | some (element, rest) => moreElements? n (element :: seen) rest
    | none => none
  | _, _, _ => none

/-- Behind an element of an array pattern. -/
def moreElements? : Nat → List Node → List Token → Result (List Node)
  | n + 1, seen, ⟨.sign ',', _, _⟩ :: rest => elements? n seen rest
  | _ + 1, seen, ⟨.sign ']', _, _⟩ :: rest => some (seen.reverse, rest)
  | _, _, _ => none

end

/-! ## Variables -/

/-- The value of a variable, if it has one. -/
def initial? : List Token → Result (List Node)
  | ⟨.sign '=', _, _⟩ :: rest =>
    (value? rest).map fun (value, rest) => ([value.withRole .value], rest)
  | rest => some ([], rest)

/-- Behind the last variable of a declaration: a semicolon, or else the end of the
text, a closing brace, or another declaration on a new line. -/
def ending? : List Token → Option (List Token)
  | [] => some []
  | ⟨.sign ';', _, _⟩ :: rest => some rest
  | ⟨.sign '}', p, l⟩ :: rest => some (⟨.sign '}', p, l⟩ :: rest)
  | ⟨.opener o, p, true⟩ :: rest => some (⟨.opener o, p, true⟩ :: rest)
  | _ => none

def declarator? (n : Nat) (tokens : List Token) : Result Node :=
  (pattern? n tokens).bind fun (target, rest) =>
    (initial? rest).map fun (value, rest) =>
      (.branch .variableDeclarator target.start (target.withRole .name :: value), rest)

/-- The variables of a declaration and what ends it. -/
def declarators? : Nat → List Node → List Token → Result (List Node)
  | 0, _, _ => none
  | n + 1, seen, tokens =>
    match declarator? n tokens with
    | none => none
    | some (node, ⟨.sign ',', _, _⟩ :: rest) => declarators? n (node :: seen) rest
    | some (node, rest) => (ending? rest).map fun rest => ((node :: seen).reverse, rest)

/-- Whether a line ends in front of the first token. -/
def opensLine : List Token → Bool
  | t :: _ => t.newLine
  | [] => false

/-! ## Classes and functions -/

def key? : List Token → Result Node
  | ⟨.name text, p, _⟩ :: rest => some (.leaf .propertyIdentifier p text, rest)
  | ⟨.quoted text, p, _⟩ :: rest => some (.leaf .string p text, rest)
  | ⟨.number text, p, _⟩ :: rest => some (.leaf .number p text, rest)
  | _ => none

/-- Parameters, of which there are none, up to the brace that opens the body; the
nodes are the list of parameters and, from its statements, the body. -/
def head? : List Token → Result (List Node → List Node)
  | ⟨.sign '(', p, _⟩ :: ⟨.sign ')', _, _⟩ :: ⟨.sign '{', q, _⟩ :: rest =>
    some (fun body => [.branch .formalParameters p [], .branch .statementBlock q body], rest)
  | _ => none

/-- Behind a field: a semicolon, or the closing brace of the class. -/
def fieldEnding? : List Token → Option (List Token)
  | ⟨.sign ';', _, _⟩ :: rest => some rest
  | ⟨.sign '}', p, l⟩ :: rest => some (⟨.sign '}', p, l⟩ :: rest)
  | _ => none

def field? (key : Node) (tokens : List Token) : Result Node :=
  (initial? tokens).bind fun (value, rest) =>
    (fieldEnding? rest).map fun rest =>
      (.branch .fieldDefinition key.start (key.withRole .property :: value), rest)

mutual

/-- Declarations, up to the end of the text or a closing brace. -/
def statements? : Nat → List Node → List Token → Result (List Node)
  | _ + 1, seen, [] => some (seen.reverse, [])
  | _ + 1, seen, ⟨.sign '}', p, l⟩ :: rest => some (seen.reverse, ⟨.sign '}', p, l⟩ :: rest)
  | n + 1, seen, ⟨.opener .class, p, _⟩ :: ⟨.name name, q, _⟩ :: ⟨.sign '{', r, _⟩ :: rest =>
    match members? n [] rest with
    | some (body, rest) =>
      statements? n (.branch .classDeclaration p
        [(Node.leaf .identifier q name).withRole .name, .branch .classBody r body]
          :: seen) rest
    | none => none
  | n + 1, seen, ⟨.opener .function, p, _⟩ :: ⟨.name name, q, _⟩ :: rest =>
    match head? rest with
    | none => none
    | some (nodes, rest) =>
      match statements? n [] rest with
      | some (body, ⟨.sign '}', _, _⟩ :: rest) =>
        statements? n (.branch .functionDeclaration p
          ((Node.leaf .identifier q name).withRole .name :: nodes body) :: seen) rest
      | _ => none
  | n + 1, seen, ⟨.opener .var, p, _⟩ :: rest =>
    match declarators? n [] rest with
    | some (nodes, rest) => statements? n (.branch .variableDeclaration p nodes :: seen) rest
    | none => none
  | n + 1, seen, ⟨.opener .const, p, _⟩ :: rest =>
    match declarators? n [] rest with
    | some (nodes, rest) => statements? n (.branch .lexicalDeclaration p nodes :: seen) rest
    | none => none
  | n + 1, seen, ⟨.opener .let, p, _⟩ :: rest =>
    -- A line may end behind `let`, which is then a name and no opener.
    if opensLine rest then none
    else
      match declarators? n [] rest with
      | some (nodes, rest) => statements? n (.branch .lexicalDeclaration p nodes :: seen) rest
      | none => none
  | _, _, _ => none

/-- The members of a class and its closing brace. -/
def members? : Nat → List Node → List Token → Result (List Node)
  | _ + 1, seen, ⟨.sign '}', _, _⟩ :: rest => some (seen.reverse, rest)
  | n + 1, seen, tokens =>
    match key? tokens with
    | none => none
    | some (key, ⟨.sign '(', p, false⟩ :: rest) =>
      match head? (⟨.sign '(', p, false⟩ :: rest) with
      | none => none
      | some (nodes, rest) =>
        match statements? n [] rest with
        | some (body, ⟨.sign '}', _, _⟩ :: rest) =>
          members? n (.branch .methodDefinition key.start
            (key.withRole .name :: nodes body) :: seen) rest
        | _ => none
    | some (key, rest) =>
      match field? key rest with
      | some (node, rest) => members? n (node :: seen) rest
      | none => none
  | _, _, _ => none

end

/-! ## Whole texts -/

/-- The syntax tree of a plain script. At most two of the open calls start at the same
token, so twice the number of tokens bounds them. -/
def read? (text : String) : Option Node :=
  (tokens? text.toList).bind fun tokens =>
    let start := (tokens.head?.map Token.place).getD .start
    match statements? (2 * tokens.length + 2) [] tokens with
    | some (nodes, []) => some (.branch .program start nodes)
    | _ => none

end ScriptInventory.Script.Plain
