import ScriptInventory.Json.Token

/-!
# Reading any JSON

A JSON text as a value. Nesting is limited to 127 levels.
-/

namespace ScriptInventory.Json

/-- How deep lists and objects may be nested, as reading goes down into them. -/
def deepest : Nat := 127

mutual

/-- The value that some tokens start with, and the tokens behind it. -/
def parseValue : Nat → Nat → List Lexeme → Option (Value × List Lexeme)
  | 0, _, _ => none
  | fuel + 1, depth, lexemes =>
    match lexemes with
    | [] => none
    | l :: rest =>
      match l.token with
      | .null => some (.null, rest)
      | .bool b => some (.bool b, rest)
      | .number (.ok n) => some (.number n, rest)
      | .string (.ok s) => some (.string s, rest)
      | .openBracket =>
        if depth = 0 then none
        else
          match rest.head?.map Lexeme.token with
          | some .closeBracket => some (.array [], rest.drop 1)
          | _ => (parseItems fuel (depth - 1) rest).map fun (vs, rest) => (.array vs, rest)
      | .openBrace =>
        if depth = 0 then none
        else
          match rest.head?.map Lexeme.token with
          | some .closeBrace => some (.object [], rest.drop 1)
          | _ => (parseMembers fuel (depth - 1) rest).map fun (ms, rest) => (.object ms, rest)
      | _ => none

/-- The items of a list that is not empty, and the tokens behind its end. -/
def parseItems : Nat → Nat → List Lexeme → Option (List Value × List Lexeme)
  | 0, _, _ => none
  | fuel + 1, depth, lexemes =>
    match parseValue fuel depth lexemes with
    | none => none
    | some (v, rest) =>
      match rest.head?.map Lexeme.token with
      | some .closeBracket => some ([v], rest.drop 1)
      | some .comma =>
        (parseItems fuel depth (rest.drop 1)).map fun (vs, rest) => (v :: vs, rest)
      | _ => none

/-- The members of an object that is not empty, and the tokens behind its end. -/
def parseMembers : Nat → Nat → List Lexeme → Option (List (String × Value) × List Lexeme)
  | 0, _, _ => none
  | fuel + 1, depth, lexemes =>
    match lexemes.head?.map Lexeme.token, (lexemes.drop 1).head?.map Lexeme.token with
    | some (.string (.ok key)), some .colon =>
      match parseValue fuel depth (lexemes.drop 2) with
      | none => none
      | some (v, rest) =>
        match rest.head?.map Lexeme.token with
        | some .closeBrace => some ([(key, v)], rest.drop 1)
        | some .comma =>
          (parseMembers fuel depth (rest.drop 1)).map fun (ms, rest) => ((key, v) :: ms, rest)
        | _ => none
    | _, _ => none

end

def parse? (text : String) : Option Value :=
  let tokens := Tokens.ofText text
  match parseValue (2 * tokens.lexemes.length + 2) deepest tokens.lexemes with
  | some (v, []) => some v
  | _ => none

end ScriptInventory.Json
