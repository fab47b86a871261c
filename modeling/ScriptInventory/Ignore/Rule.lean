import ScriptInventory.Glob.Parse
import ScriptInventory.Text.WhiteSpace

/-!
# Rules of ignore files

A line of an ignore file is a rule: a glob for paths that are left out, or, behind an
exclamation mark, for paths that are kept after all. A glob without a slash holds
anywhere below the directory of the file, and one with a slash at its end holds for
directories only. Of the rules that hold for a path, the last one counts.
-/

namespace ScriptInventory.Ignore

/-- What rules say about a path. -/
inductive Verdict where
  | ignored
  | kept
deriving DecidableEq, Repr, Inhabited

/-- A rule of an ignore file. -/
structure Rule where
  glob : Glob
  verdict : Verdict
  onlyDirectories : Bool
deriving DecidableEq, Repr, Inhabited

/-- A text without the white space at its end. -/
def trimEnd (text : List Char) : List Char :=
  (text.reverse.dropWhile Text.isWhiteSpace).reverse

/-- A line without the white space at its end, unless a backslash keeps a space
there. -/
def lineBody (line : List Char) : List Char :=
  if "\\ ".toList.isSuffixOf line then line else trimEnd line

/-- What a rule starts with: its verdict, whether it is bound to the directory of the
file, and the rest. -/
def ruleHead (line : List Char) : Verdict × Bool × List Char :=
  match line with
  | '\\' :: '!' :: rest => (.ignored, false, '!' :: rest)
  | '\\' :: '#' :: rest => (.ignored, false, '#' :: rest)
  | _ =>
    let (verdict, line) := match line with
      | '!' :: rest => (Verdict.kept, rest)
      | _ => (.ignored, line)
    match line with
    | '/' :: rest => (verdict, true, rest)
    | _ => (verdict, false, line)

/-- Takes a slash off the end of a rule, and a backslash in front of it. -/
def withoutSlash (text : List Char) : Bool × List Char :=
  match text.reverse with
  | '/' :: '\\' :: rest => (true, rest.reverse)
  | '/' :: rest => (true, rest.reverse)
  | _ => (false, text)

def globText (isBound : Bool) (text : List Char) : List Char :=
  let text :=
    if isBound || text.contains '/' || text = ['*', '*'] then text
    else ['*', '*', '/'] ++ text
  if ['/', '*', '*'].isSuffixOf text then text ++ ['/', '*'] else text

/-- The rule of a line, if it has one. -/
def Rule.parse (lenient : Bool) (line : List Char) : Except Glob.GlobError (Option Rule) :=
  if line.head? = some '#' then .ok none
  else
    match lineBody line with
    | [] => .ok none
    | body => do
      let (verdict, isBound, text) := ruleHead body
      let (onlyDirectories, text) := withoutSlash text
      let glob ← Glob.parse lenient (globText isBound text)
      pure (some ⟨glob, verdict, onlyDirectories⟩)

/-- What some rules say about a path. The last rule that accepts the path decides, which is how
a rule makes an exception from those above it. -/
def verdict? (rules : List Rule) (path : List Char) (isDirectory : Bool) : Option Verdict :=
  (rules.reverse.find? fun r =>
    (!r.onlyDirectories || isDirectory) && r.glob.accepts path).map Rule.verdict

/-! ## Ignore files -/

/-- A line, latest byte first, without the carriage return at its end. -/
def withoutReturn : List UInt8 → List UInt8
  | 0x0D :: line => line
  | line => line

/-- The lines of a file, as bytes; a line ends with a line feed, and a carriage return
counts only in front of one. `line` is what has been seen of the first line, latest
first. -/
def byteLinesFrom (line : List UInt8) : List UInt8 → List (List UInt8)
  | [] => if line.isEmpty then [] else [line.reverse]
  | b :: rest =>
    if b = 0x0A then (withoutReturn line).reverse :: byteLinesFrom [] rest
    else byteLinesFrom (b :: line) rest

/-- The texts among lines, up to the first one that is none. Reading stops there, but what was
read before counts. -/
def textLines : List (List UInt8) → List (List Char)
  | [] => []
  | line :: rest =>
    match String.fromUTF8? ⟨line.toArray⟩ with
    | some text => text.toList :: textLines rest
    | none => []

def fileLines (content : ByteArray) : List (List Char) :=
  textLines (byteLinesFrom [] content.toList)

/-- The lines of an ignore file, in front of which a byte order mark does not count. -/
def ruleLines (content : ByteArray) : List (List Char) :=
  match fileLines content with
  | [] => []
  | first :: rest => first.dropWhile (· = '\uFEFF') :: rest

/-- The rules of an ignore file; lines that are none are left out. -/
def rulesOf (content : ByteArray) : List Rule :=
  (ruleLines content).filterMap fun line =>
    match Rule.parse true line with
    | .ok rule => rule
    | .error _ => none

end ScriptInventory.Ignore
