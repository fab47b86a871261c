import ScriptInventory.Corpus

/-!
# Reports as XML

The XML report of a corpus has an element for each kind of names and, if there are
any, one for the failures. Elements are indented by two spaces for each level; one
that holds only text stays on one line. Nothing but the five special characters is
escaped.
-/

namespace ScriptInventory.Report

/-- An element. -/
inductive Element where
  /-- An element with a text. -/
  | leaf (tag : String) (attributes : List (String × String)) (text : String)
  /-- An element with other elements. -/
  | group (tag : String) (children : List Element)
deriving Inhabited

/-- A character of a text or of the value of an attribute. -/
def xmlChar : Char → List Char
  | '<' => "&lt;".toList
  | '>' => "&gt;".toList
  | '&' => "&amp;".toList
  | '\'' => "&apos;".toList
  | '"' => "&quot;".toList
  | c => [c]

def xmlText (s : String) : List Char := s.toList.flatMap xmlChar

/-- The start of a line at some level. -/
def xmlLine (level : Nat) : List Char := '\n' :: List.replicate (2 * level) ' '

def attributeText (a : String × String) : List Char :=
  ' ' :: (a.1.toList ++ ['=', '"'] ++ xmlText a.2 ++ ['"'])

def openTag (tag : String) (attributes : List (String × String)) : List Char :=
  '<' :: (tag.toList ++ attributes.flatMap attributeText ++ ['>'])

def closeTag (tag : String) : List Char := ['<', '/'] ++ tag.toList ++ ['>']

mutual

/-- An element at some level, on lines of its own. -/
def Element.write (level : Nat) : Element → List Char
  | .leaf tag attributes text =>
    xmlLine level ++ openTag tag attributes ++ xmlText text ++ closeTag tag
  | .group tag children =>
    xmlLine level ++ openTag tag [] ++ writeElements (level + 1) children ++ xmlLine level
      ++ closeTag tag

def writeElements (level : Nat) : List Element → List Char
  | [] => []
  | e :: rest => e.write level ++ writeElements level rest

end

def xmlDeclaration : List Char := "<?xml version=\"1.0\" encoding=\"utf-8\"?>".toList

def symbolElement (name : String) : Element := .leaf "symbol" [] name

def kindElement (c : Corpus) (kind : SymbolKind) : Element :=
  .group kind.plural ((c.names kind).toList.map symbolElement)

/-- The element of a unit that failed. -/
def failureElement (f : UnitFailure) : Element :=
  .leaf "failure" [("source", f.source.display)] f.error

/-- The element of all failures, if there are any. -/
def failureElements (c : Corpus) : List Element :=
  if c.failures.isEmpty then [] else [.group "failures" (c.failures.map failureElement)]

def corpusElement (c : Corpus) : Element :=
  .group "inventory" (SymbolKind.all.map (kindElement c) ++ failureElements c)

def corpusXml (c : Corpus) : String :=
  String.ofList (xmlDeclaration ++ (corpusElement c).write 0)

end ScriptInventory.Report
