import ScriptInventory.Script.Grammar.Rules
import ScriptInventory.Script.Plain.Token
import ScriptInventory.Symbol

/-!
# Canonical programs

A small language of declarations: classes with methods and fields, functions, and
variables that are bound to patterns of any depth. A program is given as a tree, apart
from any text. `textOf` prints it, and `Statement.declaredAll` says what it declares.
-/

namespace ScriptInventory.Canonical

open Script

/-! ## Names -/

/-- A character that may open a name. -/
def isNameStart (c : Char) : Bool := c.isAlpha || c = '_' || c = '$'

/-- A character that may stand inside a name. -/
def isNamePart (c : Char) : Bool := isNameStart c || c.isDigit

/-- Whether a text has the form of a name. -/
def isName : List Char → Bool
  | [] => false
  | c :: rest => isNameStart c && rest.all isNamePart

/-- The texts that the grammar fixes for some terminal, with all its words. -/
def fixedTexts : List String :=
  Grammar.terminals.filterMap fun t =>
    match t with
    | .mark text | .named _ text => some text
    | _ => none

/-- A name that is no word of the grammar. -/
structure Name where
  text : String
  isName : isName text.toList
  notFixed : text ∉ fixedTexts

/-! ## Trees -/

mutual

/-- What a variable is bound to. -/
inductive Target where
  | name (n : Name)
  | object (entries : List Entry)
  | array (elements : List Element)

/-- An entry of an object pattern; entries with a key and a name only may have a
default. -/
inductive Entry where
  | shorthand (n : Name) (hasDefault : Bool)
  | renamed (key : Name) (target : Target) (hasDefault : Bool)
  | rest (target : Target)

/-- An element of an array pattern. -/
inductive Element where
  | hole
  | item (target : Target) (hasDefault : Bool)
  | rest (target : Target)

end

/-- The words that bind variables. -/
inductive Binder where
  | let
  | const
  | var
deriving DecidableEq, Repr

mutual

/-- A declaration. -/
inductive Statement where
  | «class» (n : Name) (members : List Member)
  | function (n : Name) (body : List Statement)
  | variable (b : Binder) (target : Target)

/-- A member of a class. -/
inductive Member where
  | method (n : Name) (body : List Statement)
  | field (n : Name)

end

/-! ## What is declared -/

mutual

/-- The names that a target binds. Keys and defaults bind nothing. -/
def Target.bound : Target → List String
  | .name n => [n.text]
  | .object entries => Entry.boundAll entries
  | .array elements => Element.boundAll elements

def Entry.bound : Entry → List String
  | .shorthand n _ => [n.text]
  | .renamed _ target _ => target.bound
  | .rest target => target.bound

def Entry.boundAll : List Entry → List String
  | [] => []
  | e :: more => e.bound ++ Entry.boundAll more

def Element.bound : Element → List String
  | .hole => []
  | .item target _ => target.bound
  | .rest target => target.bound

def Element.boundAll : List Element → List String
  | [] => []
  | e :: more => e.bound ++ Element.boundAll more

end

/-- Names of the kind `own`, as names of the kind `k`. -/
def ofKind (own k : SymbolKind) (names : List String) : List String :=
  if own = k then names else []

mutual

/-- The names of a kind that a declaration declares, those inside it included, in the
order of the text. -/
def Statement.declared (k : SymbolKind) : Statement → List String
  | .class n members => ofKind .class k [n.text] ++ Member.declaredAll k members
  | .function n body => ofKind .function k [n.text] ++ Statement.declaredAll k body
  | .variable _ target => ofKind .variable k target.bound

/-- The names of a kind that several declarations declare. -/
def Statement.declaredAll (k : SymbolKind) : List Statement → List String
  | [] => []
  | s :: more => s.declared k ++ Statement.declaredAll k more

def Member.declared (k : SymbolKind) : Member → List String
  | .method n body => ofKind .method k [n.text] ++ Statement.declaredAll k body
  | .field n => ofKind .property k [n.text]

def Member.declaredAll (k : SymbolKind) : List Member → List String
  | [] => []
  | m :: more => m.declared k ++ Member.declaredAll k more

end

/-! ## Printing -/

/-- What a text is put together from. -/
inductive Piece where
  | blank
  | opener (o : Plain.Opener)
  | name (n : Name)
  /-- The number that stands for every value. -/
  | one
  | sign (c : Char) (isSign : Plain.isSign c := by decide)
  | dots

namespace Piece

/-- The word that opens a declaration. -/
def word : Plain.Opener → String
  | .class => "class"
  | .function => "function"
  | .let => "let"
  | .const => "const"
  | .var => "var"

def text : Piece → List Char
  | .blank => [' ']
  | .opener o => (word o).toList
  | .name n => n.text.toList
  | .one => ['1']
  | .sign c _ => [c]
  | .dots => ['.', '.', '.']

end Piece

/-- What stands between something and the items behind it, if there are any. -/
def between {α : Type} (pieces : List Piece) (more : List α) : List Piece :=
  if more.isEmpty then [] else pieces

def defaultPieces (hasDefault : Bool) : List Piece :=
  if hasDefault then [.blank, .sign '=', .blank, .one] else []

mutual

def Target.pieces : Target → List Piece
  | .name n => [.name n]
  | .object entries => [.sign '{', .blank] ++ Entry.piecesAll entries ++ [.blank, .sign '}']
  | .array elements => [.sign '['] ++ Element.piecesAll elements ++ [.sign ']']

def Entry.pieces : Entry → List Piece
  | .shorthand n hasDefault => [.name n] ++ defaultPieces hasDefault
  | .renamed key target hasDefault =>
    [.name key, .sign ':', .blank] ++ target.pieces ++ defaultPieces hasDefault
  | .rest target => [.dots] ++ target.pieces

/-- The pieces of entries, with commas between them. -/
def Entry.piecesAll : List Entry → List Piece
  | [] => []
  | e :: more => e.pieces ++ between [.sign ',', .blank] more ++ Entry.piecesAll more

/-- The pieces of elements, with commas between them. A hole always has a comma behind
it. -/
def Element.piecesAll : List Element → List Piece
  | [] => []
  | .hole :: more => [.sign ','] ++ between [.blank] more ++ Element.piecesAll more
  | .item target hasDefault :: more =>
    target.pieces ++ defaultPieces hasDefault ++ between [.sign ',', .blank] more ++
      Element.piecesAll more
  | .rest target :: more =>
    [.dots] ++ target.pieces ++ between [.sign ',', .blank] more ++ Element.piecesAll more

end

def Binder.opener : Binder → Plain.Opener
  | .let => .let
  | .const => .const
  | .var => .var

mutual

def Statement.pieces : Statement → List Piece
  | .class n members =>
    [.opener .class, .blank, .name n, .blank, .sign '{', .blank] ++
      Member.piecesAll members ++ [.blank, .sign '}']
  | .function n body =>
    [.opener .function, .blank, .name n, .sign '(', .sign ')', .blank, .sign '{', .blank] ++
      Statement.piecesAll body ++ [.blank, .sign '}']
  | .variable b target =>
    [.opener b.opener, .blank] ++ target.pieces ++ [.blank, .sign '=', .blank, .one, .sign ';']

/-- The pieces of declarations, with blanks between them. -/
def Statement.piecesAll : List Statement → List Piece
  | [] => []
  | s :: more => s.pieces ++ between [.blank] more ++ Statement.piecesAll more

def Member.pieces : Member → List Piece
  | .method n body =>
    [.name n, .sign '(', .sign ')', .blank, .sign '{', .blank] ++
      Statement.piecesAll body ++ [.blank, .sign '}']
  | .field n => [.name n, .blank, .sign '=', .blank, .one, .sign ';']

/-- The pieces of members, with blanks between them. -/
def Member.piecesAll : List Member → List Piece
  | [] => []
  | m :: more => m.pieces ++ between [.blank] more ++ Member.piecesAll more

end

def textOf (program : List Statement) : String :=
  String.ofList ((Statement.piecesAll program).flatMap Piece.text)

end ScriptInventory.Canonical
