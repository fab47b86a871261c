import ScriptInventory.Script.Kind

/-!
# Rules

A grammar is a list of rules over terminals and constructs. A construct either
has a node of its own in the tree or is a mere part of the grammar; a rule may
also rename the node that a piece gives, put it into a role, and say how tightly
it binds. `Rule.alternatives` spells a rule out as plain sequences.
-/

namespace ScriptInventory.Script.Grammar

/-- What the lexer can find. -/
inductive Terminal where
  | endOfText
  /-- Punctuation, an operator or a keyword. -/
  | mark (text : String)
  /-- A fixed text with a kind of its own. -/
  | named (kind : Kind) (text : String)
  | word
  | number
  | privateName
  | comment
  | markupComment
  | hashBang
  /-- The words `static get` at the end of a line. -/
  | staticGet
  /-- The end of a statement that has no semicolon. -/
  | lineEnd
  /-- The question mark of a conditional expression. -/
  | questionMark
  -- inside quotes, templates and regular expressions
  | doubleText
  | singleText
  | escape
  | templateText
  | regexBody
  | regexClose
  | regexFlags
  -- inside markup elements
  | dashedName
  | reference
  | doubleMarkupText
  | singleMarkupText
  | elementText
deriving DecidableEq, Repr, Inhabited

/-- The kind of a terminal's node; some terminals have none. -/
def Terminal.kind? : Terminal → Option Kind
  | .endOfText | .staticGet | .lineEnd | .questionMark | .templateText | .regexClose => none
  | .mark text => some (.token text)
  | .named kind _ => some kind
  | .word | .dashedName => some .identifier
  | .number => some .number
  | .privateName => some .privatePropertyIdentifier
  | .comment => some .comment
  | .markupComment => some .markupComment
  | .hashBang => some .hashBangLine
  | .doubleText | .singleText | .doubleMarkupText | .singleMarkupText => some .stringFragment
  | .escape => some .escapeSequence
  | .regexBody => some .regexPattern
  | .regexFlags => some .regexFlags
  | .reference => some .characterReference
  | .elementText => some .elementText

/-- The parts of the grammar that have no node. -/
inductive Part where
  -- parts with rules that are put in their place
  | reservedName
  | semicolon
  | expressions
  | name
  | place
  | parameter
  | elementName
  | markupName
  | child
  | markup
  | attribute
  | attributeName
  | attributeValue
  -- parts that are recognised on their own
  | statement
  | declaration
  | expression
  | primary
  | pattern
  | source
  | moduleName
  | destructuring
  | initializer
  | loopHeader
  | markupString
  | combinedTarget
  | propertyName
  | dottedName
  | dottedDecorator
  | calledDecorator
  /-- One or more of the same; the number tells the repetitions apart. -/
  | repetition (index : Nat)
deriving DecidableEq, Repr, Inhabited

/-- The parts whose rules are put in their place. -/
def Part.isInline : Part → Bool
  | .reservedName | .semicolon | .expressions | .name | .place | .parameter | .elementName
  | .markupName | .child | .markup | .attribute | .attributeName | .attributeValue => true
  | _ => false

def Part.isRepetition : Part → Bool
  | .repetition _ => true
  | _ => false

/-- What a rule defines. -/
inductive Construct where
  | node (kind : Kind)
  | part (part : Part)
deriving DecidableEq, Repr, Inhabited

/-- What a rule is made of. -/
inductive Symbol where
  | terminal (t : Terminal)
  | construct (c : Construct)
deriving DecidableEq, Repr, Inhabited

/-- The levels at which pieces bind. -/
inductive Level where
  | member
  | templateCall
  | call
  | new
  | unary
  | power
  | product
  | sum
  | shift
  | relation
  | equality
  | bitAnd
  | bitXor
  | bitOr
  | and
  | or
  | condition
  | assign
  | declare
  | literal
  | object
deriving DecidableEq, Repr, Inhabited

/-- Which way pieces of one level group. -/
inductive Grouping where
  | left
  | right
deriving DecidableEq, Repr, Inhabited

/-- A rule of the grammar. -/
inductive Rule where
  | blank
  | symbol (s : Symbol)
  | seq (parts : List Rule)
  | choice (parts : List Rule)
  | many (body : Rule)
  | binds (level : Option Level) (grouping : Option Grouping) (body : Rule)
  | weighs (weight : Int) (body : Rule)
  | plays (role : Role) (body : Rule)
  | renames (kind : Kind) (body : Rule)
deriving Repr, Inhabited

namespace Rule

mutual

def same : Rule → Rule → Bool
  | .blank, .blank => true
  | .symbol s, .symbol t => s = t
  | .seq parts, .seq others | .choice parts, .choice others => sameAll parts others
  | .many body, .many other => same body other
  | .binds level grouping body, .binds level' grouping' other =>
    level = level' && grouping = grouping' && same body other
  | .weighs weight body, .weighs weight' other => weight = weight' && same body other
  | .plays role body, .plays role' other => role = role' && same body other
  | .renames kind body, .renames kind' other => kind = kind' && same body other
  | _, _ => false

/-- Whether two lists of rules are the same. -/
def sameAll : List Rule → List Rule → Bool
  | [], [] => true
  | r :: rest, o :: others => same r o && sameAll rest others
  | _, _ => false

end

instance : BEq Rule := ⟨same⟩

def opt (r : Rule) : Rule := .choice [r, .blank]

def rep (r : Rule) : Rule := opt (.many r)

/-- One or more pieces with commas between them. -/
def list1 (r : Rule) : Rule :=
  .seq [r, rep (.seq [.symbol (.terminal (.mark ",")), r])]

/-- Any number of pieces with commas between them. -/
def list (r : Rule) : Rule := opt (list1 r)

def node (kind : Kind) : Rule := .symbol (.construct (.node kind))

def part (p : Part) : Rule := .symbol (.construct (.part p))

def token (t : Terminal) : Rule := .symbol (.terminal t)

def oneOf (texts : List String) : Rule :=
  .choice (texts.map fun text => .symbol (.terminal (.mark text)))

end Rule

instance : Coe String Rule := ⟨fun text => .symbol (.terminal (.mark text))⟩

/-! ## Sequences -/

/-- One symbol of a sequence. -/
structure Step where
  symbol : Symbol
  level : Option Level
  grouping : Option Grouping
  renamed : Option Kind
  role : Option Role
deriving DecidableEq, Repr, Inhabited

/-- A sequence of symbols, with the weight that it has in a choice between two
readings of one text. -/
structure Sequence where
  steps : List Step
  weight : Int
deriving DecidableEq, Repr, Inhabited

/-- The weight that is further away from zero; the first one if neither is. -/
def heavier (a b : Int) : Int := if a.natAbs < b.natAbs then b else a

/-- Changes the last of several steps. -/
def onLast (f : Step → Step) (steps : List Step) : List Step :=
  match steps.reverse with
  | [] => []
  | last :: rest => (f last :: rest).reverse

/-- What the rules around a piece say about its steps. -/
structure Surrounding where
  level : Option Level := none
  grouping : Option Grouping := none
  renamed : Option Kind := none
  role : Option Role := none
deriving Inhabited

mutual

/-- The sequences that a rule stands for. `atEnd` says whether the piece ends the
whole rule: a level that ends earlier does not count for its last step. -/
def Rule.alternatives (around : Surrounding) (atEnd : Bool) : Rule → List Sequence
  | .blank => [⟨[], 0⟩]
  | .symbol s => [⟨[⟨s, around.level, around.grouping, around.renamed, around.role⟩], 0⟩]
  | .many _ => []
  | .seq parts => Rule.sequences around atEnd parts
  | .choice parts => Rule.choices around atEnd parts
  | .binds level grouping body =>
    let inner := { around with
      level := level.or (if grouping.isSome then none else around.level),
      grouping := grouping.or around.grouping }
    (body.alternatives inner atEnd).map fun q =>
      if atEnd then q
      else
        { q with steps := q.steps |> onLast fun s =>
            { s with level := around.level,
                     grouping := if grouping.isSome then around.grouping else s.grouping } }
  | .weighs weight body =>
    (body.alternatives around atEnd).map fun q =>
      { q with weight := heavier weight q.weight }
  | .plays role body => body.alternatives { around with role := some role } atEnd
  | .renames kind body => body.alternatives { around with renamed := some kind } atEnd

/-- The sequences of several pieces, one behind the other. -/
def Rule.sequences (around : Surrounding) (atEnd : Bool) : List Rule → List Sequence
  | [] => [⟨[], 0⟩]
  | r :: rest =>
    let heads := r.alternatives around (atEnd && rest.isEmpty)
    let tails := Rule.sequences around atEnd rest
    heads.flatMap fun h => tails.map fun t =>
      ⟨h.steps ++ t.steps, heavier h.weight t.weight⟩

/-- The sequences of several pieces, one or the other. -/
def Rule.choices (around : Surrounding) (atEnd : Bool) : List Rule → List Sequence
  | [] => []
  | r :: rest => r.alternatives around atEnd ++ Rule.choices around atEnd rest

end

end ScriptInventory.Script.Grammar
