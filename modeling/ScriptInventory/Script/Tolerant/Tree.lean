import ScriptInventory.Script.Grammar.Automaton
import ScriptInventory.Script.Node
import ScriptInventory.Script.Tolerant.Lexer

/-!
# Trees of damaged texts

The trees that the tolerant reader builds. Text that fits nowhere is under an
`error`, and a terminal that the text lacks is a `missing` leaf. Every tree knows
what the damage in it costs, so that of two readings the one with less damage can
be taken. `Tree.toNode` turns a finished tree into a syntax tree, in which the
parts of the grammar have no nodes.
-/

namespace ScriptInventory.Script.Tolerant

open Grammar

/-- What the reader works with. -/
structure Context where
  automaton : Automaton
  text : Text

/-! ## Costs -/

def recoveryCost : Nat := 500
/-- What a missing terminal costs, beside being damage. -/
def missingCost : Nat := 110
/-- What every tree costs that damage swallows. -/
def swallowedCost : Nat := 100
/-- What every byte costs that damage swallows. -/
def byteCost : Nat := 1
/-- What every line costs that damage swallows. -/
def lineCost : Nat := 30

/-- What the text between two positions costs if it is swallowed. -/
def Text.cost (t : Text) (i j : Nat) : Nat :=
  byteCost * t.bytesBetween i j + lineCost * t.linesBetween i j

/-! ## Trees -/

/-- What a tree stands for. -/
inductive Label where
  | terminal (index : Nat)
  | construct (index : Nat)
  | error
  /-- A stretch of swallowed trees that may still grow. -/
  | swallowed
deriving DecidableEq, Repr, Inhabited

def Label.isDamage : Label → Bool
  | .error | .swallowed => true
  | _ => false

/-- A tree. It covers the text from `start` to `stop`, and `reach` is where the gap
in front of it starts. -/
structure Tree where
  label : Label
  children : List Tree
  production : Option Nat
  reach : Nat
  start : Nat
  stop : Nat
  extra : Bool
  missing : Bool
  keyword : Bool
  visible : Bool
  /-- What the damage below costs. -/
  damage : Nat
  weight : Int
  /-- The number of visible children, hidden children being transparent. -/
  shown : Nat
  /-- The number of visible trees below. -/
  shownBelow : Nat
deriving Repr, Inhabited

/-- Whether a construct has nodes, under its own name or another one. -/
def isVisible : Construct → Bool
  | .node _ => true
  | .part .dottedName | .part .dottedDecorator | .part .calledDecorator => true
  | .part _ => false

/-- Whether trees with this label are visible. -/
def Label.isVisible (x : Context) : Label → Bool
  | .terminal n => (x.automaton.grammar.terminals[n]?).any fun t => t.kind?.isSome
  | .construct n => (x.automaton.grammar.constructs[n]?).any Tolerant.isVisible
  | .error => true
  | .swallowed => false

namespace Tree

def cost (t : Tree) : Nat := if t.missing then missingCost + recoveryCost else t.damage

/-- Whether a tree is a stretch of characters that no terminal can be read from. -/
def isUnreadable (t : Tree) : Bool := t.label = .error && t.children.isEmpty

/-- The number of trees that count as progress. -/
def progress (t : Tree) : Nat :=
  t.shownBelow + (if t.visible then 1 else 0) + (if t.label = .swallowed then 1 else 0)

def leaf (x : Context) (label : Label) (reach start stop : Nat) : Tree :=
  ⟨label, [], none, reach, start, stop, false, false, false, label.isVisible x, 0, 0, 0, 0⟩

/-- What a swallowed tree adds to the cost of the damage that holds it. -/
def swallowedCount (t : Tree) : Nat :=
  if t.extra || t.isUnreadable then 0
  else if t.visible then 1
  else t.shown

/-- The children of a tree, each with the step of the production that it fills. -/
def withSlots (x : Context) (production : Option Nat) (children : List Tree) :
    List (Tree × Option Slot) :=
  let slots := ((production.bind fun p => x.automaton.grammar.productions[p]?).map
    fun p => p.slots.toList).getD []
  go slots children
where
  /-- Extra trees fill no step. -/
  go : List Slot → List Tree → List (Tree × Option Slot)
    | _, [] => []
    | [], t :: rest => (t, none) :: go [] rest
    | s :: slots, t :: rest =>
      if t.extra then (t, none) :: go (s :: slots) rest
      else (t, some s) :: go slots rest

/-- A tree with children; without any it stands at `position`. -/
def branch (x : Context) (label : Label) (children : List Tree)
    (production : Option Nat) (position : Nat) : Tree :=
  let isRenamed (s : Option Slot) : Bool := (s.bind Slot.renamed).isSome
  let slotted := withSlots x production children
  let reach := (children.head?.map Tree.reach).getD position
  let start := (children.head?.map Tree.start).getD position
  let stop := (children.getLast?.map Tree.stop).getD position
  let below := children.foldl (fun n c =>
    if c.label = .swallowed then n else n + c.cost) 0
  let own :=
    if label.isDamage then
      swallowedCost * children.foldl (fun n c => n + swallowedCount c) 0 + recoveryCost
        + x.text.cost start stop
    else 0
  let shown := slotted.foldl (fun n (c, s) =>
    if isRenamed s || c.visible then n + 1
    else if c.children.isEmpty then n else n + c.shown) 0
  let shownBelow := slotted.foldl (fun n (c, s) =>
    n + c.shownBelow + (if isRenamed s || c.visible then 1 else 0)) 0
  ⟨label, children, production, reach, start, stop, false, false, false,
    label.isVisible x, below + own, children.foldl (fun w c => w + c.weight) 0, shown,
    shownBelow⟩

/-- Whether two trees are interchangeable for what follows them. -/
def isLike (a b : Tree) : Bool :=
  a.label = b.label &&
    ((0 < a.cost && 0 < b.cost) ||
      (a.start - a.reach = b.start - b.reach && a.stop - a.start = b.stop - b.start &&
        a.children.length = b.children.length && a.extra = b.extra))

def labelOrder : Label → Nat
  | .terminal n => n
  | .construct n => 1000 + n
  | .swallowed => 99997
  | .error => 99998

mutual

/-- An order of trees that looks at labels first. -/
def order : Tree → Tree → Ordering
  | ⟨l, cs, _, _, _, _, _, _, _, _, _, _, _, _⟩, t =>
    ((compare (labelOrder l) (labelOrder t.label)).then
      (compare cs.length t.children.length)).then (orderAll cs t.children)

/-- The same order on lists of trees. -/
def orderAll : List Tree → List Tree → Ordering
  | [], _ => .eq
  | _, [] => .eq
  | a :: as, b :: bs => (order a b).then (orderAll as bs)

end

/-- Whether the second of two readings of the same text is to be taken. -/
def isBetter (a b : Tree) : Bool :=
  if b.cost ≠ a.cost then b.cost < a.cost
  else if b.weight ≠ a.weight then a.weight < b.weight
  else if 0 < a.cost then true
  else order a b = .gt

/-- Takes the extra trees off the end of a list. -/
def splitExtras (trees : List Tree) : List Tree × List Tree :=
  let extras := (trees.reverse.takeWhile Tree.extra).reverse
  (trees.take (trees.length - extras.length), extras)

/-! ## Nodes -/

/-- The kind of a tree under its own name. -/
def kind (x : Context) (t : Tree) : Kind :=
  match t.label with
  | .terminal n => ((x.automaton.grammar.terminals[n]?).bind Terminal.kind?).getD .error
  | .construct n =>
    match x.automaton.grammar.constructs[n]? with
    | some (.node k) => k
    | some (.part .calledDecorator) => .callExpression
    | _ => .memberExpression
  | .error | .swallowed => .error

/-- The source text of a tree, where it matters: of leaves and of literals. -/
def source (x : Context) (t : Tree) (kind : Kind) : String :=
  if t.children.isEmpty || kind = .string then
    String.ofList (x.text.between t.start t.stop)
  else ""

mutual

/-- The nodes that a tree gives: one if it is visible or renamed, and otherwise
those of its children. -/
def nodes (x : Context) (renamed : Option Kind) (role : Option Role) : Tree → List Node
  | ⟨label, children, production, reach, start, stop, extra, missing, keyword, visible,
      damage, weight, shown, shownBelow⟩ =>
    let t : Tree := ⟨label, children, production, reach, start, stop, extra, missing,
      keyword, visible, damage, weight, shown, shownBelow⟩
    let slots := ((production.bind fun p => x.automaton.grammar.productions[p]?).map
      fun p => p.slots.toList).getD []
    if visible || renamed.isSome then
      let kind := renamed.getD (t.kind x)
      let fault :=
        if missing then some .missing else if label = .error then some .error else none
      [⟨role, kind, x.text.place start, t.source x kind, fault, 0 < t.cost,
        nodesAll x slots none children⟩]
    else nodesAll x slots role children

/-- The nodes of the children of a tree; `role` is the role of a hidden parent. -/
def nodesAll (x : Context) (slots : List Slot) (role : Option Role) :
    List Tree → List Node
  | [] => []
  | t :: rest =>
    if t.extra then nodes x none none t ++ nodesAll x slots role rest
    else
      match slots with
      | s :: slots => nodes x s.renamed (s.role.or role) t ++ nodesAll x slots role rest
      | [] => nodes x none role t ++ nodesAll x [] role rest

end

def toNode (x : Context) (t : Tree) : Node :=
  ((nodes x none none t).head?).getD (Node.branch .program .start [])

end Tree

end ScriptInventory.Script.Tolerant
