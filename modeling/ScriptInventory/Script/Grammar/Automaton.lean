import ScriptInventory.Script.Grammar.Production
import Std.Data.HashMap

/-!
# The automaton of a grammar

The shift-reduce automaton of a grammar in numbers. A state is a set of items,
each with the terminals that may follow it. Two states with the same items are one
state, except that the terminals which only their surroundings can recognise
(`isContextual`) keep states apart: a state that lets a statement end with its
line never stands for one that does not.

Where several actions are possible, levels and groupings choose between them; what
they leave open stays open, and the parser then follows every action.

Sets of terminals are numbers whose bits are the members.
-/

namespace ScriptInventory.Script.Grammar

/-- What a state does with a terminal. -/
inductive Action where
  /-- Goes to a state; `repeats` if a repetition could also be closed here. -/
  | shift (state : Nat) (repeats : Bool)
  /-- Lets the terminal stand between any two others. -/
  | extra
  | reduce (production : Nat)
  | accept
deriving DecidableEq, Repr, Inhabited

/-- A state of the automaton. -/
structure State where
  actions : Array (List Action)
  next : Array (Option Nat)
deriving Repr, Inhabited

/-- The automaton of a grammar. State 0 is where nothing is expected, and state 1
is the start. -/
structure Automaton where
  grammar : Numbered
  states : Array State
deriving Repr, Inhabited

/-- The terminals that are recognised by what surrounds them. -/
def Terminal.isContextual : Terminal → Bool
  | .lineEnd | .templateText | .questionMark | .markupComment | .mark "||" | .escape
  | .regexBody | .elementText => true
  | _ => false

/-- The terminals that may stand between any two others. -/
def Terminal.isExtra : Terminal → Bool
  | .comment | .markupComment => true
  | _ => false

/-! ## Items -/

/-- A production with a dot in it. -/
structure Item where
  production : Nat
  dot : Nat
  construct : Option Nat
  next : Option Sym
  behindNext : Option Sym
  level : Option Level
  grouping : Option Grouping
deriving Repr, Inhabited

/-- All items of a grammar. -/
structure Items where
  items : Array Item
  /-- The item with the dot one step further. -/
  successor : Array Nat
  /-- The items in front of the productions of a construct. -/
  openings : Array (List Nat)
deriving Inhabited

/-- What makes two items the same: all that can still matter. -/
structure ItemKey where
  construct : Option Nat
  dot : Nat
  weight : Int
  behind : List (Option Kind × Option Role)
  level : Option Level
  grouping : Option Grouping
  rest : List Slot
deriving BEq, Repr

/-- The key of the item of `p` with the dot behind `dot` steps. -/
def Production.itemKey (p : Production) (construct : Option Nat) (dot : Nat) : ItemKey :=
  let slots := p.slots.toList
  let last := if dot = 0 then none else p.slots[dot - 1]?
  ⟨construct, dot, p.weight, (slots.take dot).map fun s => (s.renamed, s.role),
    last.bind Slot.level, last.bind Slot.grouping, slots.drop dot⟩

/-- The items of a grammar. Items that cannot be told apart are one, and item 0 is
the one in front of the whole text. -/
def Numbered.items (g : Numbered) : Items :=
  let slotOf (c : Nat) : Slot := ⟨.construct c, none, none, none, none⟩
  let start : Production := ⟨0, #[slotOf 0], 0⟩
  let all : List (Nat × Option Nat × Production) :=
    (g.productions.size, none, start) ::
      (g.productions.toList.mapIdx fun i p => (i, some p.construct, p))
  let (table, _, items) := all.foldl
    (fun (acc : Array (Array Nat) × Array (List (ItemKey × Nat)) × Array Item)
        (i, construct, p) =>
      let (row, known, items) := (List.range (p.slots.size + 1)).foldl
        (fun (acc : Array Nat × Array (List (ItemKey × Nat)) × Array Item) dot =>
          let (row, known, items) := acc
          let key := p.itemKey construct dot
          let bucket := construct.getD g.constructs.size
          match (known.getD bucket []).find? fun (k, _) => k == key with
          | some (_, n) => (row.push n, known, items)
          | none =>
            let item : Item := ⟨i, dot, construct, (p.slots[dot]?).map Slot.symbol,
              (p.slots[dot + 1]?).map Slot.symbol, key.level, key.grouping⟩
            (row.push items.size, known.modify bucket ((key, items.size) :: ·),
              items.push item))
        (#[], acc.2.1, acc.2.2)
      (acc.1.push row, known, items))
    (#[], Array.replicate (g.constructs.size + 1) [], #[])
  -- Row 0 of the table belongs to the production of the whole text.
  let row (i : Nat) : Nat := if i = g.productions.size then 0 else i + 1
  let item (i dot : Nat) : Nat := (table.getD (row i) #[]).getD dot 0
  let openings := g.constructs.mapIdx fun c _ =>
    ((List.range g.productions.size).filter fun i =>
      (g.productions[i]?).any fun p => p.construct = c).map fun i => item i 0
  ⟨items, items.map fun it => item it.production (it.dot + 1), openings⟩

/-! ## Terminals that may come first -/

def bit (terminal : Nat) : Nat := 1 <<< terminal

/-- Repeats a step until nothing changes, or until `fuel` ends. -/
def untilStable {α : Type} [BEq α] (step : α → α) : Nat → α → α
  | 0, a => a
  | fuel + 1, a =>
    let b := step a
    if b == a then a else untilStable step fuel b

/-- The terminals that each construct may start with. -/
def Numbered.firstSets (g : Numbered) : Array Nat :=
  let step (sets : Array Nat) : Array Nat :=
    g.productions.foldl (fun sets p =>
      match (p.slots[0]?).map Slot.symbol with
      | some (.terminal t) => sets.modify p.construct (· ||| bit t)
      | some (.construct c) => sets.modify p.construct (· ||| sets.getD c 0)
      | none => sets) sets
  untilStable step (g.constructs.size + 1) (Array.replicate g.constructs.size 0)

/-- The terminals that a symbol may start with. -/
def firstOf (firsts : Array Nat) : Sym → Nat
  | .terminal t => bit t
  | .construct c => firsts.getD c 0

/-! ## Closures -/

/-- What the wish for a construct adds to a state: an item, the terminals that
follow it in any case, and whether those behind the construct follow it too. -/
structure Addition where
  item : Nat
  following : Nat
  inherits : Bool
deriving Repr, Inhabited

/-- The constructs that may start a construct, each with what follows it. -/
def leftConstructs (g : Numbered) (firsts : Array Nat) (c : Nat) :
    Array (Option (Nat × Bool)) :=
  let grow (found : Array (Option (Nat × Bool))) (d following : Nat) (inherits : Bool) :=
    found.modify d fun known =>
      let (f, i) := known.getD (0, false)
      some (f ||| following, i || inherits)
  let step (found : Array (Option (Nat × Bool))) : Array (Option (Nat × Bool)) :=
    g.productions.foldl (fun found p =>
      match found.getD p.construct none, p.slots[0]? with
      | some (following, inherits), some s =>
        match s.symbol with
        | .construct d =>
          match p.slots[1]? with
          | some behind => grow found d (firstOf firsts behind.symbol) false
          | none => grow found d following inherits
        | .terminal _ => found
      | _, _ => found) found
  untilStable step (g.constructs.size + 1)
    (grow (Array.replicate g.constructs.size none) c 0 true)

/-- The additions of every construct. -/
def allAdditions (g : Numbered) (items : Items) (firsts : Array Nat) :
    Array (List Addition) :=
  g.constructs.mapIdx fun c _ =>
    (leftConstructs g firsts c).toList.zipIdx.flatMap fun (found, d) =>
      match found with
      | some (following, inherits) =>
        (items.openings.getD d []).map fun i => ⟨i, following, inherits⟩
      | none => []

/-- An item of a state with the terminals that may follow it. -/
abbrev Entry := Nat × Nat

/-- The grammar with all that is computed from it once. -/
structure Workshop where
  grammar : Numbered
  items : Items
  firsts : Array Nat
  additions : Array (List Addition)
  contextual : Nat

/-- Prepares the construction of the automaton. -/
def Workshop.ofGrammar (g : Numbered) : Workshop :=
  let items := g.items
  let firsts := g.firstSets
  let contextual := (List.range g.terminals.size).foldl (fun set t =>
    if (g.terminals[t]?).any Terminal.isContextual then set ||| bit t else set) 0
  ⟨g, items, firsts, allAdditions g items firsts, contextual⟩

namespace Workshop

/-- The items of a state that its kernel brings with it, in the order of their
numbers. -/
def closure (w : Workshop) (kernel : List Entry) : List Entry :=
  let add (sets : Array (Option Nat)) (item following : Nat) : Array (Option Nat) :=
    sets.modify item fun known => some (known.getD 0 ||| following)
  let sets := kernel.foldl (fun sets (i, following) =>
    let sets := add sets i following
    match w.items.items[i]? with
    | some item =>
      match item.next with
      | some (.construct c) =>
        let behind := (item.behindNext.map (firstOf w.firsts)).getD following
        (w.additions.getD c []).foldl (fun sets a =>
          add sets a.item (if a.inherits then a.following ||| behind else a.following)) sets
      | _ => sets
    | none => sets) (Array.replicate w.items.items.size none)
  sets.toList.zipIdx.filterMap fun (set, i) => set.map fun following => (i, following)

/-- Puts an entry into a kernel, which is in the order of its items. -/
def insertEntry (e : Entry) : List Entry → List Entry
  | [] => [e]
  | f :: rest =>
    if e.1 < f.1 then e :: f :: rest
    else if e.1 = f.1 then (e.1, e.2 ||| f.2) :: rest
    else f :: insertEntry e rest

/-- The kernels that a state leads to, by the symbol that leads there: terminals
in their order, then constructs in theirs. -/
def successors (w : Workshop) (entries : List Entry) : List (Sym × List Entry) :=
  let (byTerminal, byConstruct) := entries.foldl
    (fun (acc : Array (List Entry) × Array (List Entry)) (i, following) =>
      let moved := (w.items.successor.getD i 0, following)
      match (w.items.items[i]?).bind Item.next with
      | some (.terminal t) => (acc.1.modify t (insertEntry moved), acc.2)
      | some (.construct c) => (acc.1, acc.2.modify c (insertEntry moved))
      | none => acc)
    (Array.replicate w.grammar.terminals.size [], Array.replicate w.grammar.constructs.size [])
  let keep (symbol : Nat → Sym) (kernels : Array (List Entry)) : List (Sym × List Entry) :=
    kernels.toList.zipIdx.filterMap fun (kernel, n) =>
      if kernel.isEmpty then none else some (symbol n, kernel)
  keep .terminal byTerminal ++ keep .construct byConstruct

/-! ## States -/

/-- What tells a state from others: its items, with the terminals that only their
surroundings can recognise. -/
def key (w : Workshop) (kernel : List Entry) : List Entry :=
  kernel.map fun (i, following) => (i, following &&& w.contextual)

/-- The states found so far, and those whose successors are still to be found. -/
structure Search where
  kernels : Array (List Entry)
  moves : Array (List (Sym × Nat))
  known : Std.HashMap (List Entry) Nat
  waiting : Array Bool
  queue : List Nat
  later : List Nat

/-- The number of the state with this kernel, which is new or grows by it. -/
def visit (w : Workshop) (s : Search) (kernel : List Entry) : Search × Nat :=
  let key := w.key kernel
  match s.known[key]? with
  | some n =>
    let old := s.kernels.getD n []
    let both := old.zipWith (fun e f => (e.1, e.2 ||| f.2)) kernel
    if both == old then (s, n)
    else
      let s := { s with kernels := s.kernels.set! n both }
      if s.waiting.getD n false then (s, n)
      else ({ s with waiting := s.waiting.set! n true, later := n :: s.later }, n)
  | none =>
    let n := s.kernels.size
    ({ s with kernels := s.kernels.push kernel, moves := s.moves.push [],
              known := s.known.insert key n, waiting := s.waiting.push true,
              later := n :: s.later }, n)

/-- Finds the successors of the states that wait, until none does. -/
def explore (w : Workshop) : Nat → Search → Search
  | 0, s => s
  | fuel + 1, s =>
    match s.queue with
    | [] =>
      match s.later with
      | [] => s
      | later => explore w fuel { s with queue := later.reverse, later := [] }
    | n :: queue =>
      let s := { s with queue, waiting := s.waiting.set! n false }
      let nexts := w.successors (w.closure (s.kernels.getD n []))
      let (s, moves) := nexts.foldl (fun (acc : Search × List (Sym × Nat)) (symbol, kernel) =>
        let (s, m) := w.visit acc.1 kernel
        (s, (symbol, m) :: acc.2)) (s, [])
      explore w fuel { s with moves := s.moves.set! n moves.reverse }

/-! ## Choosing between actions -/

/-- Whether an entry of an order is the level `level` or one of `constructs`. -/
def ranks (g : Numbered) (level : Option Level) (constructs : List Nat) : Rank → Bool
  | .level l => level = some l
  | .whole c => constructs.any fun n => g.constructs[n]? = some c

/-- Whether the first of two pieces binds tighter than the second or less tightly,
where an order tells. -/
def compare (g : Numbered) (a : Option Level × List Nat) (b : Option Level × List Nat) :
    Ordering :=
  let inOrder (order : List Rank) : Ordering :=
    let first := order.find? fun r => ranks g a.1 a.2 r || ranks g b.1 b.2 r
    match first with
    | none => .eq
    | some r =>
      -- The tighter one of the two must be followed by the other.
      let rest := (order.dropWhile fun x => x ≠ r).drop 1
      if ranks g a.1 a.2 r then
        if rest.any fun x => ranks g b.1 b.2 x && !ranks g a.1 a.2 x then .gt else .eq
      else if rest.any (ranks g a.1 a.2) then .lt else .eq
  (orders.map inOrder).find? (· ≠ .eq) |>.getD .eq

/-- The ways to close an item at a terminal. -/
structure Closing where
  actions : List Action := []
  level : Option Level := none
  constructs : List Nat := []
  groupings : List (Option Grouping) := []

/-- Adds a way to close an item: the tighter one wins, and both stay if neither
is. -/
def Closing.add (g : Numbered) (c : Closing) (item : Item) : Closing :=
  let action := match item.construct with
    | none => Action.accept
    | some _ => .reduce item.production
  let constructs := item.construct.toList
  let fresh : Closing := ⟨[action], item.level, constructs, [item.grouping]⟩
  if c.actions.isEmpty then fresh
  else
    match compare g (item.level, constructs) (c.level, c.constructs) with
    | .gt => fresh
    | .lt => c
    | .eq => ⟨c.actions ++ [action], item.level, c.constructs ++ constructs,
        c.groupings ++ [item.grouping]⟩

/-- Whether an item is in the middle of its production at the terminal `t`. -/
def continuesAt (w : Workshop) (t : Nat) (item : Item) : Bool :=
  item.dot > 0 && item.next.any fun s => (firstOf w.firsts s).testBit t

/-- What a state does with terminal `t`, if closing an item and shifting are both
possible. -/
def choose (w : Workshop) (items : List (Item × Nat)) (t state : Nat) (c : Closing) :
    List Action :=
  let middle := (items.filter fun (i, _) => w.continuesAt t i).map Prod.fst
  let closed := (items.filter fun (i, following) =>
    i.next.isNone && following.testBit t).map Prod.fst
  let involved := (middle ++ closed).filterMap Item.construct
  let isRepetition (n : Nat) : Bool :=
    match w.grammar.constructs[n]? with
    | some (.part p) => p.isRepetition
    | _ => false
  match involved with
  | [] => c.actions ++ [.shift state false]
  | n :: rest =>
    if isRepetition n && rest.all (· = n) then c.actions ++ [.shift state true]
    else
      let orders := middle.map fun i =>
        compare w.grammar (i.level, i.construct.toList) (c.level, c.constructs)
      match orders.contains .gt, orders.contains .lt with
      | true, false => [.shift state false]
      | false, true => c.actions
      | true, true => c.actions ++ [.shift state false]
      | false, false =>
        if c.groupings.all (· = some .left) then c.actions
        else if c.groupings.all (· = some .right) then [.shift state false]
        else c.actions ++ [.shift state false]

def finish (w : Workshop) (kernel : List Entry) (moves : List (Sym × Nat)) : State :=
  let entries := w.closure kernel
  let items := entries.filterMap fun (i, following) =>
    (w.items.items[i]?).map fun item => (item, following)
  let closings : Array Closing := items.foldl (fun cs (item, following) =>
    if item.next.isSome then cs
    else
      (List.range w.grammar.terminals.size).foldl (fun cs t =>
        if following.testBit t then cs.modify t fun c => c.add w.grammar item else cs) cs)
    (Array.replicate w.grammar.terminals.size {})
  let shifts : Array (Option Nat) := moves.foldl (fun shifts (s, n) =>
    match s with
    | .terminal t => shifts.set! t (some n)
    | .construct _ => shifts) (Array.replicate w.grammar.terminals.size none)
  let next : Array (Option Nat) := moves.foldl (fun next (s, n) =>
    match s with
    | .construct c => next.set! c (some n)
    | .terminal _ => next) (Array.replicate w.grammar.constructs.size none)
  let actions := closings.mapIdx fun t c =>
    match shifts.getD t none with
    | some n => if c.actions.isEmpty then [.shift n false] else w.choose items t n c
    | none =>
      if c.actions.isEmpty && (w.grammar.terminals[t]?).any Terminal.isExtra then [.extra]
      else c.actions
  ⟨actions, next⟩

end Workshop

def Automaton.ofGrammar (g : Numbered) : Automaton :=
  let w := Workshop.ofGrammar g
  let nowhere : State :=
    ⟨Array.replicate g.terminals.size [], Array.replicate g.constructs.size none⟩
  let initial : Workshop.Search := ⟨#[[]], #[[]], {}, #[false], [], []⟩
  let (search, _) := w.visit initial [(0, bit 0)]
  let search := w.explore 100000 search
  let states := (search.kernels.zip search.moves).mapIdx fun n (kernel, moves) =>
    if n = 0 then nowhere else w.finish kernel moves
  ⟨g, states⟩

/-- The automaton of scripts, which is built when it is first asked for. -/
def script : Thunk Automaton :=
  Thunk.mk fun _ => Automaton.ofGrammar (Numbered.ofRules terminals rules)

end ScriptInventory.Script.Grammar
