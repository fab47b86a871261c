import ScriptInventory.Script.Tolerant.Machine

/-!
# Reading terminals and closing productions

How a track reads the terminal in front of it, and what shifting, reducing and
accepting do to the tracks. Which terminals are looked for depends on the state;
if none of them is there, any terminal will do, and if there is no terminal at all,
the characters up to the next one are unreadable.
-/

namespace ScriptInventory.Script.Tolerant

open Grammar

/-! ## The automaton -/

/-- What state `s` does with terminal `t`. -/
def Context.actions (x : Context) (s t : Nat) : List Action :=
  ((x.automaton.states[s]?).bind fun s => s.actions[t]?).getD []

/-- Whether state `s` can do anything with terminal `t`. -/
def Context.expects (x : Context) (s t : Nat) : Bool := !(x.actions s t).isEmpty

/-- Whether state `s` expects a tree with this label in front of what follows. -/
def Context.expectsLabel (x : Context) (s : Nat) : Label → Bool
  | .terminal t => x.expects s t
  | _ => false

/-- The state that a label leads to, or 0. -/
def Context.next (x : Context) (s : Nat) : Label → Nat
  | .terminal t =>
    match (x.actions s t).getLast? with
    | some (.shift n _) => n
    | some .extra => s
    | _ => 0
  | .construct c => ((x.automaton.states[s]?).bind fun s => s.next.getD c none).getD 0
  | .error | .swallowed => 0

def Context.terminals (x : Context) : Array Terminal := x.automaton.grammar.terminals

def Context.numberOf (x : Context) (t : Terminal) : Nat := x.terminals.idxOf t

/-! ## Terminals -/

/-- The terminals that are looked for where nothing in particular is expected. -/
def isAnywhere : Terminal → Bool
  | .endOfText | .mark _ | .named _ _ | .word | .number | .privateName | .comment
  | .hashBang | .escape | .staticGet => true
  | _ => false

/-- The terminal at position `i` for which no state is asked. Nothing is then known
about the surroundings, so what they show must not be empty. -/
def anyTerminal? (x : Context) (i : Nat) : Option Found :=
  let shown := (surrounded? x.terminals x.text Terminal.isContextual i).filter fun f =>
    i < f.stop
  shown.or <|
    longest? x.terminals x.text (fun n => (x.terminals[n]?).any isAnywhere) i

/-- The terminal at position `i` that state `s` expects. Only a track that has
`moved` on may read one that is empty. -/
def expectedTerminal? (x : Context) (s : Nat) (moved : Bool) (i : Nat) : Option Found :=
  let wanted (t : Terminal) : Bool := x.expects s (x.numberOf t)
  let shown := (surrounded? x.terminals x.text wanted i).filter fun f => moved || i < f.stop
  shown.or (longest? x.terminals x.text (x.expects s) i)

/-- The first position behind `i` at which a terminal can be read again. -/
def behindUnreadable (x : Context) : Nat → Nat → Nat
  | 0, i => i
  | fuel + 1, i =>
    if x.text.size ≤ i then i
    else if (anyTerminal? x (i + 1)).isSome then i + 1
    else behindUnreadable x fuel (i + 1)

/-- The leaf of a terminal. A word that spells a keyword is that keyword, if the
state expects it or if no state is asked. -/
def leafOf (x : Context) (s : Option Nat) (i : Nat) (f : Found) : Tree :=
  if f.terminal = x.numberOf .word then
    let spelled := some (x.text.between f.start f.stop)
    match x.terminals.findIdx? fun t => keywordText? t = spelled with
    | some n =>
      let taken := if s.all fun s => x.expects s n then n else f.terminal
      { Tree.leaf x (.terminal taken) i f.start f.stop with keyword := true }
    | none => Tree.leaf x (.terminal f.terminal) i f.start f.stop
  else Tree.leaf x (.terminal f.terminal) i f.start f.stop

/-- The leaf that comes next at position `i`. -/
def nextLeaf (x : Context) (s : Nat) (moved : Bool) (i : Nat) : Tree :=
  let expected := if s = 0 then none else expectedTerminal? x s moved i
  match expected with
  | some f => leafOf x (some s) i f
  | none =>
    match anyTerminal? x i with
    | some f => leafOf x none i f
    | none =>
      let start := x.text.behindBlanks i
      Tree.leaf x .error i start (behindUnreadable x (x.text.size + 1) start)

/-- Whether track `v` has read anything since its damage. -/
def hasMoved (m : Machine) (v : Nat) : Bool :=
  go (m.vertices.size + 1) (m.track v).top
where
  /-- Looks down from vertex `n`. -/
  go : Nat → Nat → Bool
    | 0, _ => false
    | fuel + 1, n =>
      let vertex := m.vertex n
      if vertex.damage = 0 && n = (m.track v).top then true
      else
        let link : Link := vertex.links.getD 0 ⟨0, none⟩
        match link.tree with
        | some t =>
          if t.reach < t.stop then true
          else if (m.track v).progressAtDamage < vertex.progress && t.cost = 0 then
            go fuel link.below
          else false
        | none => false

/-! ## Reducing and accepting -/

/-- Closes a production on one vertex: of several ways to fill it the best is
taken. Gives the tree and the extras behind it. -/
def closeProduction (x : Context) (production : Nat) (p : Production) (position : Nat) :
    List (List Tree) → Tree × List Tree
  | [] => (Tree.branch x (.construct p.construct) [] (some production) position, [])
  | first :: rest =>
    let close (trees : List Tree) : Tree × List Tree :=
      let (children, extras) := Tree.splitExtras trees
      (Tree.branch x (.construct p.construct) children (some production) position, extras)
    rest.foldl (fun best trees =>
      let other := close trees
      if best.1.isBetter other.1 then other else best) (close first)

/-- Closes a production on track `v`, in every way there is. The new tracks come
last; gives the number of the first of them, if there is one. -/
def reduce (x : Context) (m : Machine) (v production : Nat) : Machine × Option Nat :=
  match x.automaton.grammar.productions[production]? with
  | none => (m, none)
  | some p =>
    let count := m.tracks.size
    let halted := (m.tracks.filter fun k => k.status.isHalted).size
    let (m, slices) := m.pop v p.slots.size
    let groups := slices.toList.splitBy fun a b => a.track = b.track
    let (m, _) := groups.foldl (fun (acc : Machine × Nat) group =>
      let (m, removed) := acc
      match group with
      | [] => acc
      | slice :: _ =>
        let w := slice.track - removed
        if mostTracks + spareTracks + halted < w then (m.remove w, removed + 1)
        else
          let (tree, extras) :=
            closeProduction x production p (m.position w) (group.map Machine.Slice.trees)
          let next := x.next (m.state w) (.construct p.construct)
          let tree := { tree with weight := tree.weight + p.weight }
          let m := m.push w (some tree) next
          let m := extras.foldl (fun m e => m.push w (some e) next) m
          let others := (List.range w).filter (· ≠ v)
          match m.mergeInto? others w with
          | some m => (m, removed + 1)
          | none => (m, removed)) (m, 0)
    (m, if count < m.tracks.size then some count else none)

/-- The tree of the whole text from the trees on a finished track. The last tree
that is no extra holds the others. -/
def rootOf (x : Context) (trees : List Tree) : Option Tree :=
  let trees := trees.filter fun t => t.label ≠ .terminal 0
  let behind := (trees.reverse.takeWhile Tree.extra).reverse
  match trees.reverse.dropWhile Tree.extra with
  | [] => none
  | root :: before =>
    some (Tree.branch x root.label (before.reverse ++ root.children ++ behind) none 0)

/-- Ends track `v` at the end of the text. -/
def accept (x : Context) (m : Machine) (v : Nat) (ahead : Tree) : Machine :=
  let m := m.push v (some ahead) 1
  let (m, slices) := m.popAll v
  let m := slices.foldl (fun m s =>
    match rootOf x s.trees with
    | none => m
    | some root =>
      let best := match m.best with
        | some old => if old.isBetter root then root else old
        | none => root
      { m with best := some best, accepted := m.accepted + 1 }) m
  let m := match slices[0]? with
    | some s => m.remove s.track
    | none => m
  m.setStatus v .halted

end ScriptInventory.Script.Tolerant
