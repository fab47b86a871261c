import ScriptInventory.Script.Tolerant.Tree

/-!
# Several readings side by side

Where the grammar leaves a choice, or where damage can be mended in several ways,
the tolerant reader follows several readings of the text at once. A reading is a
`Track`. All tracks share one graph of vertices: a vertex stands for a state of the
automaton at a position, and its links lead to the vertices below it, each over the
tree that was read in between. Two tracks that come to the same state at the same
position become one.
-/

namespace ScriptInventory.Script.Tolerant

open Grammar

/-- A way down from a vertex. Where damage begins, no tree was read. -/
structure Link where
  below : Nat
  tree : Option Tree
deriving Repr, Inhabited

/-- A state at a position, with the ways that led there. -/
structure Vertex where
  state : Nat
  position : Nat
  links : Array Link
  damage : Nat
  weight : Int
  progress : Nat
deriving Repr, Inhabited

/-- How far a track has come. -/
inductive Status where
  | active
  /-- The terminal that comes next fits nowhere. -/
  | paused (ahead : Tree)
  | halted
deriving Repr, Inhabited

/-- Whether a track is being followed. -/
def Status.isActive : Status → Bool
  | .active => true
  | _ => false

/-- Whether a track waits for its damage to be mended. -/
def Status.isPaused : Status → Bool
  | .paused _ => true
  | _ => false

/-- Whether a track has been given up. -/
def Status.isHalted : Status → Bool
  | .halted => true
  | _ => false

/-- A state further down, which reading could go back to. -/
structure Retreat where
  position : Nat
  depth : Nat
  state : Nat
deriving Repr, Inhabited

/-- One reading of the text so far. -/
structure Track where
  top : Nat
  status : Status
  /-- The progress at the latest damage. -/
  progressAtDamage : Nat
  retreats : Option (List Retreat)
deriving Repr

instance : Inhabited Track := ⟨⟨0, .halted, 0, none⟩⟩

/-- All readings. -/
structure Machine where
  vertices : Array Vertex
  tracks : Array Track
  best : Option Tree
  accepted : Nat
  furthest : Nat
deriving Inhabited

/-- The most tracks that are followed for longer than one terminal. -/
def mostTracks : Nat := 6
/-- How many more tracks there may be for a moment. -/
def spareTracks : Nat := 4
def mostLinks : Nat := 8
/-- The most ways down that are followed at once. -/
def mostPaths : Nat := 64
def deepestRetreat : Nat := 16
/-- By how much damage a reading may be worse than another one and still be
followed, for each step of progress of the other. -/
def patience : Nat := 1800

namespace Machine

/-- One reading, in front of the text. -/
def initial : Machine :=
  ⟨#[⟨1, 0, #[], 0, 0, 0⟩], #[⟨0, .active, 0, none⟩], none, 0, 0⟩

/-- The track `v`. -/
def track (m : Machine) (v : Nat) : Track := m.tracks.getD v default

/-- The vertex `n`. -/
def vertex (m : Machine) (n : Nat) : Vertex := m.vertices.getD n default

/-- The vertex on top of track `v`. -/
def top (m : Machine) (v : Nat) : Vertex := m.vertex (m.track v).top

/-- The state of track `v`. -/
def state (m : Machine) (v : Nat) : Nat := (m.top v).state

/-- The position of track `v`. -/
def position (m : Machine) (v : Nat) : Nat := (m.top v).position

/-- Removes track `v`. -/
def remove (m : Machine) (v : Nat) : Machine :=
  { m with tracks := m.tracks.eraseIdxIfInBounds v }

/-- Gives track `v` a status. -/
def setStatus (m : Machine) (v : Nat) (status : Status) : Machine :=
  { m with tracks := m.tracks.modify v fun k => { k with status } }

/-- Puts track `a` in the place of track `b`. -/
def replace (m : Machine) (a b : Nat) : Machine :=
  if a = b then m
  else
    let old := m.track b
    let moved := m.track a
    let moved := { moved with retreats := moved.retreats.or old.retreats }
    { m with tracks := (m.tracks.set! b moved).eraseIdxIfInBounds a }

/-- A new track like `v` from vertex `n` on, and its number. -/
def fork (m : Machine) (v n : Nat) : Machine × Nat :=
  let k : Track := ⟨n, .active, (m.track v).progressAtDamage, none⟩
  ({ m with tracks := m.tracks.push k }, m.tracks.size)

/-- Puts a tree on top of track `v`, which comes to `state` by it. Without a tree,
damage begins here. -/
def push (m : Machine) (v : Nat) (tree : Option Tree) (state : Nat) : Machine :=
  let k := m.track v
  let below := m.vertex k.top
  let grown : Vertex :=
    match tree with
    | some t =>
      ⟨state, max below.position t.stop, #[⟨k.top, tree⟩], below.damage + t.cost,
        below.weight + t.weight, below.progress + t.progress⟩
    | none =>
      ⟨state, below.position, #[⟨k.top, none⟩], below.damage, below.weight, below.progress⟩
  let k := { k with
    top := m.vertices.size,
    progressAtDamage := if tree.isNone then grown.progress else k.progressAtDamage }
  { m with vertices := m.vertices.push grown, tracks := m.tracks.set! v k }

/-! ## Merging -/

/-- Whether two links lead over trees that are interchangeable. -/
def Link.isLike (a b : Link) : Bool :=
  match a.tree, b.tree with
  | none, none => true
  | some s, some t => s.isLike t
  | _, _ => false

/-- The weight of the way over a link. -/
def linkWeight (m : Machine) (l : Link) : Int :=
  (m.vertex l.below).weight + (l.tree.map Tree.weight).getD 0

/-- Whether two vertices stand for the same. -/
def Vertex.meets (a b : Vertex) : Bool :=
  a.state = b.state && a.position = b.position && a.damage = b.damage

/-- Raises the weight of a vertex to that of the way over a link. -/
def raiseWeight (m : Machine) (n : Nat) (l : Link) : Machine :=
  let w := m.linkWeight l
  { m with vertices := m.vertices.modify n fun x =>
      if x.weight < w then { x with weight := w } else x }

/-- Adds a link to vertex `n`. If an old link is like it, the heavier of the two
trees stays, or the vertices below become one. -/
def addLink : Nat → Machine → Nat → Link → Machine
  | 0, m, _, _ => m
  | fuel + 1, m, n, l =>
    let x := m.vertex n
    if l.below = n then m
    else
      let fits (old : Link) : Bool := Link.isLike old l &&
        (old.below = l.below || Vertex.meets (m.vertex old.below) (m.vertex l.below))
      match x.links.findIdx? fits with
      | some i =>
        let old := x.links.getD i default
        if old.below = l.below then
          match old.tree, l.tree with
          | some a, some b =>
            if a.weight < b.weight then
              let x := { x with links := x.links.set! i l, weight := m.linkWeight l }
              { m with vertices := m.vertices.set! n x }
            else m
          | _, _ => m
        else
          let m := (m.vertex l.below).links.foldl (fun m k => addLink fuel m old.below k) m
          m.raiseWeight n l
      | none =>
        if mostLinks ≤ x.links.size then m
        else
          let progress := (m.vertex l.below).progress + (l.tree.map Tree.progress).getD 0
          let x := { x with links := x.links.push l, progress := max x.progress progress }
          raiseWeight { m with vertices := m.vertices.set! n x } n l

/-- Whether track `b` can become one with track `a`. -/
def canMerge (m : Machine) (a b : Nat) : Bool :=
  (m.track a).status.isActive && (m.track b).status.isActive &&
    Vertex.meets (m.top a) (m.top b)

/-- Makes track `b` one with track `a`, if they can be one. -/
def merge? (m : Machine) (a b : Nat) : Option Machine :=
  if m.canMerge a b then
    let n := (m.track a).top
    let m := (m.top b).links.foldl (fun m l => addLink (m.vertices.size + 1) m n l) m
    let m :=
      if m.state a = 0 then
        let progress := (m.top a).progress
        { m with tracks := m.tracks.modify a fun k => { k with progressAtDamage := progress } }
      else m
    some (m.remove b)
  else none

/-- Makes track `b` one with the first of the tracks `candidates` that it can be
one with. -/
def mergeInto? (m : Machine) (candidates : List Nat) (b : Nat) : Option Machine :=
  candidates.findSome? fun a => m.merge? a b

/-! ## Ways down -/

/-- A way down from the top of a track: where it has come to, the trees on it in
their order in the text, and how many of them are no extras. -/
structure Path where
  here : Nat
  trees : List Tree
  depth : Nat
deriving Inhabited

def Path.follow (p : Path) (l : Link) : Path :=
  match l.tree with
  | some t => ⟨l.below, t :: p.trees, if t.extra then p.depth else p.depth + 1⟩
  | none => ⟨l.below, p.trees, p.depth + 1⟩

/-- A way down that ends on a track of its own. -/
structure Slice where
  track : Nat
  trees : List Tree
deriving Inhabited

/-- What to do on a way down. -/
structure Verdict where
  take : Bool
  stop : Bool

/-- The ways down from a track as they are followed. -/
structure Descent (σ : Type) where
  machine : Machine
  slices : Array Slice
  memory : σ
  kept : Array Path
  forked : Array Path

/-- Ends a way down here: the slices of one vertex stand together, on one track. -/
def takeSlice (m : Machine) (v : Nat) (slices : Array Slice) (p : Path) :
    Machine × Array Slice :=
  let isHere (s : Slice) : Bool := (m.track s.track).top = p.here
  match slices.toList.reverse.findIdx? isHere with
  | some i =>
    let k := slices.size - 1 - i
    let track := (slices.getD k default).track
    (m, slices.take (k + 1) ++ #[⟨track, p.trees⟩] ++ slices.drop (k + 1))
  | none =>
    let (m, track) := m.fork v p.here
    (m, slices.push ⟨track, p.trees⟩)

/-- Follows one way down by one step; `waiting` other ways are still to be followed
in this round. -/
def stepDown {σ : Type} (v waiting : Nat) (visit : σ → Vertex → Path → σ × Verdict)
    (d : Descent σ) (p : Path) : Descent σ :=
  let x := d.machine.vertex p.here
  let (memory, verdict) := visit d.memory x p
  let (machine, slices) :=
    if verdict.take then takeSlice d.machine v d.slices p else (d.machine, d.slices)
  let d := { d with machine, slices, memory }
  match x.links.toList with
  | [] => d
  | first :: rest =>
    if verdict.stop then d
    else
      let room := mostPaths - (d.kept.size + 1 + waiting + d.forked.size)
      { d with
        kept := d.kept.push (p.follow first),
        forked := d.forked ++ ((rest.take room).map p.follow).toArray }

/-- Follows all ways down from a track, round by round. -/
def descend {σ : Type} (v : Nat) (visit : σ → Vertex → Path → σ × Verdict) :
    Nat → Machine → Array Slice → σ → Array Path → Machine × Array Slice × σ
  | 0, m, slices, memory, _ => (m, slices, memory)
  | fuel + 1, m, slices, memory, paths =>
    if paths.isEmpty then (m, slices, memory)
    else
      let (d, _) := paths.foldl
        (fun (acc : Descent σ × Nat) p => (stepDown v acc.2 visit acc.1 p, acc.2 - 1))
        ((⟨m, slices, memory, #[], #[]⟩ : Descent σ), paths.size - 1)
      descend v visit fuel d.machine d.slices d.memory (d.kept ++ d.forked)

/-- Follows all ways down from track `v`. -/
def walk {σ : Type} (m : Machine) (v : Nat) (visit : σ → Vertex → Path → σ × Verdict)
    (memory : σ) : Machine × Array Slice × σ :=
  descend v visit (m.vertices.size + 1) m #[] memory #[⟨(m.track v).top, [], 0⟩]

/-- Takes `depth` trees off track `v`, in every way there is. -/
def pop (m : Machine) (v depth : Nat) : Machine × Array Slice :=
  let (m, slices, _) := m.walk v (fun _ _ p =>
    ((), if p.depth = depth then ⟨true, true⟩ else ⟨false, false⟩)) ()
  (m, slices)

/-- Takes everything off track `v`. -/
def popAll (m : Machine) (v : Nat) : Machine × Array Slice :=
  let (m, slices, _) := m.walk v (fun _ x _ => ((), ⟨x.links.isEmpty, false⟩)) ()
  (m, slices)

/-- Takes an error off the top of track `v`, if there is one. -/
def popError (m : Machine) (v : Nat) : Machine × List Tree :=
  let isError (l : Link) : Bool := l.tree.any fun t => t.label = .error
  if (m.top v).links.any isError then
    let (m, slices, _) := m.walk v (fun found _ p =>
      match p.trees with
      | [] => (found, ⟨false, false⟩)
      | t :: _ =>
        if !found && t.label = .error then (true, ⟨true, true⟩) else (found, ⟨false, true⟩))
      false
    match slices[0]? with
    | some s => (m.replace s.track v, s.trees)
    | none => (m, [])
  else (m, [])

/-- Remembers the states that track `v` could go back to. -/
def recordRetreats (m : Machine) (v : Nat) : Machine :=
  let (m, _, retreats) := m.walk v (fun (found : List Retreat) x p =>
    if deepestRetreat < p.depth then (found, ⟨false, true⟩)
    else
      let sameDepth := found.takeWhile fun r => p.depth ≤ r.depth
      if sameDepth.any fun r => r.depth = p.depth && r.state = x.state then
        (found, ⟨false, false⟩)
      else (⟨x.position, p.depth, x.state⟩ :: found, ⟨false, false⟩)) []
  { m with tracks := m.tracks.modify v fun k => { k with retreats := some retreats.reverse } }

/-! ## Comparing tracks -/

/-- What the damage on a track costs, the damage at hand included. -/
def damage (m : Machine) (v : Nat) : Nat :=
  let x := m.top v
  let pending := (m.track v).status.isPaused ||
    (x.state = 0 && (x.links[0]?).any fun l => l.tree.isNone)
  if pending then x.damage + recoveryCost else x.damage

/-- Lowers the remembered progress of track `v` if the track has gone back behind
it. -/
def settle (m : Machine) (v : Nat) : Machine :=
  let progress := (m.top v).progress
  { m with tracks := m.tracks.modify v fun k =>
      { k with progressAtDamage := min k.progressAtDamage progress } }

/-- The progress of track `v` since its latest damage. -/
def progressSince (m : Machine) (v : Nat) : Nat :=
  (m.top v).progress - (m.track v).progressAtDamage

/-- What speaks for a track and against it. -/
structure Standing where
  cost : Nat
  progress : Nat
  weight : Int
  inError : Bool

/-- The standing of track `v`. -/
def standing (m : Machine) (v : Nat) : Standing :=
  let paused := (m.track v).status.isPaused
  ⟨m.damage v + (if paused then swallowedCost else 0), m.progressSince v, (m.top v).weight,
    paused || m.state v = 0⟩

/-- Which of two tracks is better, and whether the other one can be given up. -/
inductive Preference where
  | takeLeft
  | preferLeft
  | neither
  | preferRight
  | takeRight
deriving DecidableEq, Repr

def Standing.compare (a b : Standing) : Preference :=
  if !a.inError && b.inError then if a.cost < b.cost then .takeLeft else .preferLeft
  else if a.inError && !b.inError then if b.cost < a.cost then .takeRight else .preferRight
  else if a.cost < b.cost then
    if patience < (b.cost - a.cost) * (1 + a.progress) then .takeLeft else .preferLeft
  else if b.cost < a.cost then
    if patience < (a.cost - b.cost) * (1 + b.progress) then .takeRight else .preferRight
  else if b.weight < a.weight then .preferLeft
  else if a.weight < b.weight then .preferRight
  else .neither

/-- Whether another track, or a finished reading, is better than track `v` would be
at the given cost. -/
def isBeaten (m : Machine) (v cost : Nat) (inError : Bool) : Machine × Bool :=
  if m.best.any fun t => t.cost ≤ cost then (m, true)
  else
    let m := m.settle v
    let mine : Standing := ⟨cost, m.progressSince v, (m.top v).weight, inError⟩
    (List.range m.tracks.size).foldl (fun (acc : Machine × Bool) i =>
      let (m, beaten) := acc
      if beaten || i = v || !(m.track i).status.isActive || m.position i < m.position v then
        acc
      else
        let m := m.settle i
        match mine.compare (m.standing i) with
        | .takeRight => (m, true)
        | .preferRight => (m, m.canMerge i v)
        | _ => (m, false)) (m, false)

end Machine

end ScriptInventory.Script.Tolerant
