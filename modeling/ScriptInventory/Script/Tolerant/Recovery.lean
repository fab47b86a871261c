import ScriptInventory.Script.Tolerant.Reduce

/-!
# Mending damage

What the tolerant reader does with a terminal that fits nowhere. It tries to go on
as if one terminal were there that is missing; it goes back to an earlier state
that expects the terminal, and what was read since becomes an error; and it
swallows the terminal. All of these are followed side by side, and in the end the
reading with the least damage is taken.
-/

namespace ScriptInventory.Script.Tolerant

open Grammar

/-! ## Closing whatever can be closed -/

/-- What a state offers in front of some terminals: whether it shifts one of them,
and the productions it closes, one for each construct and length. -/
def offers (x : Context) (s : Nat) (terminals : List Nat) : Bool × List Nat :=
  let all := terminals.flatMap (x.actions s)
  let shifts := all.any fun a =>
    match a with
    | .shift _ repeats => !repeats
    | _ => false
  let shape (production : Nat) : Option (Nat × Nat) :=
    (x.automaton.grammar.productions[production]?).map fun p => (p.construct, p.slots.size)
  let closed := all.foldl (fun (found : List Nat) a =>
    match a with
    | .reduce production =>
      if (shape production).any fun s => s.2 = 0 then found
      else if found.any fun q => shape q = shape production then found
      else found ++ [production]
    | _ => found) []
  (shifts, closed)

/-- Closes on track `v`, and on the tracks that come from it, whatever can be closed
in front of `ahead`, or in front of any terminal if there is none. Says whether a
track can then shift a terminal. -/
def closeAll (x : Context) (first count : Nat) (ahead : Option Nat) :
    Nat → Nat → Machine → Nat → Bool → Machine × Bool
  | 0, _, m, _, can => (m, can)
  | fuel + 1, round, m, v, can =>
    if m.tracks.size ≤ v then (m, can)
    else
      match m.mergeInto? ((List.range v).filter (count ≤ ·)) v with
      | some m => closeAll x first count ahead fuel (round + 1) m v can
      | none =>
        let before := m.tracks.size
        let terminals := match ahead with
          | some t => [t]
          | none => (List.range x.terminals.size).drop 1
        let (shifts, closed) := offers x (m.state v) terminals
        let (m, last) := closed.foldl (fun (acc : Machine × Option Nat) production =>
          reduce x acc.1 v production) (m, none)
        let onward (m : Machine) (can : Bool) : Machine × Bool :=
          closeAll x first count ahead fuel (round + 1) m
            (if v = first then before else v + 1) can
        if shifts then onward m true
        else
          match last with
          | some w =>
            if round < mostTracks then
              closeAll x first count ahead fuel (round + 1) (m.replace w v) v can
            else if ahead.isSome then onward (m.remove v) can
            else onward m can
          | none => if ahead.isSome then onward (m.remove v) can else onward m can

/-- `closeAll` from track `v` on. -/
def closeFrom (x : Context) (m : Machine) (v : Nat) (ahead : Option Nat) : Machine × Bool :=
  closeAll x v m.tracks.size ahead 1000 0 m v false

/-! ## Going back -/

/-- Takes `depth` trees off track `v` where that leads to state `goal`; they become
an error. Says whether it did. -/
def goBack (x : Context) (m : Machine) (v depth goal : Nat) : Machine × Bool :=
  let (m, slices) := m.pop v depth
  let (m, last) := slices.foldl (fun (acc : Machine × Option Nat) s =>
    let (m, last) := acc
    if last = some s.track then acc
    else if m.state s.track ≠ goal then (m.setStatus s.track .halted, last)
    else
      let (m, errors) := m.popError s.track
      let old := (errors.head?.map Tree.children).getD []
      let (trees, extras) := Tree.splitExtras (old ++ s.trees)
      let m :=
        if trees.isEmpty then m
        else
          let error := { Tree.branch x .error trees none 0 with extra := true }
          m.push s.track (some error) goal
      let m := extras.foldl (fun m e => m.push s.track (some e) goal) m
      (m, some s.track)) (m, none)
  (m, last.isSome)

/-- Goes back to the first of the retreats that expects `ahead`, unless another track
is better already. Says whether it did. -/
def tryRetreats (x : Context) (v count position since cost : Nat) (ahead : Tree) :
    Machine → List Retreat → Machine × Bool
  | m, [] => (m, false)
  | m, r :: rest =>
    let isTaken (i : Nat) : Bool := m.state i = r.state && m.position i = position
    if r.state = 0 || r.position = position || (List.range count).any isTaken then
      tryRetreats x v count position since cost ahead m rest
    else
      let whole := cost + r.depth * swallowedCost + x.text.cost r.position position
      let (m, beaten) := m.isBeaten v whole false
      if beaten then (m, false)
      else if x.expectsLabel r.state ahead.label then
        let depth := if 0 < since then r.depth + 1 else r.depth
        let (m, done) := goBack x m v depth r.state
        if done then (m, true)
        else tryRetreats x v count position since cost ahead m rest
      else tryRetreats x v count position since cost ahead m rest

/-! ## Swallowing a terminal -/

/-- Removes the tracks from `v` on that are not active. -/
def dropInactive (m : Machine) (v : Nat) : Machine :=
  { m with tracks := m.tracks.take v ++ (m.tracks.drop v).filter fun k => k.status.isActive }

/-- Puts `ahead` into the damage on top of track `v`. -/
def swallow (x : Context) (m : Machine) (v since : Nat) (ahead : Tree) : Machine :=
  let isExtra := match ahead.label with
    | .terminal n => (x.terminals[n]?).any Terminal.isExtra
    | _ => false
  let ahead := { ahead with extra := ahead.extra || isExtra }
  let run := Tree.branch x .swallowed [ahead] none 0
  let (m, run) :=
    if 0 < since then
      let (m, slices) := m.pop v 1
      match slices[0]? with
      | some s =>
        let m := { m with tracks := m.tracks.take (s.track + 1) }
        (m.replace s.track v, Tree.branch x .swallowed (s.trees ++ [run]) none 0)
      | none => (m, run)
    else (m, run)
  m.push v (some run) 0

/-- Deals with terminal `ahead` on a track in the middle of damage. -/
def recover (x : Context) (m : Machine) (v : Nat) (ahead : Tree) : Machine :=
  let count := m.tracks.size
  let m := m.settle v
  let position := m.position v
  let since := m.progressSince v
  let cost := m.damage v
  let (m, retreated) :=
    if ahead.isUnreadable then (m, false)
    else tryRetreats x v count position since cost ahead m (((m.track v).retreats).getD [])
  let m := dropInactive m count
  if ahead.label = .terminal 0 then
    let error := { Tree.branch x .error [] none position with damage := recoveryCost }
    accept x (m.push v (some error) 1) v ahead
  else if retreated && mostTracks < m.tracks.size then m.setStatus v .halted
  else
    let whole := cost + swallowedCost + x.text.cost ahead.reach ahead.stop
    let (m, beaten) := m.isBeaten v whole false
    if beaten then m.setStatus v .halted else swallow x m v since ahead

/-! ## Missing terminals -/

/-- Whether a state closes a production first thing in front of `ahead`. -/
def closesAt (x : Context) (s : Nat) : Label → Bool
  | .terminal t =>
    match x.actions s t with
    | .reduce _ :: _ => true
    | _ => false
  | _ => false

/-- Goes on from track `v` as if a terminal were there that the text lacks: the first
one with which `ahead` can be reached. -/
def tryMissing (x : Context) (v position : Nat) (ahead : Tree) :
    Machine → List Nat → Machine × Bool
  | m, [] => (m, false)
  | m, t :: rest =>
    let s := m.state v
    let next := x.next s (.terminal t)
    if next = 0 || next = s || !closesAt x next ahead.label then
      tryMissing x v position ahead m rest
    else
      let (m, w) := m.fork v (m.track v).top
      let leaf := { Tree.leaf x (.terminal t) position position position with missing := true }
      -- In front of the end of the text, whatever can be closed is.
      let number := match ahead.label with
        | .terminal n => if n = 0 then none else some n
        | _ => none
      let (m, can) := closeFrom x (m.push w (some leaf) next) w number
      if can then (m, true) else tryMissing x v position ahead m rest

/-- Begins damage on track `v` and on the tracks from `own` up to `count`, which come
from it; on the first one that allows it, a missing terminal is tried. -/
def beginDamage (x : Context) (own position : Nat) (ahead : Tree) :
    Machine → Bool → List Nat → Machine
  | m, _, [] => m
  | m, done, v :: rest =>
    let (m, done) :=
      if done then (m, true)
      else tryMissing x v position ahead m ((List.range x.terminals.size).drop 1)
    beginDamage x own position ahead (m.push v none 0) done rest

/-- Deals with terminal `ahead`, which fits nowhere on track `v`. -/
def mend (x : Context) (m : Machine) (v : Nat) (ahead : Tree) : Machine :=
  let own := m.tracks.size
  let (m, _) := closeFrom x m v none
  let count := m.tracks.size
  let tracks := v :: (List.range count).drop own
  let m := beginDamage x own (m.position v) ahead m false tracks
  let m := (List.range (count - own)).foldl (fun m _ => (m.merge? v own).getD m) m
  recover x (m.recordRetreats v) v ahead

/-! ## The main loop -/

/-- Reads terminal `ahead` on track `v`: closes productions until it can be
shifted. -/
def advance (x : Context) (v : Nat) : Nat → Machine → Tree → Machine
  | 0, m, _ => m.setStatus v .halted
  | fuel + 1, m, ahead =>
    let s := m.state v
    if s = 0 then recover x m v ahead
    else
      let actions := match ahead.label with
        | .terminal t => x.actions s t
        | _ => []
      let rec go (m : Machine) (reduced : Bool) (last : Option Nat) : List Action → Machine
        | .shift _ true :: rest => go m reduced last rest
        | .shift n false :: _ => m.push v (some ahead) n
        | .extra :: _ => m.push v (some { ahead with extra := true }) s
        | .accept :: _ => accept x m v ahead
        | .reduce production :: rest =>
          let (m, first) := reduce x m v production
          go m true (first.or last) rest
        | [] =>
          match last with
          | some w => advance x v fuel (m.replace w v) ahead
          | none =>
            let word := x.numberOf .word
            if reduced then m.setStatus v .halted
            else if ahead.keyword && ahead.label ≠ .terminal word && x.expects s word then
              advance x v fuel m { ahead with label := .terminal word }
            else m.setStatus v (.paused ahead)
      go m false none actions

/-- Reads the next terminal on track `v`. -/
def advanceTrack (x : Context) (m : Machine) (v : Nat) : Machine :=
  advance x v 10000 m (nextLeaf x (m.state v) (hasMoved m v) (m.position v))

/-- Compares track `i` with the tracks before it from `j` on; gives the track to go
on with. -/
def condenseTrack : Nat → Machine → Nat → Nat → Machine × Nat
  | 0, m, i, _ => (m, i + 1)
  | fuel + 1, m, i, j =>
    if i ≤ j then (m, i + 1)
    else
      match (m.standing j).compare (m.standing i) with
      | .takeLeft => (m.remove i, i)
      | .preferLeft | .neither =>
        match m.merge? j i with
        | some m => (m, i)
        | none => condenseTrack fuel m i (j + 1)
      | .preferRight =>
        match m.merge? j i with
        | some m => (m, i)
        | none =>
          let tracks := (m.tracks.set! i (m.track j)).set! j (m.track i)
          condenseTrack fuel { m with tracks } i (j + 1)
      | .takeRight => condenseTrack fuel (m.remove j) (i - 1) j

/-- Gives up the tracks that others are better than; also gives the least cost of a
track without damage at hand. -/
def condenseFrom : Nat → Machine → Nat → Option Nat → Machine × Option Nat
  | 0, m, _, least => (m, least)
  | fuel + 1, m, i, least =>
    if m.tracks.size ≤ i then (m, least)
    else if (m.track i).status.isHalted then condenseFrom fuel (m.remove i) i least
    else
      let m := m.settle i
      let s := m.standing i
      let least :=
        if s.inError then least
        else some (match least with | some c => min c s.cost | none => s.cost)
      let (m, i) := condenseTrack 1000 m i 0
      condenseFrom fuel m i least

/-- Mends the damage of the first paused track, if no track is active before it, and
gives up the other paused tracks. `count` tracks are looked at. -/
def resume (x : Context) : Nat → Machine → Nat → Nat → Bool → Option Nat →
    Machine × Option Nat
  | 0, m, _, _, _, least => (m, least)
  | fuel + 1, m, i, count, going, least =>
    if count ≤ i then (m, least)
    else
      match (m.track i).status with
      | .paused ahead =>
        if !going && m.accepted < mostTracks then
          let cost := m.damage i
          let m := mend x (m.setStatus i .active) i ahead
          resume x fuel m (i + 1) count true (some cost)
        else resume x fuel (m.remove i) i (count - 1) going least
      | _ => resume x fuel m (i + 1) count true least

/-- Ends a round: gives up bad tracks and mends damage. -/
def condense (x : Context) (m : Machine) : Machine × Option Nat :=
  let (m, least) := condenseFrom 10000 m 0 none
  let m := { m with tracks := m.tracks.take mostTracks }
  resume x 1000 m 0 m.tracks.size false least

/-- Follows all tracks until none is left, or until a finished reading is better than
what is left. -/
def drive (x : Context) : Nat → Machine → Nat → Machine
  | 0, m, _ => m
  | fuel + 1, m, v =>
    if v < m.tracks.size then
      if (m.track v).status.isActive then
        let m := advanceTrack x m v
        let position := if v < m.tracks.size then m.position v else 0
        if m.furthest < position || (0 < v && position = m.furthest) then
          drive x fuel { m with furthest := position } (v + 1)
        else drive x fuel m v
      else drive x fuel m (v + 1)
    else if m.tracks.isEmpty then m
    else
      let (m, least) := condense x m
      let finished := m.best.any fun t => least.all fun c => t.cost < c
      if finished then m else drive x fuel m 0

/-- The syntax tree of a text, damaged or not. -/
def read (text : String) : Node :=
  let x : Context := ⟨script.get, Text.ofString text⟩
  let m := drive x (1000 * (x.text.size + 100)) .initial 0
  match m.best with
  | some t => t.toNode x
  | none => ⟨none, .error, .start, "", some .error, true, []⟩

end ScriptInventory.Script.Tolerant
