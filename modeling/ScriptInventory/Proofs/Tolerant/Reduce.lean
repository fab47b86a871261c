import Mathlib.Data.List.SplitBy
import ScriptInventory.Proofs.Tolerant.Machine

/-!
# Closing productions keeps the graph

What closing a production puts on a track fits there (`crosses_closed`): its children are
what the automaton read since the state below, so that they fill a production of the
construct. From this, closing a production in every way there is keeps the invariant of the
machine (`Holds.reduce`), and the new tracks stand where the old one stood, as long as
nothing is damaged (`Rests`).
-/

namespace ScriptInventory.Script.Tolerant

open Grammar

variable {g : Numbered} {x : Context}

/-! ## Reading something again -/

/-- An undamaged spot is at the position of the other one, which is then undamaged. -/
def Rests (old new : Spot) : Prop :=
  new.damage = 0 → old.damage = 0 ∧ new.position = old.position

theorem Rests.refl (s : Spot) : Rests s s := fun h => ⟨h, rfl⟩

theorem Rests.trans {a b c : Spot} (h : Rests a b) (h' : Rests b c) : Rests a c := by
  intro hc
  obtain ⟨hb, hbc⟩ := h' hc
  obtain ⟨ha, hab⟩ := h hb
  exact ⟨ha, hbc.trans hab⟩

/-- An extra tree can be read again where the one below it stood. -/
theorem Crosses.again {low up s : Spot} {e : Tree} (h : Crosses x low up e) (he : e.extra)
    (hs : Rests low s) :
    Crosses x s (s.grow (some e) s.state) e ∧ Rests up (s.grow (some e) s.state) := by
  have hzero : s.damage + e.cost = 0 → up.damage = 0 ∧ low.damage = 0 ∧
      s.position = low.position ∧ e.Sound x ∧ e.reach = low.position ∧ e.stop = up.position ∧
        max s.position e.stop = e.stop := by
    intro hsum
    obtain ⟨hlow, hpos⟩ := hs (by omega)
    have hup : up.damage = 0 := by rw [h.damage]; omega
    obtain ⟨hsound, hreach, hstop⟩ := h.sound hup (.inr he)
    have := hsound.reach_le
    exact ⟨hup, hlow, hpos, hsound, hreach, hstop, by omega⟩
  refine ⟨⟨rfl, ?_, h.error, h.ends, fun _ _ => rfl, ?_, h.cost, ?_⟩, ?_⟩
  · intro hswallowed
    have := (h.swallowed hswallowed).2
    rw [he] at this
    cases this
  · intro _ hnot
    rw [he] at hnot
    cases hnot
  · intro hdamage _
    obtain ⟨-, -, hpos, hsound, hreach, -, hmax⟩ := hzero hdamage
    exact ⟨hsound, hreach.trans hpos.symm, hmax.symm⟩
  · intro hdamage
    obtain ⟨hup, -, -, -, -, hstop, hmax⟩ := hzero hdamage
    exact ⟨hup, hmax.trans hstop⟩

/-! ## The tree of a production -/

/-- The trailing extra trees of a list are split off. -/
theorem splitExtras_eq {trees children extras : List Tree}
    (h : Tree.splitExtras trees = (children, extras)) :
    trees = children ++ extras ∧ (∀ e ∈ extras, e.extra) ∧
      ∀ c, children.getLast? = some c → c.extra = false := by
  obtain ⟨back, hback⟩ : ∃ back, back = trees.reverse.takeWhile Tree.extra := ⟨_, rfl⟩
  obtain ⟨front, hfront⟩ : ∃ front, front = trees.reverse.dropWhile Tree.extra := ⟨_, rfl⟩
  have hsplit : trees = front.reverse ++ back.reverse := by
    rw [← List.reverse_append, hback, hfront, List.takeWhile_append_dropWhile,
      List.reverse_reverse]
  rw [Tree.splitExtras, ← hback, Prod.mk.injEq] at h
  obtain ⟨hchildren, rfl⟩ := h
  have hlen : trees.length - back.reverse.length = front.reverse.length := by
    rw [hsplit, List.length_append, Nat.add_sub_cancel]
  rw [hlen] at hchildren
  have hchildren' : children = front.reverse := by
    rw [← hchildren]
    conv_lhs => rw [hsplit]
    exact List.take_left
  refine ⟨by rw [hchildren', ← hsplit], fun e he => ?_, fun c hc => ?_⟩
  · rw [List.mem_reverse, hback] at he
    exact List.all_eq_true.1 List.all_takeWhile e he
  · rw [hchildren', List.getLast?_reverse, hfront] at hc
    have := List.head?_dropWhile_not Tree.extra trees.reverse
    rw [hc] at this
    simpa using this

/-- Of several ways to fill a production, one is taken. -/
theorem exists_closeProduction (production : Nat) (p : Production) (position : Nat)
    (ways : List (List Tree)) (h : ways ≠ []) :
    ∃ trees ∈ ways, closeProduction x production p position ways =
      (Tree.branch x (.construct p.construct) (Tree.splitExtras trees).1 (some production) position,
        (Tree.splitExtras trees).2) := by
  cases ways with
  | nil => exact absurd rfl h
  | cons first rest =>
    rw [closeProduction]
    refine List.foldlRecOn (motive := fun best => ∃ trees ∈ first :: rest, best =
      (Tree.branch x (.construct p.construct) (Tree.splitExtras trees).1 (some production) position,
        (Tree.splitExtras trees).2)) rest _ ⟨first, List.mem_cons_self, rfl⟩ ?_
    intro best hbest trees htrees
    dsimp only
    split
    · exact ⟨trees, List.mem_cons_of_mem _ htrees, rfl⟩
    · exact hbest

/-- A construct leads where the automaton goes. -/
theorem goes_next {s c : Nat} (h : x.next s (.construct c) ≠ 0) :
    x.automaton.Goes s (.construct c) (x.next s (.construct c)) := by
  rw [Context.next] at h ⊢
  change ((x.automaton.states[s]?).bind fun s => s.next.getD c none) = some _
  cases hn : (x.automaton.states[s]?).bind fun s => s.next.getD c none with
  | none => rw [hn] at h; exact absurd rfl h
  | some n => rfl

/-- Extra trees do not change the state. -/
theorem Way.state_of_extras {top mid : Spot} {extras : List Tree} {d : Nat}
    (h : Way x top mid extras d) (hextra : ∀ e ∈ extras, e.extra) (htop : top.state ≠ 0) :
    mid.state = top.state ∧ d = 0 := by
  induction h with
  | here => exact ⟨rfl, rfl⟩
  | @tree low up t trees d crosses rest ih =>
    obtain ⟨ht, htrees⟩ := List.forall_mem_cons.1 hextra
    obtain ⟨hstate, hd⟩ := ih htrees
    refine ⟨(crosses.extra (hstate ▸ htop) ht).trans hstate, ?_⟩
    rw [if_pos ht, hd]
  | gap breaks _ ih =>
    obtain ⟨hstate, -⟩ := ih hextra
    exact absurd (hstate ▸ breaks.state) htop

/-- The tree of a production is sound if its children are, and starts and stops with them. -/
theorem sound_closed (hx : x.automaton = .ofGrammar g) {mid low : Spot} {children : List Tree}
    {production a : Nat} {p : Production} (hp : g.productions[production]? = some p)
    (hred : .reduce production ∈ (Automaton.ofGrammar g).actions mid.state a)
    (hholds : Way.Holds x low mid children p.slots.size) (hsound : ∀ t ∈ children, t.Sound x)
    (habreast : Abreast low.position children mid.position) (weight : Int) {tree : Tree}
    (htree : tree = { Tree.branch x (.construct p.construct) children (some production)
      low.position with weight := weight }) :
    tree.Sound x ∧ tree.reach = low.position ∧ tree.stop = mid.position := by
  obtain ⟨hreach, hstop⟩ : tree.reach = low.position ∧ tree.stop = mid.position := by
    rw [htree]
    exact habreast.ends
  -- the symbols read since the state below are those of a sequence of the construct
  obtain ⟨syms, hlen, hsyms, hpath⟩ := hholds.path
  rw [hx] at hpath
  obtain ⟨q, hq, hconstruct, hslots, hnames⟩ := Automaton.reduce_path hred hpath hp hlen
  have hchildren : tree.children = children := by rw [htree]; rfl
  have hbranch : tree.IsBranch x p.construct p q := by
    refine ⟨by rw [htree]; rfl, by rw [htree, hx]; exact hp, by rw [hx]; exact hq, hconstruct,
      hnames, ?_, ?_, by rw [htree]; rfl, by rw [htree]; rfl, by rw [htree]; rfl⟩
    · rw [hchildren, hsyms, ← hslots, List.map_map]
      rfl
    · rw [hchildren, hreach, hstop]
      exact habreast
  exact ⟨.branch hbranch (by rwa [hchildren]), hreach, hstop⟩

/-- What is put on a track when a production is closed, and the extra trees that are put on
top of it. -/
theorem crosses_closed (hx : x.automaton = .ofGrammar g) {top low : Spot} {trees : List Tree}
    {production a : Nat} {p : Production} (hp : g.productions[production]? = some p)
    (hred : .reduce production ∈ x.actions top.state a)
    (hway : Way x top low trees p.slots.size) {children extras : List Tree}
    (hsplit : Tree.splitExtras trees = (children, extras)) (weight : Int) {tree : Tree}
    (htree : tree = { Tree.branch x (.construct p.construct) children (some production)
      low.position with weight := weight }) :
    let new := low.grow (some tree) (x.next low.state (.construct p.construct))
    Crosses x low new tree ∧ (∀ e ∈ extras, e.extra) ∧
      ∃ mid d, Way x top mid extras d ∧ Rests mid new := by
  have hactions : .reduce production ∈ (Automaton.ofGrammar g).actions top.state a := by
    rw [← hx]
    exact hred
  have htop : top.state ≠ 0 := (mem_actions hactions).1
  obtain ⟨rfl, hextras, -⟩ := splitExtras_eq hsplit
  obtain ⟨mid, k, l, hchildren, hrest, hd⟩ := hway.split rfl
  obtain ⟨hstate, rfl⟩ := hrest.state_of_extras hextras htop
  obtain rfl : p.slots.size = k := hd
  rw [← hstate] at hactions
  have hholds := hchildren.holds hx (hstate ▸ htop)
  have hcost : tree.cost = (children.map Tree.cost).sum := by
    rw [htree, ← belowCost_eq_sum hholds.swallowed]
    exact (cost_branch _ children (some production) low.position).trans (Nat.add_zero _)
  have hbelow : mid.damage = low.damage + tree.cost := by rw [hholds.damage, hcost]
  have hlabel : tree.label = .construct p.construct := by rw [htree]; rfl
  have hextra : tree.extra = false := by rw [htree]; rfl
  -- without damage the trees lie abreast, so that the branch above them is sound
  have hzero : low.damage + tree.cost = 0 → tree.Sound x ∧ tree.reach = low.position ∧
      tree.stop = max low.position tree.stop ∧ max low.position tree.stop = mid.position := by
    intro hdamage
    obtain ⟨hsound, habreast⟩ := hholds.sound (by rw [hbelow, hdamage])
    obtain ⟨htree, hreach, hstop⟩ :=
      sound_closed hx hp hactions hholds hsound habreast weight htree
    have hle := habreast.le fun t ht => (hsound t ht).reach_le
    exact ⟨htree, hreach, by omega, by omega⟩
  -- the label is that of a construct: the parts about damage and extra trees have no case
  refine ⟨⟨rfl, ?_, ?_, ?_, ?_, ?_, ?_, ?_⟩, hextras, mid, 0, hrest, ?_⟩
  · exact fun h => by cases hlabel.symm.trans h
  · exact fun h => by cases hlabel.symm.trans h
  · exact fun h => by cases hextra.symm.trans h
  · exact fun _ h => by cases hextra.symm.trans h
  · -- where the automaton goes on from the state below
    exact fun h _ => ⟨.construct p.construct, by rw [hlabel]; rfl, goes_next h⟩
  · intro c _
    rw [hcost, htree]
    exact (belowCost_eq_sum hholds.swallowed).symm
  · intro hdamage _
    obtain ⟨hsound, hreach, hstop, -⟩ := hzero hdamage
    exact ⟨hsound, hreach, hstop⟩
  · intro hdamage
    obtain ⟨-, -, -, hmax⟩ := hzero hdamage
    exact ⟨by rw [hbelow]; exact hdamage, hmax⟩

/-! ## One new track -/

namespace Machine

variable {apart : Nat → Prop} {m : Machine}

/-- A track has a new top, which stands where `old` stood, as long as nothing is damaged. -/
structure Lifts (m m' : Machine) (w : Nat) (status : Status) (old : Spot) (state : Nat) :
    Prop where
  grows : Grows m m'
  others : ∀ u, u ≠ w → m'.sight u = m.sight u
  top : ∃ top, m'.sight w = some (top, status) ∧ (m'.vertex top).spot.state = state ∧
    Rests old (m'.vertex top).spot

/-- A tree that fits is put on a track. -/
theorem Holds.lifts (h : m.Holds x apart) {w n : Nat} {status : Status} {s : Spot}
    (hs : m.sight w = some (n, status)) (hspot : (m.vertex n).spot = s)
    (hhalted : status.isHalted = false) (tree : Option Tree) {state : Nat} {old : Spot}
    (hfits : Fits x s (s.grow tree state) tree) (hrests : Rests old (s.grow tree state)) :
    (m.push w tree state).Holds x apart ∧ Lifts m (m.push w tree state) w status old state := by
  obtain ⟨htop, hstatus, hlt⟩ := track_of_sight hs
  have hspot' : (m.top w).spot = s := by rw [Machine.top, htop, hspot]
  obtain ⟨hnew, hsight⟩ := spot_push hlt tree state
  rw [hspot'] at hnew
  refine ⟨h.push ⟨n, status, hs, hhalted⟩ (by rwa [hspot']), grows_push m w tree state,
    fun u hu => ?_, _, hstatus ▸ hsight, ?_⟩
  · rw [sight_push, if_neg (Ne.symm hu)]
  · rw [Machine.top, (track_of_sight hsight).1] at hnew
    rw [hnew]
    exact ⟨by cases tree <;> rfl, hrests⟩

theorem Lifts.trans {m' m'' : Machine} {w : Nat} {status : Status} {a b : Spot} {s t : Nat}
    (h : Lifts m m' w status a s) (h' : Lifts m' m'' w status b t) : Lifts m m'' w status b t :=
  ⟨h.grows.trans h'.grows, fun u hu => (h'.others u hu).trans (h.others u hu), h'.top⟩

/-- Extra trees are put back on a track. -/
theorem Holds.pushExtras (h : m.Holds x apart) {w n : Nat} {status : Status}
    (hhalted : status.isHalted = false) {top mid : Spot} {extras : List Tree} {d : Nat}
    (hway : Way x top mid extras d) (hextras : ∀ e ∈ extras, e.extra)
    (hs : m.sight w = some (n, status)) (hrests : Rests mid (m.vertex n).spot) :
    let state := (m.vertex n).spot.state
    let m' := extras.foldl (fun m e => m.push w (some e) state) m
    m'.Holds x apart ∧ Lifts m m' w status top state := by
  induction hway generalizing m n with
  | here => exact ⟨h, .refl m, fun _ _ => rfl, n, hs, rfl, hrests⟩
  | @tree low up e extras d crosses rest ih =>
    obtain ⟨he, hextras⟩ := List.forall_mem_cons.1 hextras
    obtain ⟨hcrosses, hup⟩ := crosses.again he hrests
    obtain ⟨hpushed, hlifts⟩ := h.lifts hs rfl hhalted (some e) hcrosses hup
    obtain ⟨n', hs', hstate, hrests'⟩ := hlifts.top
    obtain ⟨hall, hlifts'⟩ := ih hpushed hextras hs' hrests'
    dsimp only at hall hlifts' ⊢
    rw [hstate] at hall hlifts'
    exact ⟨hall, hlifts.trans hlifts'⟩
  | gap breaks _ ih =>
    refine ih h hextras hs (Rests.trans ?_ hrests)
    exact fun hdamage => ⟨breaks.damage ▸ hdamage, breaks.position.symm⟩

/-- One turn of the loop that closes a production on the new tracks. -/
def closeGroup (x : Context) (v production : Nat) (p : Production) (halted : Nat)
    (acc : Machine × Nat) (group : List Slice) : Machine × Nat :=
  let (m, removed) := acc
  match group with
  | [] => acc
  | slice :: _ =>
    let w := slice.track - removed
    if mostTracks + spareTracks + halted < w then (m.remove w, removed + 1)
    else
      let (tree, extras) :=
        closeProduction x production p (m.position w) (group.map Machine.Slice.trees)
      let next := x.next (m.state w) (.construct p.construct)
      let tree := { tree with weight := tree.weight + p.weight }
      let m := m.push w (some tree) next
      let m := extras.foldl (fun m e => m.push w (some e) next) m
      let others := (List.range w).filter (· ≠ v)
      match m.mergeInto? others w with
      | some m => (m, removed + 1)
      | none => (m, removed)

theorem reduce_eq (m : Machine) (v : Nat) {production : Nat} {p : Production}
    (hp : x.automaton.grammar.productions[production]? = some p) :
    ∃ halted, reduce x m v production =
      let popped := m.pop v p.slots.size
      let groups := popped.2.toList.splitBy fun a b => a.track = b.track
      let m' := (groups.foldl (closeGroup x v production p halted) (popped.1, 0)).1
      (m', if m.tracks.size < m'.tracks.size then some m.tracks.size else none) := by
  refine ⟨(m.tracks.filter fun k => k.status.isHalted).size, ?_⟩
  unfold reduce
  rw [hp]
  rfl

/-- The slices of a track, and the ways from the old top down to where the track starts. -/
structure Closable (x : Context) (production : Nat) (p : Production) (old low : Spot)
    (group : List Slice) : Prop where
  ne : group ≠ []
  reduces : ∃ a, .reduce production ∈ x.actions old.state a
  way : ∀ s ∈ group, Way x old low s.trees p.slots.size

/-- A production is closed on a track, which then is gone, or stands where the old one
stood. -/
theorem Holds.closeGroup (hx : x.automaton = .ofGrammar g) (h : m.Holds x apart)
    {v production : Nat} {p : Production} (hp : g.productions[production]? = some p)
    (halted : Nat) {removed w n : Nat} {old : Spot} {group : List Slice}
    (hclosable : Closable x production p old (m.vertex n).spot group)
    (htracks : ∀ s ∈ group, s.track = w + removed) (hs : m.sight w = some (n, .active)) :
    let acc := Machine.closeGroup x v production p halted (m, removed) group
    acc.1.Holds x apart ∧ (acc.2 = removed + 1 ∧ Drops m acc.1 w ∨
      acc.2 = removed ∧ ∃ state, Lifts m acc.1 w .active old state) := by
  cases group with
  | nil => exact absurd rfl hclosable.ne
  | cons slice rest =>
    have hw : slice.track - removed = w := by
      rw [htracks slice List.mem_cons_self, Nat.add_sub_cancel]
    unfold Machine.closeGroup
    dsimp only
    rw [hw]
    split
    · -- there are tracks enough, and this one is given up
      exact ⟨h.remove w, .inl ⟨rfl, drops_remove m w⟩⟩
    · -- one of the slices becomes the branch, and its extra trees go on top of it
      obtain ⟨htop, -, -⟩ := track_of_sight hs
      have hposition : m.position w = (m.vertex n).spot.position := by
        rw [position, Machine.top, htop]
        rfl
      have hstate : m.state w = (m.vertex n).spot.state := by
        rw [state, Machine.top, htop]
        rfl
      rw [hposition, hstate]
      obtain ⟨trees, htrees, hclose⟩ := exists_closeProduction (x := x) production p
        (m.vertex n).spot.position ((slice :: rest).map Slice.trees) (by simp)
      obtain ⟨s, hsmem, rfl⟩ := List.mem_map.1 htrees
      obtain ⟨a, hred⟩ := hclosable.reduces
      obtain ⟨hcrosses, hextras, mid, d, hway, hrests⟩ := crosses_closed hx hp hred
        (hclosable.way s hsmem) rfl _ rfl
      rw [hclose]
      obtain ⟨hpushed, hlifts⟩ := h.lifts hs rfl rfl (some _) hcrosses hrests
      obtain ⟨n', hs', hstate', hrests'⟩ := hlifts.top
      obtain ⟨hall, hlifts'⟩ := hpushed.pushExtras rfl hway hextras hs' hrests'
      rw [hstate'] at hall hlifts'
      dsimp only at hall hlifts' ⊢
      -- the track may now be one that stands elsewhere already
      split
      · next m' hmerge =>
        obtain ⟨hmerged, hdrops⟩ := hall.mergeInto? hmerge
        refine ⟨hmerged, .inl ⟨rfl, (hlifts.trans hlifts').grows.trans hdrops.grows, fun u => ?_⟩⟩
        rw [hdrops.sight]
        split
        · rw [(hlifts.trans hlifts').others u (by omega)]
        · rw [(hlifts.trans hlifts').others (u + 1) (by omega)]
      · exact ⟨hall, .inr ⟨rfl, _, hlifts.trans hlifts'⟩⟩

/-! ## All new tracks -/

/-- Some tracks are added behind the others; they stand where `old` stood, as long as nothing
is damaged. -/
structure Adds (m m' : Machine) (old : Spot) : Prop where
  grows : Grows m m'
  keeps : Keeps m.tracks.size m m'
  fresh : ∀ w, m.tracks.size ≤ w → w < m'.tracks.size →
    ∃ top, m'.sight w = some (top, .active) ∧ Rests old (m'.vertex top).spot

theorem Keeps.size_le {m m' : Machine} (h : Keeps m.tracks.size m m') :
    m.tracks.size ≤ m'.tracks.size := by
  refine Nat.le_of_not_lt fun hlt => ?_
  have hnone := h m'.tracks.size hlt
  rw [sight_eq_none.2 (Nat.le_refl _), sight_of_lt hlt] at hnone
  cases hnone

theorem Adds.refl (m : Machine) (old : Spot) : Adds m m old :=
  ⟨.refl m, .refl _ m, fun _ hw hw' => absurd hw' (Nat.not_lt.2 hw)⟩

/-- A vertex that a track stands for keeps its spot. -/
theorem Holds.spot_of_sight (h : m.Holds x apart) {m' : Machine} (hgrows : Grows m m')
    {u top : Nat} (hs : m.sight u = some (top, .active)) :
    (m'.vertex top).spot = (m.vertex top).spot :=
  hgrows.spot top (h.tracks u top _ hs rfl).1

/-- Halfway through the new tracks: those from `base` up to `w` are closed, and those from `w`
on stand for one group each. The slices number their tracks as they were before `removed` of
them went. -/
structure Halfway (x : Context) (production : Nat) (p : Production) (old : Spot) (m : Machine)
    (base w removed : Nat) (groups : List (List Slice)) : Prop where
  base_le : base ≤ w
  group : ∀ (j : Nat) (group : List Slice), groups[j]? = some group → ∃ here,
    m.sight (w + j) = some (here, .active) ∧
      Closable x production p old (m.vertex here).spot group ∧
        ∀ s ∈ group, s.track = w + j + removed
  last : ∀ u, w + groups.length ≤ u → m.sight u = none
  fresh : ∀ u, base ≤ u → u < w →
    ∃ top, m.sight u = some (top, .active) ∧ Rests old (m.vertex top).spot

section Halfway

variable {production : Nat} {p : Production} {old : Spot} {base w removed : Nat}
  {group : List Slice} {groups : List (List Slice)} {m' : Machine}

/-- The next new track goes. -/
theorem Halfway.drop (hhalf : Halfway x production p old m base w removed (group :: groups))
    (h : m.Holds x apart) (hdrops : Drops m m' w) :
    Halfway x production p old m' base w (removed + 1) groups := by
  refine ⟨hhalf.base_le, fun j group' hj => ?_, fun u hu => ?_, fun u hu hlt => ?_⟩
  · obtain ⟨here, hs, hclosable, htracks⟩ := hhalf.group (j + 1) group' hj
    refine ⟨here, ?_, ?_, fun s hmem => ?_⟩
    · rw [hdrops.sight, if_neg (by omega)]
      exact hs
    · rw [h.spot_of_sight hdrops.grows hs]
      exact hclosable
    · rw [htracks s hmem]
      omega
  · rw [hdrops.sight, if_neg (by omega)]
    exact hhalf.last (u + 1) (by rw [List.length_cons]; omega)
  · obtain ⟨top, hs, hrests⟩ := hhalf.fresh u hu hlt
    refine ⟨top, by rw [hdrops.sight, if_pos hlt, hs], ?_⟩
    rw [h.spot_of_sight hdrops.grows hs]
    exact hrests

/-- The next new track is closed. -/
theorem Halfway.lift (hhalf : Halfway x production p old m base w removed (group :: groups))
    (h : m.Holds x apart) {state : Nat} (hlifts : Lifts m m' w .active old state) :
    Halfway x production p old m' base (w + 1) removed groups := by
  have hbase := hhalf.base_le
  refine ⟨by omega, fun j group' hj => ?_, fun u hu => ?_, fun u hu hlt => ?_⟩
  · obtain ⟨here, hs, hclosable, htracks⟩ := hhalf.group (j + 1) group' hj
    refine ⟨here, ?_, ?_, fun s hmem => ?_⟩
    · rw [hlifts.others _ (by omega), show w + 1 + j = w + (j + 1) by omega]
      exact hs
    · rw [h.spot_of_sight hlifts.grows hs]
      exact hclosable
    · rw [htracks s hmem]
      omega
  · rw [hlifts.others u (by omega)]
    exact hhalf.last u (by rw [List.length_cons]; omega)
  · rcases Nat.lt_or_eq_of_le (Nat.le_of_lt_succ hlt) with hlt' | rfl
    · obtain ⟨top, hs, hrests⟩ := hhalf.fresh u hu hlt'
      refine ⟨top, by rw [hlifts.others u (by omega), hs], ?_⟩
      rw [h.spot_of_sight hlifts.grows hs]
      exact hrests
    · obtain ⟨top, hs, -, hrests⟩ := hlifts.top
      exact ⟨top, hs, hrests⟩

end Halfway

/-- The loop over the new tracks. -/
theorem Holds.closeGroups (hx : x.automaton = .ofGrammar g) {v production : Nat}
    {p : Production} (hp : g.productions[production]? = some p) (halted : Nat) {base : Nat}
    {old : Spot} (groups : List (List Slice)) {m : Machine} (h : m.Holds x apart) {w : Nat}
    (removed : Nat) (hhalf : Halfway x production p old m base w removed groups) :
    let m' := (groups.foldl (Machine.closeGroup x v production p halted) (m, removed)).1
    m'.Holds x apart ∧ Grows m m' ∧ Keeps base m m' ∧ ∀ u, base ≤ u → u < m'.tracks.size →
      ∃ top, m'.sight u = some (top, .active) ∧ Rests old (m'.vertex top).spot := by
  -- a track that goes leaves `w` to the one behind it, a track that stays does not
  induction groups generalizing m w removed with
  | nil =>
    refine ⟨h, .refl m, .refl _ m, fun u hu hlt =>
      hhalf.fresh u hu (Nat.lt_of_not_le fun hle => ?_)⟩
    exact absurd (sight_eq_none.1 (hhalf.last u hle)) (Nat.not_le.2 hlt)
  | cons group groups ih =>
    have hbase := hhalf.base_le
    obtain ⟨here, hs, hclosable, htracks⟩ := hhalf.group 0 group rfl
    rw [Nat.add_zero] at hs htracks
    obtain ⟨hclosed, hcases⟩ := h.closeGroup hx hp (v := v) halted hclosable htracks hs
    rw [List.foldl_cons]
    generalize Machine.closeGroup x v production p halted (m, removed) group = acc at hclosed hcases
    obtain ⟨m', removed'⟩ := acc
    dsimp only at hclosed hcases
    rcases hcases with ⟨heq, hdrops⟩ | ⟨heq, state, hlifts⟩ <;> rw [heq]
    · obtain ⟨hall, hgrows, hkeeps, hfresh⟩ := ih hclosed (removed + 1) (hhalf.drop h hdrops)
      refine ⟨hall, hdrops.grows.trans hgrows, fun u hu => ?_, hfresh⟩
      rw [hkeeps u hu, hdrops.sight, if_pos (by omega)]
    · obtain ⟨hall, hgrows, hkeeps, hfresh⟩ := ih hclosed removed (hhalf.lift h hlifts)
      refine ⟨hall, hlifts.grows.trans hgrows, fun u hu => ?_, hfresh⟩
      rw [hkeeps u hu, hlifts.others u (by omega)]

/-- Slices that stand together by their tracks are told apart by them. -/
theorem splitBy_track (base : Nat) (groups : List (List Slice))
    (h : ∀ (i : Nat) (group : List Slice), groups[i]? = some group →
      group ≠ [] ∧ ∀ s ∈ group, s.track = base + i) :
    groups.flatten.splitBy (fun a b => a.track = b.track) = groups := by
  have hmem : ∀ group ∈ groups, ∃ i, group ≠ [] ∧ ∀ s ∈ group, s.track = base + i := by
    intro group hgroup
    obtain ⟨i, hi⟩ := List.mem_iff_getElem?.1 hgroup
    exact ⟨i, h i group hi⟩
  refine List.splitBy_flatten (fun hnil => ?_) (fun group hgroup => ?_) ?_
  · obtain ⟨-, hne, -⟩ := hmem [] hnil
    exact hne rfl
  · obtain ⟨i, -, hall⟩ := hmem group hgroup
    refine List.isChain_iff_getElem.2 fun j hj => ?_
    rw [hall _ (List.getElem_mem (by omega)), hall _ (List.getElem_mem hj)]
    simp
  · refine List.isChain_iff_getElem.2 fun i hi => ?_
    obtain ⟨hne, hall⟩ := h i _ (List.getElem?_eq_getElem (by omega))
    obtain ⟨hne', hall'⟩ := h (i + 1) _ (List.getElem?_eq_getElem hi)
    refine ⟨hne, hne', ?_⟩
    rw [hall _ (List.getLast_mem hne), hall' _ (List.head_mem hne')]
    simp

theorem top_of_sight {m : Machine} {v top : Nat} {status : Status}
    (h : m.sight v = some (top, status)) : m.top v = m.vertex top := by
  rw [Machine.top, (track_of_sight h).1]

/-- Closing a production in every way there is. -/
theorem Holds.reduce (hx : x.automaton = .ofGrammar g) (h : m.Holds x apart) {v : Nat}
    (hlive : m.Live v) {production a : Nat} (hred : .reduce production ∈ x.actions (m.state v) a) :
    let r := Tolerant.reduce x m v production
    r.1.Holds x apart ∧ Adds m r.1 (m.top v).spot ∧
      ∀ w, r.2 = some w → m.tracks.size ≤ w ∧ w < r.1.tracks.size := by
  cases hp : x.automaton.grammar.productions[production]? with
  | none =>
    unfold Tolerant.reduce
    rw [hp]
    exact ⟨h, .refl m _, fun w hw => by cases hw⟩
  | some p =>
    obtain ⟨halted, heq⟩ := reduce_eq m v hp
    rw [heq]
    obtain ⟨groups, hsliced, hslices⟩ := sliced_pop m v p.slots.size
    have hpopped := h.sliced hsliced hlive
    rw [hx] at hp
    have hvertex : ∀ n, (m.pop v p.slots.size).1.vertex n = m.vertex n := fun n => by
      rw [vertex, vertex, hsliced.vertices]
    -- the slices of one track stand next to each other, so that each group is one track's
    have hsplit := splitBy_track m.tracks.size groups
      fun i group hi => ⟨(hsliced.group i group hi).1, fun s hs => by
        obtain ⟨-, here, -, hall⟩ := hsliced.group i group hi
        exact (hall s hs).1⟩
    dsimp only
    rw [hslices, hsplit]
    -- before the first group all tracks stand on vertices of the old machine
    have hhalf : Halfway x production p (m.top v).spot (m.pop v p.slots.size).1 m.tracks.size
        m.tracks.size 0 groups := by
      refine ⟨Nat.le_refl _, fun j group hj => ?_, fun u hu => ?_, fun u hu hlt =>
        absurd hlt (Nat.not_lt.2 hu)⟩
      · obtain ⟨hne, here, hsight, hways⟩ := hsliced.group j group hj
        refine ⟨here, hsight, ⟨hne, ⟨a, hred⟩, fun s hs => ?_⟩, fun s hs => (hways s hs).1⟩
        obtain ⟨-, q, hdown, hhere, htrees, hdepth⟩ := hways s hs
        have hway := (h.way (h.stands_top hlive) hdown).2
        rw [hvertex, ← hhere, ← htrees, ← show q.depth = p.slots.size from hdepth]
        exact hway
      · rw [sight_eq_none, hsliced.size]
        exact hu
    obtain ⟨hall, hgrows, hkeeps, hfresh⟩ :=
      hpopped.closeGroups hx hp halted (v := v) groups 0 hhalf
    refine ⟨hall, ⟨(Grows.of_eq hsliced.vertices).trans hgrows, hsliced.keeps.trans hkeeps,
      hfresh⟩, fun w hw => ?_⟩
    split at hw
    · next hlt =>
      cases hw
      exact ⟨Nat.le_refl _, hlt⟩
    · cases hw

end Machine

end ScriptInventory.Script.Tolerant
