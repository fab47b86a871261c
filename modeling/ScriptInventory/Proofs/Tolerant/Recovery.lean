import ScriptInventory.Proofs.Tolerant.Accept
import ScriptInventory.Script.Tolerant.Recovery

/-!
# Mending damage keeps the graph

Whatever the reader tries where a terminal fits nowhere, what it puts on a track either fits
there or is damage that costs something: a missing terminal goes where the automaton goes,
an error goes over what it replaces, and what is swallowed leads to the state where nothing
is expected.
-/

namespace ScriptInventory.Script.Tolerant.Machine

open Grammar

variable {g : Numbered} {x : Context} {apart : Nat → Prop} {m : Machine}

/-! ## Quiet steps -/

/-- Nothing changes but what tracks remember. -/
structure Quiet (m m' : Machine) : Prop where
  vertices : m'.vertices = m.vertices
  best : m'.best = m.best
  sight : ∀ v, m'.sight v = m.sight v

theorem Quiet.refl (m : Machine) : Quiet m m := ⟨rfl, rfl, fun _ => rfl⟩

theorem Quiet.trans {m m' m'' : Machine} (h : Quiet m m') (h' : Quiet m' m'') : Quiet m m'' :=
  ⟨h'.vertices.trans h.vertices, h'.best.trans h.best, fun v => (h'.sight v).trans (h.sight v)⟩

theorem Quiet.holds {m' : Machine} (hq : Quiet m m') (h : m.Holds x apart) :
    m'.Holds x apart :=
  h.retrack hq.vertices hq.best fun v top status hs hhalted =>
    h.tracks v top status (hq.sight v ▸ hs) hhalted

theorem Quiet.keeps {m' : Machine} (hq : Quiet m m') (n : Nat) : Keeps n m m' :=
  fun v _ => hq.sight v

theorem Quiet.size {m' : Machine} (hq : Quiet m m') : m'.tracks.size = m.tracks.size := by
  apply Nat.le_antisymm
  · rw [← sight_eq_none, hq.sight, sight_eq_none]
  · rw [← sight_eq_none, ← hq.sight, sight_eq_none]

theorem quiet_settle (m : Machine) (v : Nat) : Quiet m (m.settle v) :=
  ⟨rfl, rfl, sight_settle m v⟩

theorem quiet_isBeaten (m : Machine) (v cost : Nat) (inError : Bool) :
    Quiet m (m.isBeaten v cost inError).1 := by
  unfold isBeaten
  split
  · exact .refl m
  · dsimp only
    refine List.foldlRecOn (motive := fun acc : Machine × Bool => Quiet m acc.1) _ _
      (quiet_settle m v) ?_
    rintro ⟨m', beaten⟩ hq i -
    dsimp only
    split
    · exact hq
    · split <;> exact hq.trans (quiet_settle m' i)

/-! ## Taking an error off -/

/-- What is known of an error that has been taken off a track: it ended with a tree that was
no extra one. -/
def TookErrors (errors : List Tree) : Prop :=
  ∀ e, errors.head? = some e → ∃ c, e.children.getLast? = some c ∧ c.extra = false

theorem tookErrors_nil : TookErrors [] := by
  intro e he
  cases he

/-- All tracks but `w` have the same tops and statuses. -/
def KeepsBut (w : Nat) (m m' : Machine) : Prop :=
  ∀ u, u < m.tracks.size → u ≠ w → m'.sight u = m.sight u

theorem KeepsBut.refl (w : Nat) (m : Machine) : KeepsBut w m m := fun _ _ _ => rfl

theorem KeepsBut.trans {w : Nat} {m m' m'' : Machine} (h : KeepsBut w m m')
    (h' : KeepsBut w m' m'') : KeepsBut w m m'' := by
  intro u hu hne
  refine (h' u (Nat.lt_of_not_le fun hle => ?_) hne).trans (h u hu hne)
  have hnone := h u hu hne
  rw [sight_eq_none.2 hle, sight_of_lt hu] at hnone
  cases hnone

/-- A track may have gone down, but it is in the same state. -/
structure Lowers (m m' : Machine) (w state : Nat) : Prop where
  grows : Grows m m'
  others : KeepsBut w m m'
  top : ∃ top status, m'.sight w = some (top, status) ∧ status.isHalted = false ∧
    (m'.vertex top).spot.state = state

/-- Where nothing has been taken off yet. -/
def IsFresh (p : Path) : Prop := p.trees = []

/-- Where an error has been taken off last. -/
def AtError (_ : Vertex) (p : Path) : Prop := ∃ e rest, p.trees = e :: rest ∧ e.label = .error

/-- What is done on a way down to take an error off. -/
def visitError (found : Bool) (_ : Vertex) (p : Path) : Bool × Verdict :=
  match p.trees with
  | [] => (found, ⟨false, false⟩)
  | t :: _ => if !found && t.label = .error then (true, ⟨true, true⟩) else (found, ⟨false, true⟩)

theorem visits_visitError : Visits visitError IsFresh AtError := by
  refine ⟨fun found u p htake => ?_, fun found u p hstop => ?_⟩
  · rw [visitError] at htake
    cases ht : p.trees with
    | nil => rw [ht] at htake; cases htake
    | cons t rest =>
      rw [ht] at htake
      dsimp only at htake
      split at htake
      · next hcond =>
        rw [Bool.and_eq_true] at hcond
        exact ⟨t, rest, ht, of_decide_eq_true hcond.2⟩
      · cases htake
  · rw [visitError] at hstop
    cases ht : p.trees with
    | nil => exact ht
    | cons t rest =>
      rw [ht] at hstop
      dsimp only at hstop
      split at hstop <;> cases hstop

/-- What is taken off where the state is not damage is an error and nothing else, and the
state stays. -/
theorem Holds.atError (h : m.Holds x apart) {n : Nat} (hn : m.Stands apart n)
    (hstate : (m.vertex n).spot.state ≠ 0) {p : Path} (hp : Down m IsFresh n p)
    (herror : AtError (m.vertex p.here) p) :
    (m.vertex p.here).spot.state = (m.vertex n).spot.state ∧ TookErrors p.trees := by
  obtain ⟨e, rest, htrees, hlabel⟩ := herror
  cases hp with
  | here => cases htrees
  | @follow q l hq hfresh hl =>
    obtain ⟨hstands, hway⟩ := h.way hn hq
    obtain ⟨hbelow, hfits⟩ := h.links q.here hstands l hl
    -- a fresh path has taken nothing, so it is still at the top
    have hspot := hway.eq_of_nil hfresh hstate
    cases hl' : l.tree with
    | none =>
      rw [Path.follow, hl', show q.trees = [] from hfresh] at htrees
      cases htrees
    | some t =>
      rw [hl', hspot] at hfits
      rw [Path.follow, hl'] at htrees ⊢
      dsimp only at htrees ⊢
      obtain ⟨rfl, -⟩ := List.cons.inj htrees
      have hcrosses : Crosses x (m.vertex l.below).spot (m.vertex n).spot t := hfits
      -- an error stands for no symbol, so only as an extra tree it leads on
      have hextra : t.extra = true := by
        by_contra hnot
        rw [Bool.not_eq_true] at hnot
        obtain ⟨X, hX, -⟩ := hcrosses.goes hstate hnot
        rw [hlabel] at hX
        cases hX
      refine ⟨hcrosses.extra hstate hextra, fun e' he' => ?_⟩
      cases he'
      exact hcrosses.error hlabel

/-- Gives a track the first of some slices, and the trees of that slice. -/
def takeFirst (m : Machine) (w : Nat) (slices : Array Slice) : Machine × List Tree :=
  match slices[0]? with
  | some s => (m.replace s.track w, s.trees)
  | none => (m, [])

theorem popError_eq (m : Machine) (w : Nat) :
    m.popError w =
      if (m.top w).links.any fun l => l.tree.any fun t => t.label = .error then
        (m.walk w visitError false).1.takeFirst w (m.walk w visitError false).2.1
      else (m, []) := rfl

/-- Takes an error off a track whose state is not damage. -/
theorem Holds.popError (h : m.Holds x apart) {w n : Nat} {status : Status}
    (hs : m.sight w = some (n, status)) (hhalted : status.isHalted = false)
    (hstate : (m.vertex n).spot.state ≠ 0) :
    let r := m.popError w
    r.1.Holds x apart ∧ TookErrors r.2 ∧
      Lowers m r.1 w (m.vertex n).spot.state ∧
        (r.2 = [] → r.1.sight w = some (n, status)) := by
  have hlive : m.Live w := ⟨n, status, hs, hhalted⟩
  obtain ⟨htop, -, hlt⟩ := track_of_sight hs
  obtain ⟨groups, hsliced, hslices⟩ := sliced_walk visits_visitError m w false
  have hwalked := h.sliced hsliced hlive
  rw [htop] at hsliced
  have hwsight : (m.walk w visitError false).1.sight w = some (n, status) := by
    rw [hsliced.keeps w hlt, hs]
  have hgrows : Grows m (m.walk w visitError false).1 := .of_eq hsliced.vertices
  rw [popError_eq]
  split
  · -- an error is on top: the walk takes one slice off, or finds none
    unfold takeFirst
    rw [← Array.getElem?_toList, hslices]
    -- the track takes the first slice, and the others are left to be removed
    cases hfirst : groups.flatten[0]? with
    | none =>
      dsimp only
      refine ⟨hwalked, tookErrors_nil,
        ⟨hgrows, fun u hu _ => hsliced.keeps u hu, n, status, hwsight, hhalted, ?_⟩,
        fun _ => hwsight⟩
      exact congrArg Spot.state (hgrows.spot n (h.tracks w n status hs hhalted).1)
    | some s =>
      obtain ⟨htrack, p, hhere, hdown, htrees, hwanted⟩ :=
        hsliced.of_mem (List.mem_of_getElem? hfirst)
      -- below an error the state is the same, since an error leads on in its own state
      obtain ⟨hsame, herrors⟩ := h.atError (h.tracks w n status hs hhalted) hstate hdown hwanted
      obtain ⟨-, -, hslt⟩ := track_of_sight hhere
      have hws : w < s.track := by omega
      have hreplaced := sight_replace (m.walk w visitError false).1 hws hslt
      obtain ⟨hvertices, -⟩ := vertices_replace (m.walk w visitError false).1 s.track w
      dsimp only
      refine ⟨hwalked.replace hws hslt, htrees ▸ herrors,
        ⟨hgrows.trans (.of_eq hvertices), fun u hu hne => ?_, p.here, .active, ?_, rfl, ?_⟩, ?_⟩
      · rw [hreplaced, if_pos (by omega), if_neg hne, hsliced.keeps u hu]
      · rw [hreplaced, if_pos hws, if_pos rfl, hhere]
      · rw [vertex, hvertices, hsliced.vertices]
        exact hsame
      · intro hnil
        obtain ⟨e, rest, he, -⟩ := hwanted
        rw [← htrees, he] at hnil
        cases hnil
  · -- no error is on top, and nothing is done
    exact ⟨h, tookErrors_nil,
      ⟨.refl m, .refl w m, n, status, hs, hhalted, rfl⟩, fun _ => hs⟩

/-! ## Going back -/

/-- One turn of the loop that goes back to a state. -/
def goBackOver (x : Context) (goal : Nat) (acc : Machine × Option Nat) (s : Slice) :
    Machine × Option Nat :=
  let (m, last) := acc
  if last = some s.track then acc
  else if m.state s.track ≠ goal then (m.setStatus s.track .halted, last)
  else
    let (m, errors) := m.popError s.track
    let old := (errors.head?.map Tree.children).getD []
    let (trees, extras) := Tree.splitExtras (old ++ s.trees)
    let m :=
      if trees.isEmpty then m
      else
        let error := { Tree.branch x .error trees none 0 with extra := true }
        m.push s.track (some error) goal
    let m := extras.foldl (fun m e => m.push s.track (some e) goal) m
    (m, some s.track)

theorem goBack_eq (m : Machine) (v depth goal : Nat) :
    goBack x m v depth goal =
      let popped := m.pop v depth
      let r := popped.2.toList.foldl (goBackOver x goal) (popped.1, none)
      (r.1, r.2.isSome) := by
  unfold goBack
  dsimp only
  rw [Array.foldl_toList]
  rfl

/-- What was read and becomes an error, where older errors stood already: only of what was
read can be extra trees behind the error. -/
theorem exists_of_splitExtras {errors trees read extras : List Tree}
    (herrors : TookErrors errors)
    (hsplit : Tree.splitExtras ((errors.head?.map Tree.children).getD [] ++ read) =
      (trees, extras)) :
    (∃ front, read = front ++ extras) ∧ (trees = [] → errors = []) := by
  obtain ⟨heq, hextras, -⟩ := splitExtras_eq hsplit
  cases hhead : errors.head? with
  | none =>
    rw [hhead] at heq
    exact ⟨⟨trees, heq⟩, fun _ => List.head?_eq_none_iff.1 hhead⟩
  | some e =>
    obtain ⟨c, hc, hnot⟩ := herrors e hhead
    rw [hhead] at heq
    change e.children ++ read = trees ++ extras at heq
    have hmem : c ∉ extras := fun hin => by
      rw [hextras c hin] at hnot
      cases hnot
    rcases List.append_eq_append_iff.1 heq with ⟨front, rfl, hread⟩ | ⟨rest, hchildren, rfl⟩
    · refine ⟨⟨front, hread⟩, fun hnil => ?_⟩
      rw [(List.append_eq_nil_iff.1 hnil).1] at hc
      cases hc
    · cases rest with
      | nil =>
        refine ⟨⟨[], rfl⟩, fun hnil => ?_⟩
        rw [hchildren, hnil] at hc
        cases hc
      | cons r rest =>
        rw [hchildren, List.getLast?_append_of_ne_nil _ (by simp)] at hc
        exact absurd (List.mem_append_left _ (List.mem_of_getLast? hc)) hmem

/-- Damage that costs something leads on in the same state. -/
theorem crosses_error (low : Spot) {trees : List Tree} {c : Tree}
    (hlast : trees.getLast? = some c) (hnot : c.extra = false) :
    Crosses x low (low.grow
        (some { Tree.branch x .error trees none 0 with extra := true }) low.state)
      { Tree.branch x .error trees none 0 with extra := true } := by
  have hcost : 0 < Tree.cost { Tree.branch x .error trees none 0 with extra := true } :=
    cost_branch_pos .error rfl trees none 0
  refine ⟨rfl, fun h => (by cases h), fun _ => ⟨c, hlast, hnot⟩,
    fun _ h => (by cases h), fun _ _ => rfl, fun _ h => (by cases h), fun c h => (by cases h),
    fun hdamage => ?_⟩
  have hzero : low.damage +
      Tree.cost { Tree.branch x .error trees none 0 with extra := true } = 0 := hdamage
  omega

/-- What was read becomes an error, and the extra trees behind it are put back. -/
theorem Holds.pushError (h : m.Holds x apart) {w here n : Nat} {status : Status}
    (hhalted : status.isHalted = false) (hs : m.sight w = some (n, status)) {old : Spot}
    {read : List Tree} {d : Nat}
    (hway : Way x old (m.vertex here).spot read d) {errors trees extras : List Tree}
    (herrors : TookErrors errors) (hsame : errors = [] → n = here)
    (hsplit : Tree.splitExtras ((errors.head?.map Tree.children).getD [] ++ read) =
      (trees, extras)) :
    let state := (m.vertex n).spot.state
    let m' := if trees.isEmpty then m
      else m.push w (some { Tree.branch x .error trees none 0 with extra := true }) state
    let m'' := extras.foldl (fun m e => m.push w (some e) state) m'
    m''.Holds x apart ∧ ∃ old', Lifts m m'' w status old' state := by
  obtain ⟨heq, hextras, hlast⟩ := splitExtras_eq hsplit
  obtain ⟨⟨front, rfl⟩, hnone⟩ := exists_of_splitExtras herrors hsplit
  obtain ⟨mid, k, l, hfront, hback, -⟩ := hway.split rfl
  dsimp only
  split
  · -- nothing would be in the error: what was read is extra trees, which go back as they are
    next hempty =>
    have hnil := List.isEmpty_iff.1 hempty
    have hhead := hnone hnil
    obtain rfl := hsame hhead
    rw [hhead, hnil] at heq
    obtain rfl : front = [] := by
      have hlen := congrArg List.length heq
      simp only [List.head?_nil, Option.map_none, Option.getD_none, List.nil_append,
        List.length_append] at hlen
      exact List.eq_nil_of_length_eq_zero (by omega)
    obtain ⟨hall, hlifts⟩ := h.pushExtras hhalted hway hextras hs (.refl _)
    exact ⟨hall, _, hlifts⟩
  · -- The error is pushed first. It costs something, so nothing is promised of where it stands
    next hempty =>
    obtain ⟨c, hc⟩ : ∃ c, trees.getLast? = some c := by
      cases hlast : trees.getLast? with
      | none => exact absurd (by rw [List.getLast?_eq_none_iff.1 hlast]; rfl) hempty
      | some c => exact ⟨c, rfl⟩
    have hcrosses := crosses_error (x := x) (m.vertex n).spot hc (hlast c hc)
    have hrests : Rests mid ((m.vertex n).spot.grow
        (some { Tree.branch x .error trees none 0 with extra := true })
        (m.vertex n).spot.state) := by
      intro hzero
      have hcost : 0 < Tree.cost { Tree.branch x .error trees none 0 with extra := true } :=
        cost_branch_pos .error rfl trees none 0
      have hsum : (m.vertex n).spot.damage +
        Tree.cost { Tree.branch x .error trees none 0 with extra := true } = 0 := hzero
      omega
    -- then the extra trees behind it, on the track with the error on top
    obtain ⟨hpushed, hlifts⟩ := h.lifts hs rfl hhalted (some _) hcrosses hrests
    obtain ⟨n', hs', hstate', hrests'⟩ := hlifts.top
    obtain ⟨hall, hlifts'⟩ := hpushed.pushExtras hhalted hback hextras hs' hrests'
    rw [hstate'] at hall hlifts'
    exact ⟨hall, _, hlifts.trans hlifts'⟩

/-- Going back over one way. -/
theorem Holds.goBackOver (h : m.Holds x apart) {goal here : Nat} {status : Status}
    (hgoal : goal ≠ 0) {last : Option Nat} {s : Slice} {old : Spot}
    {d : Nat} (hhere : here < m.vertices.size)
    (hway : Way x old (m.vertex here).spot s.trees d)
    (hs : last = some s.track ∨ m.sight s.track = some (here, status) ∧
      (status.isHalted → (m.vertex here).spot.state ≠ goal)) :
    let r := Machine.goBackOver x goal (m, last) s
    r.1.Holds x apart ∧ Grows m r.1 ∧ KeepsBut s.track m r.1 ∧
      (r.2 = some s.track ∨ ∃ status, r.1.sight s.track = some (here, status) ∧
        (status.isHalted → (r.1.vertex here).spot.state ≠ goal)) := by
  unfold Machine.goBackOver
  dsimp only
  split
  · -- the track was done with an earlier slice
    next hlast => exact ⟨h, .refl m, .refl _ m, .inl hlast⟩
  · next hlast =>
    obtain ⟨hs, hnot⟩ := hs.resolve_left hlast
    have hstate : m.state s.track = (m.vertex here).spot.state := by
      rw [state, top_of_sight hs]
      rfl
    rw [hstate]
    split
    · -- another state is there: the track is halted, and stands where it stood
      next hne =>
      refine ⟨h.setStatus fun hhalted => (by cases hhalted), .of_eq rfl, fun u _ hu => ?_,
        .inr ⟨.halted, ?_, fun _ => hne⟩⟩
      · rw [sight_setStatus, if_neg (Ne.symm hu)]
      · rw [sight_setStatus, if_pos rfl, hs]
        rfl
    · -- the state gone back to: older errors come off, and the new one takes them in
      next heq =>
      have heq : (m.vertex here).spot.state = goal := Decidable.not_not.1 heq
      have hhalted : status.isHalted = false := by
        by_contra hcon
        exact hnot ((Bool.not_eq_false _).mp hcon) heq
      obtain ⟨hpopped, herrors, hlowers, hsame⟩ := h.popError hs hhalted (heq ▸ hgoal)
      rw [heq] at hlowers
      -- from here on only what `popError` promises counts
      generalize m.popError s.track = popped at hpopped herrors hlowers hsame ⊢
      obtain ⟨m', errors⟩ := popped
      dsimp only at hpopped herrors hlowers hsame ⊢
      obtain ⟨top, status', hs', hhalted', hstate'⟩ := hlowers.top
      rw [← hlowers.grows.spot here hhere] at hway
      cases hsplit : Tree.splitExtras ((errors.head?.map Tree.children).getD [] ++ s.trees) with
      | mk trees extras =>
        obtain ⟨hall, old', hlifts⟩ := hpopped.pushError hhalted' hs' hway
          herrors (fun hnil => by
            have := hsame hnil
            rw [hs'] at this
            exact (Prod.mk.inj (Option.some.inj this)).1) hsplit
        rw [hstate'] at hall hlifts
        refine ⟨hall, hlowers.grows.trans hlifts.grows,
          hlowers.others.trans fun u _ hne => hlifts.others u hne, .inl rfl⟩

/-- Going back over all ways that end on one track. -/
theorem Holds.goBackGroup {goal here w d : Nat} (hgoal : goal ≠ 0) {old : Spot}
    (group : List Slice) {m : Machine} (h : m.Holds x apart) (hhere : here < m.vertices.size)
    (last : Option Nat)
    (hgroup : ∀ s ∈ group, s.track = w ∧ Way x old (m.vertex here).spot s.trees d)
    (hs : last = some w ∨ ∃ status, m.sight w = some (here, status) ∧
      (status.isHalted → (m.vertex here).spot.state ≠ goal)) :
    let r := group.foldl (Machine.goBackOver x goal) (m, last)
    r.1.Holds x apart ∧ Grows m r.1 ∧ KeepsBut w m r.1 := by
  induction group generalizing m last with
  | nil => exact ⟨h, .refl m, .refl w m⟩
  | cons s group ih =>
    obtain ⟨⟨rfl, hway⟩, hgroup⟩ := List.forall_mem_cons.1 hgroup
    obtain ⟨status, hs⟩ : ∃ status, last = some s.track ∨ m.sight s.track = some (here, status) ∧
        (status.isHalted → (m.vertex here).spot.state ≠ goal) := by
      rcases hs with hlast | ⟨status, hs⟩
      · exact ⟨.active, .inl hlast⟩
      · exact ⟨status, .inr hs⟩
    obtain ⟨hall, hgrows, hothers, hs'⟩ := h.goBackOver hgoal hhere hway hs
    rw [List.foldl_cons]
    generalize Machine.goBackOver x goal (m, last) s = acc at hall hgrows hothers hs' ⊢
    obtain ⟨m', last'⟩ := acc
    dsimp only at hall hgrows hothers hs'
    obtain ⟨hall', hgrows', hothers'⟩ := ih hall (Nat.lt_of_lt_of_le hhere hgrows.size_le)
      last' (by rwa [hgrows.spot here hhere]) hs'
    exact ⟨hall', hgrows.trans hgrows', hothers.trans hothers'⟩

/-- Going back over all ways, track by track. -/
theorem Holds.goBackGroups {goal d : Nat} (hgoal : goal ≠ 0) {old : Spot}
    (groups : List (List Slice)) {m : Machine} (h : m.Holds x apart) {w : Nat}
    (hgroups : ∀ (j : Nat) (group : List Slice), groups[j]? = some group → ∃ here,
      m.sight (w + j) = some (here, .active) ∧
        ∀ s ∈ group, s.track = w + j ∧ Way x old (m.vertex here).spot s.trees d)
    (last : Option Nat) :
    let r := groups.foldl (fun acc group => group.foldl (Machine.goBackOver x goal) acc) (m, last)
    r.1.Holds x apart ∧ Grows m r.1 ∧ ∀ u, u < m.tracks.size → u < w → r.1.sight u = m.sight u := by
  induction groups generalizing m w last with
  | nil => exact ⟨h, .refl m, fun _ _ _ => rfl⟩
  | cons group groups ih =>
    obtain ⟨here, hs, hgroup⟩ := hgroups 0 group rfl
    have hhere := (h.tracks _ here _ hs rfl).1
    obtain ⟨hall, hgrows, hothers⟩ := h.goBackGroup hgoal group hhere last hgroup
      (.inr ⟨_, hs, fun hhalted => (by cases hhalted)⟩)
    rw [List.foldl_cons]
    generalize group.foldl (Machine.goBackOver x goal) (m, last) = acc at hall hgrows hothers ⊢
    obtain ⟨m', last'⟩ := acc
    dsimp only at hall hgrows hothers
    obtain ⟨hall', hgrows', hothers'⟩ := ih hall (w := w + 1) (fun j group' hj => by
      obtain ⟨here', hs', hgroup'⟩ := hgroups (j + 1) group' hj
      refine ⟨here', ?_, fun s hmem => ?_⟩
      · rw [show w + 1 + j = w + (j + 1) by omega,
          hothers _ (track_of_sight hs').2.2 (by omega), hs']
      · obtain ⟨htrack, hway⟩ := hgroup' s hmem
        rw [hgrows.spot here' (h.tracks _ here' _ hs' rfl).1]
        exact ⟨by omega, hway⟩) last'
    refine ⟨hall', hgrows.trans hgrows', fun u hu huw => ?_⟩
    have hsame := hothers u hu (by omega)
    rw [hothers' u (Nat.lt_of_not_le fun hle => ?_) (by omega), hsame]
    rw [sight_eq_none.2 hle, sight_of_lt hu] at hsame
    cases hsame

/-- Going back to a state. -/
theorem Holds.goBack (h : m.Holds x apart) {v : Nat} (hlive : m.Live v) (depth : Nat)
    {goal : Nat} (hgoal : goal ≠ 0) :
    (Tolerant.goBack x m v depth goal).1.Holds x apart ∧
      Keeps m.tracks.size m (Tolerant.goBack x m v depth goal).1 := by
  obtain ⟨groups, hsliced, hslices⟩ := sliced_pop m v depth
  have hvertex : ∀ n, (m.pop v depth).1.vertex n = m.vertex n := fun n => by
    rw [vertex, vertex, hsliced.vertices]
  obtain ⟨hall, -, hkeeps⟩ := (h.sliced hsliced hlive).goBackGroups hgoal (d := depth)
    (x := x) groups (w := m.tracks.size) (fun j group hj => by
      obtain ⟨-, here, hs, hgroup⟩ := hsliced.group j group hj
      refine ⟨here, hs, fun s hmem => ?_⟩
      obtain ⟨htrack, p, hdown, rfl, htrees, hdepth⟩ := hgroup s hmem
      rw [hvertex, ← htrees, ← show p.depth = depth from hdepth]
      exact ⟨htrack, (h.way (h.stands_top hlive) hdown).2⟩) none
  rw [goBack_eq]
  dsimp only
  rw [hslices, List.foldl_flatten]
  refine ⟨hall, hsliced.keeps.trans fun u hu => hkeeps u ?_ hu⟩
  rw [hsliced.size]
  omega

/-- Trying to go back. -/
theorem Holds.tryRetreats (v count position since cost : Nat) (ahead : Tree)
    (retreats : List Retreat) {m : Machine} (h : m.Holds x apart) (hlive : m.Live v) :
    let r := Tolerant.tryRetreats x v count position since cost ahead m retreats
    r.1.Holds x apart ∧ Keeps m.tracks.size m r.1 := by
  induction retreats generalizing m with
  | nil => exact ⟨h, .refl _ m⟩
  | cons r rest ih =>
    unfold Tolerant.tryRetreats
    dsimp only
    split
    · -- no choice: damage stands there, or this track or another one does already
      exact ih h hlive
    · next hcond =>
      have hgoal : r.state ≠ 0 := fun hzero => hcond (by simp [hzero])
      have hquiet := quiet_isBeaten m v
        (cost + r.depth * swallowedCost + x.text.cost r.position position) false
      -- whether another track is cheaper is asked first, which moves no vertex
      generalize m.isBeaten v
        (cost + r.depth * swallowedCost + x.text.cost r.position position) false = beaten at hquiet
      obtain ⟨m', beaten⟩ := beaten
      dsimp only at hquiet ⊢
      have h' := hquiet.holds h
      have hkeeps := hquiet.keeps m.tracks.size
      have hlive' := hkeeps.live hlive.lt hlive
      split
      · -- another track is cheaper, and the loop ends
        exact ⟨h', hkeeps⟩
      · split
        · obtain ⟨hback, hkeeps'⟩ := h'.goBack hlive'
            (if 0 < since then r.depth + 1 else r.depth) hgoal
          generalize Tolerant.goBack x m' v (if 0 < since then r.depth + 1 else r.depth) r.state =
            gone at hback hkeeps' ⊢
          obtain ⟨m'', done⟩ := gone
          dsimp only at hback hkeeps' ⊢
          rw [hquiet.size] at hkeeps'
          have hall := hkeeps.trans hkeeps'
          split
          · -- going back was possible
            exact ⟨hback, hall⟩
          · -- no way led back that far, and the next retreat is tried on what is left
            obtain ⟨hrest, hkeeps''⟩ := ih hback (hall.live hlive.lt hlive)
            exact ⟨hrest, hall.trans (hkeeps''.mono hall.size_le)⟩
        · obtain ⟨hrest, hkeeps'⟩ := ih h' hlive'
          rw [hquiet.size] at hkeeps'
          exact ⟨hrest, hkeeps.trans hkeeps'⟩

/-! ## Swallowing a terminal -/

/-- Tracks may be given up, in whatever order the others stand. -/
theorem Holds.subtracks (h : m.Holds x apart) {m' : Machine} (hv : m'.vertices = m.vertices)
    (hb : m'.best = m.best)
    (ht : ∀ k ∈ m'.tracks.toList, k ∈ m.tracks.toList ∨ k.status.isHalted) :
    m'.Holds x apart := by
  refine h.retrack hv hb fun v top status hs hhalted => ?_
  obtain ⟨k, hk, heq⟩ := Option.map_eq_some_iff.1 hs
  cases heq
  rcases ht k (Array.mem_def.1 (Array.mem_of_getElem? hk)) with hmem | hcon
  · obtain ⟨u, hu⟩ := List.mem_iff_getElem?.1 hmem
    refine h.tracks u k.top k.status ?_ hhalted
    rw [sight, ← Array.getElem?_toList, hu]
    rfl
  · rw [hcon] at hhalted
    cases hhalted

theorem Holds.dropInactive (h : m.Holds x apart) (v : Nat) :
    (Tolerant.dropInactive m v).Holds x apart ∧
      Keeps (min v m.tracks.size) m (Tolerant.dropInactive m v) := by
  have htracks : (Tolerant.dropInactive m v).tracks.toList = m.tracks.toList.take v ++
      (m.tracks.toList.drop v).filter fun k => k.status.isActive := by
    rw [Tolerant.dropInactive]
    simp only [Array.toList_append, Array.take_eq_extract, Array.drop_eq_extract,
      Array.toList_filter, Array.toList_extract, List.extract_eq_take_drop, List.drop_zero,
      Nat.sub_zero]
    rw [List.take_of_length_le (i := m.tracks.size - v) (by simp)]
  refine ⟨h.subtracks rfl rfl fun k hk => .inl ?_, fun u hu => ?_⟩
  · rw [htracks] at hk
    rcases List.mem_append.1 hk with hmem | hmem
    · exact List.mem_of_mem_take hmem
    · exact List.mem_of_mem_drop (List.mem_filter.1 hmem).1
  · rw [sight, ← Array.getElem?_toList, htracks, List.getElem?_append_left (by simpa using hu),
      List.getElem?_take_of_lt (by omega), Array.getElem?_toList, sight]

/-- A terminal is swallowed. -/
theorem crosses_swallowed (low : Spot) (trees : List Tree) :
    Crosses x low (low.grow (some (Tree.branch x .swallowed trees none 0)) 0)
      (Tree.branch x .swallowed trees none 0) := by
  refine ⟨rfl, fun _ => ⟨rfl, rfl⟩, fun h => (by cases h), fun h => (by cases h),
    fun h => absurd rfl h, fun h => absurd rfl h, fun c h => (by cases h), fun _ h => ?_⟩
  rcases h with h | h
  · exact absurd rfl h
  · cases h

theorem Holds.swallow (h : m.Holds x apart) {v : Nat} (hlive : m.Live v) (since : Nat)
    (ahead : Tree) : (Tolerant.swallow x m v since ahead).Holds x apart := by
  unfold Tolerant.swallow
  dsimp only
  split
  · obtain ⟨groups, hsliced, hslices⟩ := sliced_pop m v 1
    have hpopped := h.sliced hsliced hlive
    rw [← Array.getElem?_toList, hslices]
    split
    · next s hs =>
      obtain ⟨htrack, p, hhere, -⟩ := hsliced.of_mem (List.mem_of_getElem? hs)
      -- the tracks behind the first new one are given up
      obtain ⟨m', hm'⟩ : ∃ m', m' = { (m.pop v 1).1 with
        tracks := (m.pop v 1).1.tracks.take (s.track + 1) } := ⟨_, rfl⟩
      have hsub : m'.Holds x apart := by
        refine hpopped.subtracks (by rw [hm']) (by rw [hm']) fun k hk => .inl ?_
        rw [hm'] at hk
        simp only [Array.take_eq_extract, Array.toList_extract, List.extract_eq_take_drop] at hk
        exact List.mem_of_mem_drop (List.mem_of_mem_take hk)
      have hsight : ∀ u, u < s.track + 1 → m'.sight u = (m.pop v 1).1.sight u := by
        intro u hu
        rw [hm', sight, sight, ← Array.getElem?_toList, ← Array.getElem?_toList]
        simp only [Array.take_eq_extract, Array.toList_extract, List.extract_eq_take_drop,
          List.drop_zero, Nat.sub_zero]
        rw [List.getElem?_take_of_lt hu]
      have hs' : m'.sight s.track = some (p.here, .active) := by
        rw [hsight _ (Nat.lt_succ_self _), hhere]
      have hvs : v < s.track := by
        have := hlive.lt
        omega
      rw [← hm']
      have hlt := (track_of_sight hs').2.2
      refine (hsub.replace hvs hlt).push ⟨p.here, .active, ?_, rfl⟩ (crosses_swallowed _ _)
      rw [sight_replace m' hvs hlt, if_pos hvs, if_pos rfl, hs']
    · exact hpopped.push ((hsliced.keeps.live hlive.lt) hlive) (crosses_swallowed _ _)
  · exact h.push hlive (crosses_swallowed _ _)

/-! ## Recovering -/

theorem Keeps.dropInactive {m' : Machine} {v : Nat} (h : Keeps m.tracks.size m m')
    (hdrop : Keeps (min m.tracks.size m'.tracks.size) m' (Tolerant.dropInactive m' m.tracks.size))
    (hv : v < m.tracks.size) : (Tolerant.dropInactive m' m.tracks.size).sight v = m.sight v := by
  rw [hdrop v (by have := h.size_le; omega), h v hv]

/-- Dealing with a terminal in the middle of damage. -/
theorem Holds.recover (h : m.Holds x apart) {v : Nat} (hlive : m.Live v) (ahead : Tree) :
    ∃ apart', (Tolerant.recover x m v ahead).Holds x apart' := by
  have hsettled := (quiet_settle m v).holds h
  have hlive' : (m.settle v).Live v := by
    rwa [Live, sight_settle]
  have hsize : (m.settle v).tracks.size = m.tracks.size := (quiet_settle m v).size
  unfold Tolerant.recover
  dsimp only
  -- what going back gives
  obtain ⟨gone, hgone⟩ : ∃ gone, gone = if ahead.isUnreadable then (m.settle v, false)
    else Tolerant.tryRetreats x v m.tracks.size ((m.settle v).position v)
      ((m.settle v).progressSince v) ((m.settle v).damage v) ahead (m.settle v)
      ((((m.settle v).track v).retreats).getD []) := ⟨_, rfl⟩
  have htried : gone.1.Holds x apart ∧ Keeps (m.settle v).tracks.size (m.settle v) gone.1 := by
    rw [hgone]
    split
    · exact ⟨hsettled, .refl _ _⟩
    · exact hsettled.tryRetreats v _ _ _ _ ahead _ hlive'
  rw [← hgone]
  obtain ⟨m', retreated⟩ := gone
  dsimp only at htried ⊢
  obtain ⟨hm', hkeeps⟩ := htried
  obtain ⟨hdropped, hdrops⟩ := hm'.dropInactive (m.settle v).tracks.size
  have hsight := hkeeps.dropInactive hdrops hlive'.lt
  have hlive'' : (Tolerant.dropInactive m' (m.settle v).tracks.size).Live v := by
    rw [Live, hsight]
    exact hlive'
  rw [hsize] at hdropped hlive''
  generalize Tolerant.dropInactive m' m.tracks.size = dropped at hdropped hlive''
  split
  · next hend => exact (hdropped.ends_error hlive'' rfl rfl hend).accept
  · split
    · exact ⟨apart, hdropped.setStatus fun hcon => (by cases hcon)⟩
    · have hquiet := quiet_isBeaten dropped v
        ((m.settle v).damage v + swallowedCost + x.text.cost ahead.reach ahead.stop) false
      generalize dropped.isBeaten v
        ((m.settle v).damage v + swallowedCost + x.text.cost ahead.reach ahead.stop) false =
          beaten at hquiet
      obtain ⟨m'', beaten⟩ := beaten
      dsimp only at hquiet ⊢
      have hm'' := hquiet.holds hdropped
      split
      · exact ⟨apart, hm''.setStatus fun hcon => (by cases hcon)⟩
      · refine ⟨apart, hm''.swallow ?_ _ ahead⟩
        rwa [Live, hquiet.sight]

/-! ## Closing whatever can be closed -/

theorem Adds.trans {m' m'' : Machine} {old : Spot} (h : Adds m m' old)
    (hm' : m'.Holds x apart) (h' : Adds m' m'' old) : Adds m m'' old := by
  refine ⟨h.grows.trans h'.grows, h.keeps.trans (h'.keeps.mono h.keeps.size_le),
    fun w hw hlt => ?_⟩
  rcases Nat.lt_or_ge w m'.tracks.size with hlt' | hge
  · obtain ⟨top, hs, hrests⟩ := h.fresh w hw hlt'
    refine ⟨top, by rw [h'.keeps w hlt', hs], ?_⟩
    rw [h'.grows.spot top (hm'.tracks w top _ hs rfl).1]
    exact hrests
  · exact h'.fresh w hge hlt

/-- A track that is still followed stands where it stood. -/
theorem Adds.top {m' : Machine} {old : Spot} (h : Adds m m' old) (hm : m.Holds x apart)
    {v : Nat} (hlive : m.Live v) : m'.Live v ∧ (m'.top v).spot = (m.top v).spot := by
  refine ⟨h.keeps.live hlive.lt hlive, ?_⟩
  have hlt := (hm.stands_top hlive).1
  obtain ⟨top, status, hs, -⟩ := hlive
  rw [top_of_sight hs, top_of_sight (h.keeps v (track_of_sight hs).2.2 ▸ hs)]
  rw [(track_of_sight hs).1] at hlt
  exact h.grows.spot top hlt

/-- Closing several productions. -/
theorem Holds.reduceAll (hx : x.automaton = .ofGrammar g) (h : m.Holds x apart) {v : Nat}
    (hlive : m.Live v) (closed : List Nat)
    (hclosed : ∀ p ∈ closed, ∃ a, .reduce p ∈ x.actions (m.state v) a) :
    let r := closed.foldl (fun (acc : Machine × Option Nat) p => Tolerant.reduce x acc.1 v p)
      (m, none)
    r.1.Holds x apart ∧ Adds m r.1 (m.top v).spot ∧
      ∀ w, r.2 = some w → m.tracks.size ≤ w ∧ w < r.1.tracks.size := by
  refine List.foldlRecOn (motive := fun acc : Machine × Option Nat =>
    acc.1.Holds x apart ∧ Adds m acc.1 (m.top v).spot ∧
      ∀ w, acc.2 = some w → m.tracks.size ≤ w ∧ w < acc.1.tracks.size) closed _
    ⟨h, .refl m _, fun w hw => by cases hw⟩ ?_
  rintro ⟨m', last⟩ ⟨hm', hadds, -⟩ p hp
  dsimp only at hm' hadds ⊢
  obtain ⟨hlive', hspot⟩ := hadds.top h hlive
  obtain ⟨a, ha⟩ := hclosed p hp
  have hstate : m'.state v = m.state v := congrArg Spot.state hspot
  rw [← hstate] at ha
  obtain ⟨hall, hadds', hlast⟩ := hm'.reduce hx hlive' ha
  rw [hspot] at hadds'
  refine ⟨hall, hadds.trans hm' hadds', fun w hw => ?_⟩
  obtain ⟨hle, hlt⟩ := hlast w hw
  exact ⟨Nat.le_trans hadds.keeps.size_le hle, hlt⟩

/-- What is closed in front of terminals is closed in front of one of them. -/
theorem exists_of_mem_offers {s p : Nat} {terminals : List Nat}
    (h : p ∈ (offers x s terminals).2) : ∃ a, .reduce p ∈ x.actions s a := by
  unfold offers at h
  dsimp only at h
  have hall : ∀ a ∈ terminals.flatMap (x.actions s), ∃ t, a ∈ x.actions s t := fun a ha => by
    obtain ⟨t, -, ht⟩ := List.mem_flatMap.1 ha
    exact ⟨t, ht⟩
  revert p
  refine List.foldlRecOn (motive := fun found : List Nat =>
    ∀ {p}, p ∈ found → ∃ a, .reduce p ∈ x.actions s a) _ _ (fun hp => by cases hp) ?_
  intro found hfound a ha p hp
  cases a with
  | reduce production =>
    dsimp only at hp
    split at hp
    · exact hfound hp
    · split at hp
      · exact hfound hp
      · rcases List.mem_append.1 hp with hold | hnew
        · exact hfound hold
        · rw [List.mem_singleton.1 hnew]
          exact hall _ ha
  | shift _ _ => exact hfound hp
  | extra => exact hfound hp
  | accept => exact hfound hp

/-- The invariant of closing on the track `first` and on what comes from it. -/
structure Closing (x : Context) (apart : Nat → Prop) (first count : Nat) (ahead : Option Nat)
    (base m : Machine) : Prop where
  holds : m.Holds x apart
  active : ∀ u top status, count ≤ u → m.sight u = some (top, status) → status = .active
  keeps : Keeps first base m
  stays : ahead = none → m.Live first ∧ count ≤ m.tracks.size ∧
    ∀ u, u < count → u ≠ first → m.sight u = base.sight u

section Closing

variable {first count : Nat} {ahead : Option Nat} {base : Machine}

/-- A track that came from the first one is gone. -/
theorem Closing.drops (h : Closing x apart first count ahead base m) (hfirst : first < count)
    {m' : Machine} {v : Nat} (hm' : m'.Holds x apart) (hd : Drops m m' v) (hv : count ≤ v) :
    Closing x apart first count ahead base m' := by
  refine ⟨hm', fun u top status hu hs => ?_, fun u hu => ?_, fun hnone => ?_⟩
  · rw [hd.sight] at hs
    split at hs
    · exact h.active u top status hu hs
    · exact h.active (u + 1) top status (by omega) hs
  · rw [hd.sight, if_pos (by omega), h.keeps u hu]
  · obtain ⟨hlive, hle, hsame⟩ := h.stays hnone
    refine ⟨?_, Nat.le_of_not_lt fun hlt => ?_, fun u hu hne => ?_⟩
    · rw [Live, hd.sight, if_pos (by omega)]
      exact hlive
    · have hend := hd.sight m'.tracks.size
      rw [sight_eq_none.2 (Nat.le_refl _), if_pos (by omega), eq_comm, sight_eq_none] at hend
      omega
    · rw [hd.sight, if_pos (by omega), hsame u hu hne]

/-- Tracks are added. -/
theorem Closing.adds (h : Closing x apart first count ahead base m) {m' : Machine} {old : Spot}
    (hm' : m'.Holds x apart) (ha : Adds m m' old) (hfirst : first < count)
    (hcount : count ≤ m.tracks.size) : Closing x apart first count ahead base m' := by
  have hle := ha.keeps.size_le
  refine ⟨hm', fun u top status hu hs => ?_, fun u hu => ?_, fun hnone => ?_⟩
  · rcases Nat.lt_or_ge u m.tracks.size with hlt | hge
    · rw [ha.keeps u hlt] at hs
      exact h.active u top status hu hs
    · obtain ⟨top', hs', -⟩ := ha.fresh u hge (track_of_sight hs).2.2
      rw [hs'] at hs
      cases hs
      rfl
  · rw [ha.keeps u (by omega), h.keeps u hu]
  · obtain ⟨hlive, -, hsame⟩ := h.stays hnone
    exact ⟨ha.keeps.live hlive.lt hlive, by omega, fun u hu hne => by
      rw [ha.keeps u (by omega), hsame u hu hne]⟩

/-- A track that came from another one takes its place. -/
theorem Closing.replace (h : Closing x apart first count ahead base m) (hfirst : first < count)
    {w v : Nat} (hvw : v < w) (hw : w < m.tracks.size) (hcount : count ≤ w)
    (hv : v = first ∨ count ≤ v) :
    Closing x apart first count ahead base (m.replace w v) ∧ (m.replace w v).Live v ∧
      count ≤ (m.replace w v).tracks.size := by
  have hsight := sight_replace m hvw hw
  have hactive := h.active w _ _ hcount (sight_of_lt hw)
  have hlive : (m.replace w v).Live v := by
    refine ⟨(m.track w).top, .active, ?_, rfl⟩
    rw [hsight, if_pos hvw, if_pos rfl, sight_of_lt hw, hactive]
  have hsize : count ≤ (m.replace w v).tracks.size := by
    refine Nat.le_of_not_lt fun hlt => ?_
    have hend := hsight (m.replace w v).tracks.size
    rw [sight_eq_none.2 (Nat.le_refl _), if_pos (by omega), eq_comm] at hend
    split at hend <;> rw [sight_eq_none] at hend <;> omega
  refine ⟨⟨h.holds.replace hvw hw, fun u top status hu hs => ?_, fun u hu => ?_,
    fun hnone => ?_⟩, hlive, hsize⟩
  · rw [hsight] at hs
    split at hs
    · split at hs
      · exact h.active w top status hcount hs
      · exact h.active u top status hu hs
    · exact h.active (u + 1) top status (by omega) hs
  · rw [hsight, if_pos (by omega), if_neg (by omega), h.keeps u hu]
  · obtain ⟨hfirstLive, -, hsame⟩ := h.stays hnone
    refine ⟨?_, hsize, fun u hu hne => ?_⟩
    · rcases hv with rfl | hle
      · exact hlive
      · rw [Live, hsight, if_pos (by omega), if_neg (by omega)]
        exact hfirstLive
    · rw [hsight, if_pos (by omega), if_neg (by omega), hsame u hu hne]

/-- A track on which nothing can be shifted is given up, in front of a terminal. -/
theorem Closing.remove (h : Closing x apart first count ahead base m) (hfirst : first < count)
    {v : Nat} (hsome : ahead.isSome) (hv : v = first ∨ count ≤ v) :
    Closing x apart first count ahead base (m.remove v) := by
  refine ⟨h.holds.remove v, fun u top status hu hs => ?_, fun u hu => ?_, fun hnone => ?_⟩
  · rw [sight_remove] at hs
    split at hs
    · exact h.active u top status hu hs
    · exact h.active (u + 1) top status (by omega) hs
  · rw [sight_remove, if_pos (by omega), h.keeps u hu]
  · rw [hnone] at hsome
    cases hsome

/-- A track that came from the first one lives. -/
theorem Closing.live (h : Closing x apart first count ahead base m) {v : Nat} (hle : count ≤ v)
    (hlt : v < m.tracks.size) : m.Live v :=
  ⟨_, _, sight_of_lt hlt, by rw [h.active v _ _ hle (sight_of_lt hlt)]; rfl⟩

/-- Nothing is made one with the first track. -/
theorem count_le_of_mergeInto? {m m' : Machine} {v : Nat}
    (h : m.mergeInto? ((List.range v).filter (count ≤ ·)) v = some m') : count ≤ v := by
  obtain ⟨a, ha, -⟩ := List.exists_of_findSome?_eq_some h
  obtain ⟨hlt, hle⟩ := List.mem_filter.1 ha
  exact Nat.le_trans (of_decide_eq_true hle) (Nat.le_of_lt (List.mem_range.1 hlt))

/-- Closing on the track `first`, or on one that comes from it, keeps the invariant. -/
theorem Closing.closeAll (hx : x.automaton = .ofGrammar g) (hfirst : first < count)
    (fuel round : Nat) {m : Machine} {v : Nat} (can : Bool)
    (h : Closing x apart first count ahead base m)
    (hv : v = first ∧ m.Live first ∧ count ≤ m.tracks.size ∨ count ≤ v) :
    Closing x apart first count ahead base
      (Tolerant.closeAll x first count ahead fuel round m v can).1 := by
  induction fuel generalizing round m v can with
  | zero => exact h
  | succ fuel ih =>
    unfold Tolerant.closeAll
    split
    · exact h
    · next hlt =>
      have hlt := Nat.lt_of_not_le hlt
      have hcount : count ≤ m.tracks.size := by
        rcases hv with ⟨-, -, hle⟩ | hle <;> omega
      have hlive : m.Live v := by
        rcases hv with ⟨rfl, hlive, -⟩ | hle
        · exact hlive
        · exact h.live hle hlt
      have hv' : v = first ∨ count ≤ v := hv.imp_left And.left
      split
      · next m' hmerge =>
        have hle := count_le_of_mergeInto? hmerge
        obtain ⟨hm', hd⟩ := h.holds.mergeInto? hmerge
        exact ih _ _ (h.drops hfirst hm' hd hle) (.inr hle)
      · dsimp only
        generalize hoffers : offers x (m.state v) _ = offered
        have hclosed : ∀ p ∈ offered.2, ∃ a, .reduce p ∈ x.actions (m.state v) a :=
          hoffers ▸ fun p => exists_of_mem_offers
        obtain ⟨shifts, closed⟩ := offered
        obtain ⟨hm', hadds, hlast⟩ := h.holds.reduceAll hx hlive closed hclosed
        dsimp only at hm' hadds hlast ⊢
        generalize closed.foldl _ (m, none) = reduced at hm' hadds hlast ⊢
        obtain ⟨m', last⟩ := reduced
        dsimp only at hm' hadds hlast ⊢
        have hadded := h.adds hm' hadds hfirst hcount
        -- what comes from the first track starts behind the old tracks
        have hnext : count ≤ if v = first then m.tracks.size else v + 1 := by
          split <;> omega
        have hstop : ∀ can, Closing x apart first count ahead base
            (if ahead.isSome then
              Tolerant.closeAll x first count ahead fuel (round + 1) (m'.remove v)
                (if v = first then m.tracks.size else v + 1) can
            else Tolerant.closeAll x first count ahead fuel (round + 1) m'
              (if v = first then m.tracks.size else v + 1) can).1 := by
          intro can
          split
          · next hsome => exact ih _ can (hadded.remove hfirst hsome hv') (.inr hnext)
          · exact ih _ can hadded (.inr hnext)
        split
        · exact ih _ true hadded (.inr hnext)
        · split
          · next w =>
            obtain ⟨hle, hw⟩ := hlast w rfl
            split
            · obtain ⟨hreplaced, hlive', hsize⟩ :=
                hadded.replace hfirst (w := w) (v := v) (by omega) hw (by omega) hv'
              refine ih _ can hreplaced ?_
              rcases hv' with rfl | hle
              · exact .inl ⟨rfl, hlive', hsize⟩
              · exact .inr hle
            · exact hstop can
          · exact hstop can

/-- Closing on a track in front of a terminal, or of any. -/
theorem Holds.closeFrom (hx : x.automaton = .ofGrammar g) (h : m.Holds x apart) {v : Nat}
    (hlive : m.Live v) (ahead : Option Nat) :
    Closing x apart v m.tracks.size ahead m (Tolerant.closeFrom x m v ahead).1 := by
  refine Closing.closeAll hx hlive.lt 1000 0 false ⟨h, fun u top status hu hs => ?_, .refl v m,
    fun _ => ⟨hlive, Nat.le_refl _, fun _ _ _ => rfl⟩⟩ (.inl ⟨rfl, hlive, Nat.le_refl _⟩)
  exact absurd (track_of_sight hs).2.2 (Nat.not_lt.2 hu)

end Closing

/-! ## Missing terminals -/

/-- A terminal that is shifted leads where the automaton goes. -/
theorem goes_nextTerminal {s t : Nat} (hzero : x.next s (.terminal t) ≠ 0)
    (hstay : x.next s (.terminal t) ≠ s) :
    x.automaton.Goes s (.terminal t) (x.next s (.terminal t)) := by
  change ∃ repeats, Action.shift (x.next s (.terminal t)) repeats ∈ x.actions s t
  rw [Context.next] at hzero hstay ⊢
  split at hzero
  · next n repeats hlast => exact ⟨repeats, List.mem_of_getLast? hlast⟩
  · next hlast =>
    rw [hlast] at hstay
    exact absurd rfl hstay
  · exact absurd rfl hzero

/-- A terminal that is missing costs something. -/
theorem crosses_missing {low : Spot} {t : Nat} (hzero : x.next low.state (.terminal t) ≠ 0)
    (hstay : x.next low.state (.terminal t) ≠ low.state) (position : Nat) :
    let leaf := { Tree.leaf x (.terminal t) position position position with missing := true }
    Crosses x low (low.grow (some leaf) (x.next low.state (.terminal t))) leaf := by
  refine ⟨rfl, fun h => (by cases h), fun h => (by cases h), fun h => (by cases h),
    fun _ h => (by cases h), fun _ _ => ⟨.terminal t, rfl, goes_nextTerminal hzero hstay⟩,
    fun c h => (by cases h), fun hdamage => ?_⟩
  have hsum : low.damage + (missingCost + recoveryCost) = 0 := hdamage
  have : 0 < recoveryCost := by decide
  omega

/-- A missing terminal is put on a new track. -/
theorem Holds.putMissing (h : m.Holds x apart) {v t : Nat} (hlive : m.Live v)
    (hzero : x.next (m.state v) (.terminal t) ≠ 0)
    (hstay : x.next (m.state v) (.terminal t) ≠ m.state v) (position : Nat) :
    let leaf := { Tree.leaf x (.terminal t) position position position with missing := true }
    let forked := m.fork v (m.track v).top
    let pushed := forked.1.push forked.2 (some leaf) (x.next (m.state v) (.terminal t))
    pushed.Holds x apart ∧ pushed.Live forked.2 ∧ Keeps m.tracks.size m pushed ∧
      forked.2 = m.tracks.size := by
  have hforked := h.fork v (h.stands_top hlive)
  have hsight : ∀ u, (m.fork v (m.track v).top).1.sight u =
      if u = m.tracks.size then some ((m.track v).top, .active) else m.sight u :=
    sight_fork m v (m.track v).top
  have hnew : (m.fork v (m.track v).top).1.Live m.tracks.size :=
    ⟨_, _, by rw [hsight, if_pos rfl], rfl⟩
  have htop : ((m.fork v (m.track v).top).1.top m.tracks.size).spot = (m.top v).spot := by
    rw [top_of_sight (by rw [hsight, if_pos rfl])]
    rfl
  refine ⟨hforked.push hnew ?_, hnew.push _ _ _, fun u hu => ?_, rfl⟩
  · rw [htop]
    exact crosses_missing hzero hstay position
  · have hne : (m.fork v (m.track v).top).2 ≠ u := Nat.ne_of_gt hu
    rw [sight_push, if_neg hne, hsight, if_neg (Nat.ne_of_lt hu)]

/-- Trying missing terminals. -/
theorem Holds.tryMissing (hx : x.automaton = .ofGrammar g) {v : Nat} (position : Nat)
    (ahead : Tree) (terminals : List Nat) {m : Machine} (h : m.Holds x apart)
    (hlive : m.Live v) :
    let r := Tolerant.tryMissing x v position ahead m terminals
    r.1.Holds x apart ∧ Keeps m.tracks.size m r.1 := by
  induction terminals generalizing m with
  | nil => exact ⟨h, .refl _ m⟩
  | cons t rest ih =>
    unfold Tolerant.tryMissing
    dsimp only
    split
    · exact ih h hlive
    · next hcond =>
      rw [Bool.or_eq_true, Bool.or_eq_true, decide_eq_true_eq, decide_eq_true_eq, not_or,
        not_or] at hcond
      obtain ⟨⟨hzero, hstay⟩, -⟩ := hcond
      obtain ⟨hpushed, hlive', hkeeps, hw⟩ := h.putMissing hlive hzero hstay position
      generalize Machine.push (m.fork v (m.track v).top).1 (m.fork v (m.track v).top).2 _ _ =
        pushed at hpushed hlive' hkeeps ⊢
      rw [hw] at hlive' ⊢
      generalize hclosed : Tolerant.closeFrom x pushed m.tracks.size _ = closed
      have hclosing := hclosed ▸ hpushed.closeFrom hx hlive' _
      obtain ⟨m', can⟩ := closed
      dsimp only at hclosing ⊢
      have hall := hkeeps.trans hclosing.keeps
      split
      · exact ⟨hclosing.holds, hall⟩
      · obtain ⟨hrest, hkeeps'⟩ := ih hclosing.holds (hall.live hlive.lt hlive)
        exact ⟨hrest, hall.trans (hkeeps'.mono hall.size_le)⟩

/-! ## Mending -/

/-- Beginning damage on several tracks. -/
theorem Holds.beginDamage (hx : x.automaton = .ofGrammar g) (own position : Nat) (ahead : Tree)
    (tracks : List Nat) {m : Machine} (h : m.Holds x apart) (hlive : ∀ v ∈ tracks, m.Live v)
    (done : Bool) :
    (Tolerant.beginDamage x own position ahead m done tracks).Holds x apart ∧
      ∀ u, m.Live u → (Tolerant.beginDamage x own position ahead m done tracks).Live u := by
  induction tracks generalizing m done with
  | nil => exact ⟨h, fun _ hu => hu⟩
  | cons v rest ih =>
    unfold Tolerant.beginDamage
    dsimp only
    obtain ⟨tried, htried⟩ : ∃ tried, tried = if done then (m, true) else
      Tolerant.tryMissing x v position ahead m ((List.range x.terminals.size).drop 1) := ⟨_, rfl⟩
    have hall : tried.1.Holds x apart ∧ Keeps m.tracks.size m tried.1 := by
      rw [htried]
      split
      · exact ⟨h, .refl _ m⟩
      · exact h.tryMissing hx position ahead _ (hlive v List.mem_cons_self)
    rw [← htried]
    have hstays : ∀ u, m.Live u → (tried.1.push v none 0).Live u := fun u hu =>
      (hall.2.live hu.lt hu).push v none 0
    obtain ⟨hrest, hlive'⟩ := ih (hall.1.pushGap
      (hall.2.live (hlive v List.mem_cons_self).lt (hlive v List.mem_cons_self)))
      (fun u hu => hstays u (hlive u (List.mem_cons_of_mem _ hu))) tried.2
    exact ⟨hrest, fun u hu => hlive' u (hstays u hu)⟩

/-- Looking at the ways down without taking any. -/
theorem quiet_walk {σ : Type} {visit : σ → Vertex → Path → σ × Verdict}
    (hvisit : ∀ memory u p, (visit memory u p).2.take = false) (m : Machine) (v : Nat)
    (memory : σ) : Quiet m (m.walk v visit memory).1 := by
  have hnever : Visits visit Anywhere fun _ _ => False :=
    ⟨fun memory u p htake => Bool.noConfusion ((hvisit memory u p).symm.trans htake),
      fun _ _ _ _ => trivial⟩
  obtain ⟨groups, hsliced, -⟩ := sliced_walk hnever m v memory
  refine ⟨hsliced.vertices, hsliced.best, fun u => ?_⟩
  rcases Nat.lt_or_ge u m.tracks.size with hlt | hge
  · exact hsliced.keeps u hlt
  · rw [sight_eq_none.2 hge]
    cases hsight : (m.walk v visit memory).1.sight u with
    | none => rfl
    | some seen =>
      rcases hsliced.sight_cases hsight with ⟨hlt, -⟩ | ⟨-, -, -, hcon⟩
      · omega
      · exact hcon.elim

/-- Remembering states changes nothing else. -/
theorem quiet_recordRetreats (m : Machine) (v : Nat) : Quiet m (m.recordRetreats v) := by
  unfold recordRetreats
  dsimp only
  refine (quiet_walk ?_ m v []).trans ⟨rfl, rfl, sight_modify _ v _ fun _ => rfl⟩
  intro memory u p
  split
  · rfl
  · split <;> rfl

/-- Dealing with a terminal that fits nowhere. -/
theorem Holds.mend (hx : x.automaton = .ofGrammar g) (h : m.Holds x apart) {v : Nat}
    (hlive : m.Live v) (ahead : Tree) :
    ∃ apart', (Tolerant.mend x m v ahead).Holds x apart' := by
  unfold Tolerant.mend
  dsimp only
  have hclosing := h.closeFrom hx hlive none
  generalize (Tolerant.closeFrom x m v none).1 = closed at hclosing ⊢
  obtain ⟨hfirst, hcount, -⟩ := hclosing.stays rfl
  have hlives : ∀ u ∈ v :: (List.range closed.tracks.size).drop m.tracks.size,
      closed.Live u := by
    refine List.forall_mem_cons.2 ⟨hfirst, fun u hu => ?_⟩
    rw [List.range_eq_range', List.drop_range', List.mem_range'_1] at hu
    have hlt : u < closed.tracks.size := by omega
    have hsight := sight_of_lt hlt
    exact ⟨_, _, hsight, by rw [hclosing.active u _ _ (by omega) hsight]; rfl⟩
  obtain ⟨hbegun, hstays⟩ := hclosing.holds.beginDamage hx m.tracks.size (closed.position v) ahead
    _ hlives false
  generalize Tolerant.beginDamage x m.tracks.size (closed.position v) ahead closed false
    (v :: (List.range closed.tracks.size).drop m.tracks.size) = begun at hbegun hstays ⊢
  -- the tracks in damage become one
  have hmerged := List.foldlRecOn (motive := fun m' : Machine => m'.Holds x apart ∧ m'.Live v)
    (List.range (closed.tracks.size - m.tracks.size))
    (fun m' _ => (m'.merge? v m.tracks.size).getD m') ⟨hbegun, hstays v hfirst⟩ (by
      rintro m' ⟨hm', hlive'⟩ u -
      cases hmerge : m'.merge? v m.tracks.size with
      | none => exact ⟨hm', hlive'⟩
      | some m'' =>
        obtain ⟨hm'', hdrops⟩ := hm'.merge? hmerge
        refine ⟨hm'', ?_⟩
        rw [Option.getD_some, Live, hdrops.sight, if_pos hlive.lt]
        exact hlive')
  generalize List.foldl _ begun _ = merged at hmerged ⊢
  have hquiet := quiet_recordRetreats merged v
  refine (hquiet.holds hmerged.1).recover ?_ ahead
  rw [Live, hquiet.sight]
  exact hmerged.2

end ScriptInventory.Script.Tolerant.Machine
