import ScriptInventory.Proofs.Tolerant.Leaf
import ScriptInventory.Proofs.Tolerant.Recovery

/-!
# What the tolerant reader reads

The main loop keeps the invariant of the machine: what a track reads in front of it fits
where its automaton goes (`Facing.advance`), tracks are compared, made one and given up, and
damage is mended. So an undamaged text is read as a tree that follows the grammar and covers
the text (`isFinished_of_drive`).
-/

namespace ScriptInventory.Script.Tolerant

open Grammar

variable {g : Numbered} {text : String} {x : Context}

/-- A terminal that comes next fits where the automaton goes. -/
theorem Ahead.crosses {t : Tree} (h : Ahead x t) {low : Spot} {n k : Nat}
    (hlabel : t.label = .terminal n) (hgoes : x.automaton.Goes low.state (.terminal n) k)
    (hreach : low.damage = 0 → low.position = t.reach) :
    Crosses x low (low.grow (some t) k) t := by
  obtain ⟨terminal, hleaf⟩ := h.leaf n hlabel
  refine ⟨rfl, fun hs => ?_, fun he => ?_, fun he => ?_, fun _ he => ?_, fun _ _ => ?_,
    fun c hc => ?_, fun hdamage _ => ?_⟩
  · rw [hlabel] at hs
    cases hs
  · rw [hlabel] at he
    cases he
  · rw [h.extra] at he
    cases he
  · rw [h.extra] at he
    cases he
  · exact ⟨.terminal n, by rw [hlabel]; rfl, hgoes⟩
  · rw [hlabel] at hc
    cases hc
  · have hpos := hreach (Nat.eq_zero_of_add_eq_zero_right hdamage)
    have hle : low.position ≤ t.stop :=
      hpos ▸ Nat.le_trans hleaf.shows.reach_le hleaf.shows.start_le
    exact ⟨.leaf hleaf, hpos.symm, (Nat.max_eq_right hle).symm⟩

/-- A terminal that may stand anywhere stays where the automaton is. -/
theorem Ahead.crosses_extra (hx : x.Reads g text) {t : Tree} (h : Ahead x t) {low : Spot}
    {n : Nat} (hlabel : t.label = .terminal n) (hextra : (g.terminals[n]?).any Terminal.isExtra)
    (hreach : low.damage = 0 → low.position = t.reach) :
    Crosses x low (low.grow (some { t with extra := true }) low.state)
      { t with extra := true } := by
  obtain ⟨terminal, hleaf⟩ := h.leaf n hlabel
  have hfound : g.terminals[n]? = some terminal := by
    have := hleaf.found
    rwa [Context.terminals, hx.automaton] at this
  rw [hfound] at hextra
  refine ⟨rfl, fun hs => ?_, fun he => ?_, fun _ he => ?_, fun _ _ => rfl,
    fun _ he => (by cases he), fun c hc => ?_, fun hdamage _ => ?_⟩
  · rw [hlabel] at hs
    cases hs
  · rw [hlabel] at he
    cases he
  · rw [hlabel] at he
    cases he
    rw [hx.ends] at hfound
    cases hfound
    cases hextra
  · rw [hlabel] at hc
    cases hc
  · have hpos := hreach (Nat.eq_zero_of_add_eq_zero_right hdamage)
    have hle : low.position ≤ t.stop :=
      hpos ▸ Nat.le_trans hleaf.shows.reach_le hleaf.shows.start_le
    exact ⟨.leaf ⟨hleaf.label, hleaf.found, hleaf.children, hleaf.visible, hleaf.missing,
      hleaf.shows, fun _ => hextra⟩, hpos.symm, (Nat.max_eq_right hle).symm⟩

/-- A keyword may be read as a word. -/
theorem Ahead.asWord {t : Tree} (h : Ahead x t) (hkeyword : t.keyword) :
    Ahead x { t with label := .terminal (x.numberOf .word) } := by
  refine ⟨fun n hn => ?_, fun _ => h.word hkeyword, h.extra, h.damage, h.missing⟩
  cases hn
  exact h.word hkeyword

namespace Machine

variable {apart : Nat → Prop} {m : Machine}

/-! ## Reading a terminal -/

/-- A track with the terminal in front of it. -/
structure Facing (x : Context) (apart : Nat → Prop) (m : Machine) (v : Nat) (ahead : Tree) :
    Prop where
  holds : m.Holds x apart
  live : m.Live v
  reads : Ahead x ahead
  reach : (m.top v).spot.damage = 0 → (m.top v).spot.position = ahead.reach

/-- A track that came from another one, and stands where it stood. -/
def CameFrom (m : Machine) (v w : Nat) : Prop :=
  v < w ∧ ∃ top, m.sight w = some (top, .active) ∧ Rests (m.top v).spot (m.vertex top).spot

/-- The new track is where the old one was. -/
theorem Facing.replace {v w : Nat} {ahead : Tree} (h : Facing x apart m v ahead)
    (hw : CameFrom m v w) : Facing x apart (m.replace w v) v ahead := by
  obtain ⟨hvw, top, hs, hrests⟩ := hw
  have hlt := (track_of_sight hs).2.2
  have hs' : (m.replace w v).sight v = some (top, .active) := by
    rw [sight_replace m hvw hlt, if_pos hvw, if_pos rfl, hs]
  have htop : ((m.replace w v).top v).spot = (m.vertex top).spot := by
    rw [top_of_sight hs', vertex, (vertices_replace m w v).1, vertex]
  refine ⟨h.holds.replace hvw hlt, ⟨top, _, hs', rfl⟩, h.reads, fun hzero => ?_⟩
  rw [htop] at hzero ⊢
  obtain ⟨hold, hposition⟩ := hrests hzero
  exact hposition.trans (h.reach hold)

/-- Closing a production leaves a track where it was, and gives tracks that came from it. -/
theorem Facing.reduce (hx : x.Reads g text) {v : Nat} {ahead : Tree}
    (h : Facing x apart m v ahead) {production a : Nat}
    (hred : .reduce production ∈ x.actions (m.state v) a) :
    let r := Tolerant.reduce x m v production
    Facing x apart r.1 v ahead ∧ r.1.state v = m.state v ∧
      (∀ w, r.2 = some w → CameFrom r.1 v w) ∧ ∀ w, CameFrom m v w → CameFrom r.1 v w := by
  obtain ⟨hm', hadds, hlast⟩ := h.holds.reduce hx.automaton h.live hred
  generalize Tolerant.reduce x m v production = r at hm' hadds hlast
  obtain ⟨hlive, hspot⟩ := hadds.top h.holds h.live
  have hv := h.live.lt
  refine ⟨⟨hm', hlive, h.reads, ?_⟩, congrArg Spot.state hspot, fun w hw => ?_, ?_⟩
  · rw [hspot]
    exact h.reach
  · obtain ⟨hle, hlt⟩ := hlast w hw
    rw [CameFrom, hspot]
    exact ⟨by omega, hadds.fresh w hle hlt⟩
  · rintro w ⟨hvw, top, hs, hrests⟩
    rw [CameFrom, hspot]
    refine ⟨hvw, top, by rw [hadds.keeps w (track_of_sight hs).2.2, hs], ?_⟩
    rw [hadds.grows.spot top (h.holds.tracks w top _ hs rfl).1]
    exact hrests

/-- The loop over what a state does with a terminal. -/
theorem Facing.go (hx : x.Reads g text) {v fuel : Nat}
    (hadvance : ∀ {m ahead}, Facing x apart m v ahead →
      ∃ apart', (Tolerant.advance x v fuel m ahead).Holds x apart')
    {ahead : Tree} {s : Nat} (actions : List Action)
    (hactions : ∀ a ∈ actions, ∃ n, ahead.label = .terminal n ∧ a ∈ x.actions s n)
    {m : Machine} (h : Facing x apart m v ahead) (hs : m.state v = s)
    (reduced : Bool) (last : Option Nat) (hlast : ∀ w, last = some w → CameFrom m v w) :
    ∃ apart', (Tolerant.advance.go x v fuel ahead s m reduced last actions).Holds x apart' := by
  induction actions generalizing m reduced last with
  -- no shift was among the actions: the last track a reduction gave goes on, if there is one
  | nil =>
    unfold Tolerant.advance.go
    cases last with
    | some w => exact hadvance (h.replace (hlast w rfl))
    | none =>
      dsimp only
      split
      · -- reduced, but no new track is left
        exact ⟨apart, h.holds.setStatus fun hcon => (by cases hcon)⟩
      · split
        · -- a keyword that is a name here is read once more, as a word
          next hcond =>
          rw [Bool.and_eq_true, Bool.and_eq_true] at hcond
          exact hadvance ⟨h.holds, h.live, h.reads.asWord hcond.1.1, h.reach⟩
        · exact ⟨apart, h.holds.setStatus fun _ => h.live⟩
  | cons a rest ih =>
    obtain ⟨⟨n, hlabel, ha⟩, hrest⟩ := List.forall_mem_cons.1 hactions
    unfold Tolerant.advance.go
    cases a with
    | shift k repeats =>
      cases repeats with
      -- a shift inside a repetition is passed over
      | true => exact ih hrest h hs reduced last hlast
      | false =>
        refine ⟨apart, h.holds.push h.live (h.reads.crosses hlabel ⟨false, ?_⟩ h.reach)⟩
        rw [show (m.top v).spot.state = s from hs]
        exact ha
    | extra =>
      refine ⟨apart, h.holds.push h.live ?_⟩
      rw [← hs]
      refine h.reads.crosses_extra hx hlabel ?_ h.reach
      rw [Context.actions, hx.automaton] at ha
      -- only the entry for extra trees can have given this action
      obtain ⟨-, ⟨_, _, _, _, _, _, heq⟩ | ⟨-, hextra⟩ | ⟨_, _, heq, _⟩⟩ := mem_actions ha
      · split at heq <;> cases heq
      · exact hextra
      · cases heq
    | accept =>
      rw [← hs] at ha
      exact (h.holds.ends_accepting hx h.live h.reads hlabel ha h.reach).accept
    -- a reduction only adds tracks behind this one, which stays as it is
    | reduce production =>
      rw [← hs] at ha
      obtain ⟨hm', hstate, hfirst, hold⟩ := h.reduce hx ha
      dsimp only
      refine ih hrest hm' (hstate.trans hs) true _ fun w hw => ?_
      rcases Option.or_eq_some_iff.1 hw with hw | ⟨-, hw⟩
      · exact hfirst w hw
      · exact hold w (hlast w hw)

/-- Reading a terminal. -/
theorem Facing.advance (hx : x.Reads g text) {v : Nat} (fuel : Nat) {m : Machine} {ahead : Tree}
    (h : Facing x apart m v ahead) :
    ∃ apart', (Tolerant.advance x v fuel m ahead).Holds x apart' := by
  induction fuel generalizing m ahead with
  | zero =>
    unfold Tolerant.advance
    exact ⟨apart, h.holds.setStatus fun hcon => (by cases hcon)⟩
  | succ fuel ih =>
    unfold Tolerant.advance
    dsimp only
    split
    · exact h.holds.recover h.live ahead
    · refine h.go hx ih _ (fun a ha => ?_) rfl false none fun w hw => (by cases hw)
      split at ha
      · next n hlabel => exact ⟨n, hlabel, ha⟩
      · cases ha

/-! ## Comparing tracks -/

/-- Two tracks change places. -/
theorem Holds.swap (h : m.Holds x apart) (i j : Nat) :
    Machine.Holds x apart
      { m with tracks := (m.tracks.set! i (m.track j)).set! j (m.track i) } := by
  have htrack : ∀ k, m.track k ∈ m.tracks.toList ∨ (m.track k).status.isHalted := by
    intro k
    rw [track, Array.getD_eq_getD_getElem?]
    cases hk : m.tracks[k]? with
    | none => exact .inr rfl
    | some t => exact .inl (Array.mem_def.1 (Array.mem_of_getElem? hk))
  refine h.subtracks rfl rfl fun k hk => ?_
  rw [Array.set!_eq_setIfInBounds, Array.set!_eq_setIfInBounds, ← Array.mem_def] at hk
  rcases Array.mem_or_eq_of_mem_setIfInBounds hk with hk | rfl
  · rcases Array.mem_or_eq_of_mem_setIfInBounds hk with hk | rfl
    · exact .inl (Array.mem_def.1 hk)
    · exact htrack j
  · exact htrack i

theorem Holds.merge_or (h : m.Holds x apart) (j i : Nat) {other : Machine × Nat}
    (hother : other.1.Holds x apart) :
    (match m.merge? j i with
      | some m => (m, i)
      | none => other).1.Holds x apart := by
  split
  · next merged hmerge => exact (h.merge? hmerge).1
  · exact hother

theorem Holds.condenseTrack (fuel : Nat) {m : Machine} (h : m.Holds x apart) (i j : Nat) :
    (Tolerant.condenseTrack fuel m i j).1.Holds x apart := by
  induction fuel generalizing m i j with
  | zero => exact h
  | succ fuel ih =>
    unfold Tolerant.condenseTrack
    split
    · exact h
    · split
      · exact h.remove i
      · exact h.merge_or j i (ih h i (j + 1))
      · exact h.merge_or j i (ih h i (j + 1))
      · exact h.merge_or j i (ih (h.swap i j) i (j + 1))
      · exact ih (h.remove j) (i - 1) j

theorem Holds.condenseFrom (fuel : Nat) {m : Machine} (h : m.Holds x apart) (i : Nat)
    (least : Option Nat) : (Tolerant.condenseFrom fuel m i least).1.Holds x apart := by
  induction fuel generalizing m i least with
  | zero => exact h
  | succ fuel ih =>
    unfold Tolerant.condenseFrom
    split
    · exact h
    · split
      · exact ih (h.remove i) i least
      · exact ih ((h.settle i).condenseTrack 1000 i 0) _ _

/-- The damage of a paused track is mended, and other tracks are given up. -/
theorem Holds.resume (hx : x.automaton = .ofGrammar g) (fuel : Nat) {m : Machine}
    (h : ∃ apart, m.Holds x apart) (i count : Nat) (going : Bool) (least : Option Nat) :
    ∃ apart, (Tolerant.resume x fuel m i count going least).1.Holds x apart := by
  induction fuel generalizing m i count going least with
  | zero => exact h
  | succ fuel ih =>
    obtain ⟨apart, hm⟩ := h
    unfold Tolerant.resume
    split
    · exact ⟨apart, hm⟩
    · split
      · next ahead hpaused =>
        split
        · refine ih ?_ _ _ _ _
          have hlt : i < m.tracks.size := by
            refine Nat.lt_of_not_le fun hle => ?_
            rw [track, Array.getD_eq_getD_getElem?, Array.getElem?_eq_none hle] at hpaused
            cases hpaused
          have hsight := sight_of_lt hlt
          have hlive : m.Live i := ⟨_, _, hsight, by rw [hpaused]; rfl⟩
          refine (hm.setStatus fun _ => hlive).mend hx
            ⟨(m.track i).top, .active, ?_, rfl⟩ ahead
          rw [sight_setStatus, if_pos rfl, hsight]
          rfl
        · exact ih ⟨apart, hm.remove i⟩ _ _ _ _
      · exact ih ⟨apart, hm⟩ _ _ _ _

theorem Holds.condense (hx : x.automaton = .ofGrammar g) (h : m.Holds x apart) :
    ∃ apart, (Tolerant.condense x m).1.Holds x apart := by
  unfold Tolerant.condense
  refine Holds.resume hx 1000 ⟨apart, ?_⟩ _ _ _ _
  refine (h.condenseFrom 10000 0 none).subtracks rfl rfl fun k hk => .inl ?_
  simp only [Array.take_eq_extract, Array.toList_extract, List.extract_eq_take_drop] at hk
  exact List.mem_of_mem_drop (List.mem_of_mem_take hk)

/-! ## The main loop -/

/-- Reading the next terminal. -/
theorem Holds.advanceTrack (hx : x.Reads g text) (h : m.Holds x apart) {v : Nat}
    (hlive : m.Live v) : ∃ apart', (Tolerant.advanceTrack x m v).Holds x apart' := by
  obtain ⟨hahead, hreach⟩ := ahead_nextLeaf hx (m.state v) (hasMoved m v) (m.position v)
  exact Facing.advance hx 10000 ⟨h, hlive, hahead, fun _ => hreach.symm⟩

/-- The main loop keeps the invariant. -/
theorem Holds.drive (hx : x.Reads g text) (fuel : Nat) {m : Machine}
    (h : ∃ apart, m.Holds x apart) (v : Nat) :
    ∃ apart, (Tolerant.drive x fuel m v).Holds x apart := by
  induction fuel generalizing m v with
  | zero => exact h
  | succ fuel ih =>
    obtain ⟨apart, hm⟩ := h
    unfold Tolerant.drive
    split
    · split
      · next hactive =>
        obtain ⟨apart', hm'⟩ := hm.advanceTrack hx (live_of_isActive hactive)
        generalize Tolerant.advanceTrack x m v = m' at hm'
        dsimp only
        generalize (if v < m'.tracks.size then m'.position v else 0) = position
        have hmoved : Machine.Holds x apart' { m' with furthest := position } :=
          hm'.retrack rfl rfl hm'.tracks
        split
        · exact ih ⟨apart', hmoved⟩ _
        · exact ih ⟨apart', hm'⟩ v
      · exact ih ⟨apart, hm⟩ (v + 1)
    · split
      · exact ⟨apart, hm⟩
      · have hcondensed := hm.condense hx.automaton
        generalize Tolerant.condense x m = condensed at hcondensed
        obtain ⟨m', least⟩ := condensed
        dsimp only at hcondensed ⊢
        split
        · exact hcondensed
        · exact ih hcondensed 0

/-- In front of the text, nothing has been read. -/
theorem holds_initial (x : Context) : Machine.Holds x (fun _ => False) .initial := by
  have hvertex : ∀ n, Machine.initial.Stands (fun _ => False) n → n = 0 := fun n hn =>
    Nat.lt_one_iff.1 hn.1
  refine ⟨fun n hn => hn.elim, fun n hn l hl => ?_, fun n hn _ => ?_, fun v top status hs _ => ?_,
    fun t ht => by cases ht⟩
  · obtain rfl := hvertex n hn
    cases hl with
    | mk hl => cases hl
  · obtain rfl := hvertex n hn
    rfl
  · cases v with
    | zero =>
      cases hs
      exact ⟨by decide, id⟩
    | succ v => cases hs

end Machine

/-- The best reading of a text stands for a whole text or for an error, and if it is undamaged,
it follows the grammar and covers the text. -/
theorem isFinished_of_drive (hx : x.Reads g text) (fuel : Nat) {root : Tree}
    (h : (drive x fuel .initial 0).best = some root) : IsFinished x root := by
  obtain ⟨apart, hholds⟩ := Machine.Holds.drive hx fuel ⟨_, Machine.holds_initial x⟩ 0
  exact hholds.best root h

end ScriptInventory.Script.Tolerant
