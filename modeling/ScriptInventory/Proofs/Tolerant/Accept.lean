import ScriptInventory.Proofs.Tolerant.Reduce

/-!
# Finished readings

Where a state accepts, the trees on the way down to the bottom are the whole text, and extra
trees around it (`Way.accepting`). So a finished reading that is undamaged is a tree whose
children are sound and stand side by side up to the end of the text (`isFinished_of_accepting`),
and ending a track keeps the invariant of the machine (`Ends.accept`).
-/

namespace ScriptInventory.Script.Tolerant

open Grammar

/-- What the reader works with: the automaton of a grammar, and the positions of a text. The
first terminal is the end of the text, and there are those that no list of rules needs to
name. -/
structure Context.Reads (x : Context) (g : Numbered) (text : String) : Prop where
  automaton : x.automaton = .ofGrammar g
  text : x.text = .ofString text
  ends : g.terminals[0]? = some .endOfText
  word : .word ∈ g.terminals
  contextual : ∀ t, t.isContextual → t ∈ g.terminals

variable {g : Numbered} {text : String} {x : Context}

/-- A terminal that comes next: it stands in the text, and if it is a keyword, then so does
the word. -/
structure Ahead (x : Context) (t : Tree) : Prop where
  leaf : ∀ n, t.label = .terminal n → ∃ terminal, t.IsLeaf x n terminal
  word : t.keyword → ∃ terminal, Tree.IsLeaf x
    { t with label := .terminal (x.numberOf .word) } (x.numberOf .word) terminal
  extra : t.extra = false
  damage : t.damage = 0
  missing : t.missing = false

/-! ## The way of a finished reading -/

/-- The last symbol of a path. -/
theorem Automaton.Path.exists_last {a : Automaton} {goal s : Nat} {syms : List Sym}
    (h : a.Path goal s syms) : s = goal ∧ syms = [] ∨
      ∃ m X front, a.Goes m X goal ∧ a.Path m s front ∧ syms = front ++ [X] := by
  induction h with
  | here => exact .inl ⟨rfl, rfl⟩
  | @step s m X syms goes rest ih =>
    rcases ih with ⟨rfl, rfl⟩ | ⟨k, Y, front, hY, hfront, rfl⟩
    · exact .inr ⟨s, X, [], goes, .here, rfl⟩
    · exact .inr ⟨k, Y, X :: front, hY, .step goes hfront, rfl⟩

/-- The trees on the way to a state that accepts. -/
theorem Way.accepting (hx : x.automaton = .ofGrammar g) {top : Spot} {trees : List Tree}
    {d a : Nat} (h : Way x top ⟨1, 0, 0⟩ trees d)
    (hacc : .accept ∈ x.actions top.state a) :
    ∃ before whole after, trees = before ++ whole :: after ∧ (∀ t ∈ before ++ after, t.extra) ∧
      whole.extra = false ∧ whole.label = .construct 0 := by
  have hacc : .accept ∈ (Automaton.ofGrammar g).actions top.state a := by
    rw [← hx]
    exact hacc
  obtain ⟨syms, -, hsyms, hpath⟩ := (h.holds hx (mem_actions hacc).1).path
  rw [hx] at hpath
  -- nothing but the start of the grammar has been read
  have hone : syms = [.construct 0] := by
    rcases Automaton.Path.exists_last hpath with ⟨hstate, -⟩ | ⟨m, X, front, hgoes, hfront, rfl⟩
    · exact absurd hstate.symm (Automaton.accept_ne_one hacc)
    · obtain ⟨rfl, rfl⟩ := Automaton.accept_path hacc hgoes
      rcases Automaton.Path.exists_last hfront with ⟨-, rfl⟩ | ⟨k, Y, rest, hk, -, -⟩
      · rfl
      · exact absurd hk.two_le (by omega)
  rw [hone] at hsyms
  obtain ⟨whole, hwhole, hlabel⟩ := List.map_eq_singleton_iff.1 hsyms
  rw [filling, List.filter_eq_cons_iff] at hwhole
  obtain ⟨before, after, rfl, hbefore, hextra, hafter⟩ := hwhole
  rw [List.filter_eq_nil_iff] at hafter
  refine ⟨before, whole, after, rfl, fun t ht => ?_, by simpa using hextra, ?_⟩
  · rcases List.mem_append.1 ht with hmem | hmem
    · simpa using hbefore t hmem
    · simpa using hafter t hmem
  · cases hl : whole.label <;> rw [hl] at hlabel <;> cases hlabel
    rfl

/-- The tree of the whole text. -/
theorem rootOf_accepting {before after : List Tree} {whole ahead : Tree}
    (hextra : ∀ t ∈ before ++ after, t.extra) (hwhole : whole.extra = false)
    (hlabel : whole.label = .construct 0) (hahead : ahead.label = .terminal 0)
    (hends : ∀ t ∈ before ++ after, t.label ≠ .terminal 0) :
    rootOf x ((before ++ whole :: after) ++ [ahead]) =
      some (Tree.branch x (.construct 0) (before ++ whole.children ++ after) none 0) := by
  -- the end of the text is no part of the tree
  have hfilter : ((before ++ whole :: after) ++ [ahead]).filter
      (fun t => t.label ≠ .terminal 0) = before ++ whole :: after := by
    rw [List.filter_append, List.filter_eq_self.2, List.filter_eq_nil_iff.2, List.append_nil]
    · intro t ht
      obtain rfl := List.mem_singleton.1 ht
      simp [hahead]
    · intro t ht
      rw [List.mem_append, List.mem_cons] at ht
      rw [decide_eq_true_eq]
      rcases ht with hmem | rfl | hmem
      · exact hends t (List.mem_append_left _ hmem)
      · rw [hlabel]
        exact fun h => by cases h
      · exact hends t (List.mem_append_right _ hmem)
  have hreverse : (before ++ whole :: after).reverse =
      after.reverse ++ (whole :: before.reverse) := by simp
  have hafter : ∀ t ∈ after.reverse, t.extra = true := fun t ht =>
    hextra t (List.mem_append_right _ (List.mem_reverse.1 ht))
  -- the last tree that is not extra is the whole text, found from behind
  have htake : (after.reverse ++ (whole :: before.reverse)).takeWhile Tree.extra =
      after.reverse := by
    rw [List.takeWhile_append_of_pos hafter, List.takeWhile_cons_of_neg (by simp [hwhole]),
      List.append_nil]
  have hdrop : (after.reverse ++ (whole :: before.reverse)).dropWhile Tree.extra =
      whole :: before.reverse := by
    rw [List.dropWhile_append_of_pos hafter, List.dropWhile_cons_of_neg (by simp [hwhole])]
  unfold rootOf
  dsimp only
  rw [hfilter, hreverse, htake, hdrop]
  simp only [List.reverse_reverse, hlabel]

theorem Tree.Sound.abreast {t : Tree} {c : Nat} (h : t.Sound x) (hlabel : t.label = .construct c) :
    Abreast t.reach t.children t.stop := by
  cases h with
  | leaf h =>
    rw [h.label] at hlabel
    cases hlabel
  | branch h _ => exact h.abreast

/-- In front of the end of the text are blanks. -/
theorem rest_blank (hx : x.text = .ofString text) {reach start stop : Nat}
    (h : x.text.Shows .endOfText reach start stop) : ∀ c ∈ x.text.rest reach, isBlank c := by
  obtain ⟨hreach, hstart, hblank, hreads, hrest⟩ := h
  rw [hx, Text.rest_ofString] at hrest ⊢
  rw [hx, Text.between_ofString] at hreads hblank
  have hstartEnd : text.toList.drop start = [] := by
    rw [← List.take_append_drop (stop - start) (text.toList.drop start), hreads, List.drop_drop,
      show start + (stop - start) = stop by omega, hrest]
    rfl
  rw [← List.take_append_drop (start - reach) (text.toList.drop reach), List.drop_drop,
    show reach + (start - reach) = start by omega, hstartEnd, List.append_nil]
  exact hblank

/-- A reading that ends where a state accepts. -/
theorem isFinished_of_accepting (hx : x.Reads g text) {top : Spot} {trees : List Tree} {d a : Nat}
    (h : Way x top ⟨1, 0, 0⟩ trees d) (hacc : .accept ∈ x.actions top.state a)
    {ahead : Tree} (hahead : ahead.label = .terminal 0) (hleaf : Ahead x ahead)
    (hreach : top.damage = 0 → top.position = ahead.reach) {root : Tree}
    (hroot : rootOf x (trees ++ [ahead]) = some root) : IsFinished x root := by
  obtain ⟨before, whole, after, rfl, hextra, hwhole, hlabel⟩ := h.accepting hx.automaton hacc
  have hacc' : .accept ∈ (Automaton.ofGrammar g).actions top.state a := by
    rw [← hx.automaton]
    exact hacc
  have hholds := h.holds hx.automaton (mem_actions hacc').1
  have hmem : ∀ t ∈ before ++ after, t ∈ before ++ whole :: after := by
    intro t ht
    rw [List.mem_append, List.mem_cons]
    rcases List.mem_append.1 ht with hin | hin
    · exact .inl hin
    · exact .inr (.inr hin)
  -- the root takes in the whole text's children, and the extra trees on both sides
  rw [rootOf_accepting hextra hwhole hlabel hahead
    fun t ht => hholds.ends t (hmem t ht) (hextra t ht)] at hroot
  cases hroot
  -- all that is left is about a root that costs nothing, hence about a reading without damage
  refine ⟨.inl rfl, rfl, fun hcost => ?_⟩
  have hsum : ∀ l : List Tree, (∀ t ∈ l, t ∈ before ++ after) →
      belowCost l = (l.map Tree.cost).sum := fun l hl =>
    belowCost_eq_sum fun t ht => hholds.swallowed t (hmem t (hl t ht))
  have hzero : top.damage = 0 := by
    rw [hholds.damage, List.map_append, List.map_cons, List.sum_append, List.sum_cons,
      hholds.cost whole (by simp) 0 hlabel,
      ← hsum before fun t ht => List.mem_append_left _ ht,
      ← hsum after fun t ht => List.mem_append_right _ ht]
    have hbelow : belowCost (before ++ whole.children ++ after) = 0 := hcost
    rw [belowCost_append, belowCost_append] at hbelow
    change 0 + _ = 0
    omega
  obtain ⟨hsound, habreast⟩ := hholds.sound hzero
  have hwholeSound := hsound whole (by simp)
  refine ⟨rfl, rfl, rfl, rfl, ⟨before, whole.children, after, whole, rfl, hwholeSound, hlabel,
    rfl, fun t ht => ⟨hsound t (hmem t ht), hextra t ht⟩⟩, top.position, ?_, ?_⟩
  · -- the children lie abreast where the tree above them stood
    obtain ⟨j, hbefore, hreach, hafter⟩ := habreast.split
    refine (hbefore.append ?_).append hafter
    have hinner := hwholeSound.abreast hlabel
    rwa [hreach] at hinner
  · -- behind the last of them is the end of the text, with blanks in front
    rw [hreach hzero]
    obtain ⟨terminal, hterminal⟩ := hleaf.leaf 0 hahead
    have hends : g.terminals[0]? = some terminal := by
      have := hterminal.found
      rwa [Context.terminals, hx.automaton] at this
    obtain rfl := Option.some.inj (hx.ends.symm.trans hends)
    exact rest_blank hx.text hterminal.shows

/-! ## Ending a track -/

namespace Machine

variable {apart : Nat → Prop} {m : Machine}

/-- The ways down from what a tree is put on are longer by that tree. -/
theorem down_push {v : Nat} {tree : Tree} {state : Nat}
    (hlt : ∀ p, Down m Anywhere (m.track v).top p → p.here < m.vertices.size) {p : Path}
    (hp : Down (m.push v (some tree) state) Anywhere m.vertices.size p) :
    p = ⟨m.vertices.size, [], 0⟩ ∨
      ∃ q, Down m Anywhere (m.track v).top q ∧ p.here = q.here ∧ p.trees = q.trees ++ [tree] := by
  obtain ⟨new, hnew, hlinks, -⟩ := exists_push m v (some tree) state
  induction hp with
  | here => exact .inl rfl
  | @follow p l _ _ hl ih =>
    refine .inr ?_
    rw [vertex, hnew] at hl
    rcases ih with rfl | ⟨q, hq, hhere, htrees⟩
    · rw [vertex_push_self, hlinks, Array.mem_singleton] at hl
      subst hl
      exact ⟨_, .here, rfl, rfl⟩
    · rw [hhere, vertex_push_of_lt new (hlt q hq)] at hl
      refine ⟨q.follow l, .follow hq trivial hl, ?_, ?_⟩
      · rw [Path.follow, Path.follow]
        split <;> rfl
      · rw [Path.follow, Path.follow]
        split <;> simp [htrees]

/-- A track that can end with a terminal. It need not fit on its way, but what it finishes
does. -/
structure Ends (x : Context) (apart : Nat → Prop) (m : Machine) (v : Nat) (ahead : Tree) :
    Prop where
  lt : v < m.tracks.size
  halted : (m.setStatus v .halted).Holds x apart
  down : ∀ p, Down m Anywhere (m.track v).top p → p.here < m.vertices.size
  root : ∀ p, Down m Anywhere (m.track v).top p → (m.vertex p.here).links = #[] →
    m.Stands apart p.here ∧ ∀ root, rootOf x (p.trees ++ [ahead]) = some root →
      IsFinished x root

/-- One turn of the loop over finished readings. -/
def finish (x : Context) (m : Machine) (s : Slice) : Machine :=
  match rootOf x s.trees with
  | none => m
  | some root =>
    let best := match m.best with
      | some old => if old.isBetter root then root else old
      | none => root
    { m with best := some best, accepted := m.accepted + 1 }

theorem accept_eq (m : Machine) (v : Nat) (ahead : Tree) :
    accept x m v ahead =
      let popped := (m.push v (some ahead) 1).popAll v
      let finished := popped.2.toList.foldl (finish x) popped.1
      (match popped.2.toList[0]? with
        | some s => finished.remove s.track
        | none => finished).setStatus v .halted := by
  unfold accept
  dsimp only
  rw [Array.foldl_toList, Array.getElem?_toList]
  rfl

/-- Finished readings change nothing but which one is the best. -/
theorem finish_foldl (slices : List Slice) (m : Machine) :
    let m' := slices.foldl (finish x) m
    m'.vertices = m.vertices ∧ m'.tracks = m.tracks ∧
      ∀ t, m'.best = some t → m.best = some t ∨
        ∃ s ∈ slices, rootOf x s.trees = some t := by
  induction slices generalizing m with
  | nil => exact ⟨rfl, rfl, fun t ht => .inl ht⟩
  | cons s slices ih =>
    obtain ⟨hvertices, htracks, hbest⟩ := ih (finish x m s)
    -- one reading takes the place of the best one only if it is better
    have hstep : (finish x m s).vertices = m.vertices ∧ (finish x m s).tracks = m.tracks ∧
        ∀ t, (finish x m s).best = some t → m.best = some t ∨ rootOf x s.trees = some t := by
      unfold finish
      cases hroot : rootOf x s.trees with
      | none => exact ⟨rfl, rfl, fun t ht => .inl ht⟩
      | some root =>
        refine ⟨rfl, rfl, fun t ht => ?_⟩
        dsimp only at ht
        cases hold : m.best with
        | none =>
          rw [hold] at ht
          exact .inr ht
        | some old =>
          rw [hold] at ht
          dsimp only at ht
          split at ht
          · exact .inr ht
          · exact .inl ht
    rw [List.foldl_cons]
    refine ⟨hvertices.trans hstep.1, htracks.trans hstep.2.1, fun t ht => ?_⟩
    rcases hbest t ht with hold | ⟨s', hs', hroot⟩
    · rcases hstep.2.2 t hold with hold | hroot
      · exact .inl hold
      · exact .inr ⟨s, List.mem_cons_self, hroot⟩
    · exact .inr ⟨s', List.mem_cons_of_mem _ hs', hroot⟩

/-- The vertices that are set apart, and one more. -/
def AndApart (apart : Nat → Prop) (k n : Nat) : Prop := apart n ∨ n = k

/-- The vertex of a tree that need not fit is set apart, and its track is given up. -/
theorem Holds.pushHalted {v : Nat} (hlt : v < m.tracks.size)
    (h : (m.setStatus v .halted).Holds x apart) (tree : Option Tree) (state : Nat) :
    ((m.setStatus v .halted).push v tree state).Holds x (AndApart apart m.vertices.size) ∧
      ((m.setStatus v .halted).push v tree state).vertices = (m.push v tree state).vertices := by
  obtain ⟨top, hsight, htop⟩ : ∃ top, m.sight v = some (top, (m.track v).status) ∧
      (m.track v).top = top := ⟨_, sight_of_lt hlt, rfl⟩
  have hhalted : (m.setStatus v .halted).sight v = some (top, .halted) := by
    rw [sight_setStatus, if_pos rfl, hsight]
    rfl
  refine ⟨h.pushApart v _ state _ (fun n hn => ?_) (fun n hn => ?_) ?_ ?_, ?_⟩
  · have hne : n ≠ m.vertices.size := Nat.ne_of_lt hn
    simp [AndApart, hne]
  · rcases hn with hn | rfl
    · exact Nat.le_of_lt (h.bound n hn)
    · exact Nat.le_refl _
  · rintro ⟨top', status, hlive, hnot⟩
    rw [hhalted] at hlive
    cases hlive
    cases hnot
  · exact fun hcon => absurd (.inr rfl) hcon
  · unfold Machine.push
    dsimp only
    rw [(track_of_sight hhalted).1, ← htop]
    rfl

theorem Stands.push {v n : Nat} (hn : m.Stands apart n) (tree : Option Tree) (state : Nat) :
    (m.push v tree state).Stands (AndApart apart m.vertices.size) n := by
  refine ⟨Nat.lt_of_lt_of_le hn.1 (grows_push m v tree state).size_le, ?_⟩
  rintro (hcon | rfl)
  · exact hn.2 hcon
  · exact Nat.lt_irrefl _ hn.1

/-- Where a track has been given up, what is not given up is another track. -/
theorem sight_of_halted {v u top : Nat} {status : Status}
    (h : (m.setStatus v .halted).sight u = some (top, status)) (hhalted : status.isHalted = false) :
    u ≠ v ∧ m.sight u = some (top, status) := by
  rw [sight_setStatus] at h
  split at h
  · obtain ⟨_, _, heq⟩ := Option.map_eq_some_iff.1 h
    cases heq
    cases hhalted
  · next hne => exact ⟨Ne.symm hne, h⟩

/-- Another reading may be the best. -/
theorem Holds.rebest (h : m.Holds x apart) {m' : Machine} (hv : m'.vertices = m.vertices)
    (ht : ∀ u top status, m'.sight u = some (top, status) → status.isHalted = false →
      m.Stands apart top) (hb : ∀ t, m'.best = some t → IsFinished x t) :
    m'.Holds x apart :=
  have hold : Machine.Holds x apart { m' with best := m.best } := h.retrack hv rfl ht
  ⟨hold.bound, hold.links, hold.bottom, hold.tracks, hb⟩

section Ends

variable {v : Nat} {ahead : Tree}

/-- Below the last terminal of a track that ends, what is at the bottom stands, and has been
read as a whole. -/
theorem Ends.bottom (h : Ends x apart m v ahead) {p : Path}
    (hp : Down (m.push v (some ahead) 1) Anywhere m.vertices.size p)
    (hbottom : AtBottom ((m.push v (some ahead) 1).vertex p.here) p) :
    m.Stands apart p.here ∧ ∀ root, rootOf x p.trees = some root → IsFinished x root := by
  obtain ⟨new, hnew, hlinks, -⟩ := exists_push m v (some ahead) 1
  rw [AtBottom, vertex, hnew] at hbottom
  rcases down_push h.down hp with rfl | ⟨q, hq, hhere, htrees⟩
  · rw [vertex_push_self, hlinks] at hbottom
    cases hbottom
  · rw [hhere, vertex_push_of_lt new (h.down q hq)] at hbottom
    rw [hhere, htrees]
    exact h.root q hq hbottom

/-- What is taken off a track that ends. -/
structure TakesAll (x : Context) (apart : Nat → Prop) (m : Machine) (v : Nat) (ahead : Tree)
    (popped : Machine × Array Slice) : Prop where
  vertices : popped.1.vertices = (m.push v (some ahead) 1).vertices
  best : popped.1.best = m.best
  stands : ∀ u top status, popped.1.sight u = some (top, status) → status.isHalted = false →
    u ≠ v → m.Stands apart top
  track : ∀ s ∈ popped.2.toList, m.tracks.size ≤ s.track
  root : ∀ s ∈ popped.2.toList, ∀ root, rootOf x s.trees = some root → IsFinished x root

/-- All that was read on a track that ends is taken off it. -/
theorem Ends.popAll (h : Ends x apart m v ahead) :
    TakesAll x apart m v ahead ((m.push v (some ahead) 1).popAll v) := by
  obtain ⟨groups, hsliced, hslices⟩ := sliced_popAll (m.push v (some ahead) 1) v
  rw [(track_of_sight (spot_push h.lt (some ahead) 1).2).1] at hsliced
  refine ⟨hsliced.vertices, hsliced.best, fun u top status hs hhalted hu => ?_,
    fun s hs => ?_, fun s hs => ?_⟩
  · -- a track that was there before, or one that starts at the bottom
    rcases hsliced.sight_cases hs with ⟨-, hold⟩ | ⟨p, hp, rfl, hbottom⟩
    · rw [sight_push, if_neg (Ne.symm hu)] at hold
      refine h.halted.tracks u top status ?_ hhalted
      rw [sight_setStatus, if_neg (Ne.symm hu), hold]
    · exact (h.bottom hp hbottom).1
  · obtain ⟨htrack, -⟩ := hsliced.of_mem (hslices ▸ hs)
    rwa [size_tracks_push] at htrack
  · obtain ⟨-, p, -, hp, htrees, hbottom⟩ := hsliced.of_mem (hslices ▸ hs)
    exact htrees ▸ (h.bottom hp hbottom).2

/-- A track ends. -/
theorem Ends.accept (h : Ends x apart m v ahead) :
    ∃ apart', (Tolerant.accept x m v ahead).Holds x apart' := by
  refine ⟨AndApart apart m.vertices.size, ?_⟩
  obtain ⟨hbase, hvertices⟩ := h.halted.pushHalted h.lt (some ahead) 1
  have hlive : ∀ {n}, m.Stands apart n → ((m.setStatus v .halted).push v (some ahead) 1).Stands
      (AndApart apart m.vertices.size) n :=
    fun hn => Stands.push (m := m.setStatus v .halted) hn (some ahead) 1
  -- the machine with the track given up is the one that keeps the invariant; the program pops from
  -- one in which the track still goes on
  generalize (m.setStatus v .halted).push v (some ahead) 1 = base at hbase hvertices hlive
  have htakes := h.popAll
  rw [accept_eq]
  dsimp only
  generalize (m.push v (some ahead) 1).popAll v = popped at htakes ⊢
  -- the readings that end touch the best tree alone
  obtain ⟨hsame, htracks, hbest⟩ := finish_foldl (x := x) popped.2.toList popped.1
  generalize popped.2.toList.foldl (finish x) popped.1 = finished at hsame htracks hbest ⊢
  have hfinished : ∀ u, finished.sight u = popped.1.sight u := fun u => by
    rw [sight, htracks, sight]
  have hroot : ∀ t, finished.best = some t → IsFinished x t := by
    intro t ht
    rcases hbest t ht with hold | ⟨s, hs, hroot⟩
    · exact h.halted.best t (htakes.best.symm.trans hold)
    · exact htakes.root s hs t hroot
  have hall : finished.vertices = base.vertices := by
    rw [hsame, htakes.vertices, hvertices]
  split
  · -- the track that was popped goes, and those behind it move up
    next s hs =>
    have hle := htakes.track s (List.mem_of_getElem? hs)
    have hlt := h.lt
    refine hbase.rebest hall (fun u top status hsight hhalted => hlive ?_) hroot
    obtain ⟨hne, hsight⟩ := sight_of_halted hsight hhalted
    rw [sight_remove, hfinished, hfinished] at hsight
    split at hsight
    · exact htakes.stands u top status hsight hhalted hne
    · exact htakes.stands (u + 1) top status hsight hhalted (by omega)
  · refine hbase.rebest hall (fun u top status hsight hhalted => hlive ?_) hroot
    obtain ⟨hne, hsight⟩ := sight_of_halted hsight hhalted
    rw [hfinished] at hsight
    exact htakes.stands u top status hsight hhalted hne

end Ends

/-- A track whose state accepts can end. -/
theorem Holds.ends_accepting (hx : x.Reads g text) (h : m.Holds x apart) {v n : Nat}
    (hlive : m.Live v) {ahead : Tree} (hahead : Ahead x ahead)
    (hlabel : ahead.label = .terminal n) (hacc : .accept ∈ x.actions (m.state v) n)
    (hreach : (m.top v).spot.damage = 0 → (m.top v).spot.position = ahead.reach) :
    Ends x apart m v ahead := by
  have hzero : n = 0 := by
    have := hacc
    rw [Context.actions, hx.automaton] at this
    exact (accepts_of_mem this).1
  have hstands := h.stands_top hlive
  refine ⟨hlive.lt, h.setStatus fun hcon => (by cases hcon), fun p hp => (h.way hstands hp).1.1,
    fun p hp hnil => ⟨(h.way hstands hp).1, fun root hroot => ?_⟩⟩
  obtain ⟨hp', hway⟩ := h.way hstands hp
  rw [h.bottom _ hp' hnil] at hway
  exact isFinished_of_accepting hx hway hacc (hzero ▸ hlabel) hahead hreach hroot

/-- A reading that ends with an error is damaged. -/
theorem isFinished_of_error {trees : List Tree} {error ahead root : Tree}
    (herror : error.label = .error) (hextra : error.extra = false)
    (hahead : ahead.label = .terminal 0)
    (hroot : rootOf x ((trees ++ [error]) ++ [ahead]) = some root) : IsFinished x root := by
  have hfilter : ((trees ++ [error]) ++ [ahead]).filter (fun t => t.label ≠ .terminal 0) =
      trees.filter (fun t => t.label ≠ .terminal 0) ++ [error] := by
    simp [List.filter_append, herror, hahead]
  unfold rootOf at hroot
  dsimp only at hroot
  rw [hfilter, List.reverse_append, List.reverse_singleton, List.singleton_append,
    List.dropWhile_cons_of_neg (by simp [hextra])] at hroot
  cases hroot
  rw [herror]
  refine ⟨.inr rfl, rfl, fun hcost => ?_⟩
  exact absurd hcost (Nat.ne_of_gt (cost_branch_pos .error rfl _ _ _))

/-- A track in the middle of damage can end with an error. -/
theorem Holds.ends_error (h : m.Holds x apart) {v : Nat} (hlive : m.Live v)
    {error ahead : Tree} (herror : error.label = .error) (hextra : error.extra = false)
    (hahead : ahead.label = .terminal 0) :
    Ends x (AndApart apart m.vertices.size) (m.push v (some error) 1) v ahead := by
  have hstands := h.stands_top hlive
  have hlt : ∀ p, Down m Anywhere (m.track v).top p → p.here < m.vertices.size :=
    fun p hp => (h.way hstands hp).1.1
  have htop := (track_of_sight (spot_push hlive.lt (some error) 1).2).1
  obtain ⟨new, hnew, hlinks, -⟩ := exists_push m v (some error) 1
  refine ⟨by simpa using hlive.lt, ?_, fun p hp => ?_, fun p hp hnil => ?_⟩
  · have hhalt : (m.setStatus v .halted).Holds x apart := h.setStatus fun hcon => by cases hcon
    obtain ⟨hbase, hvertices⟩ := hhalt.pushHalted hlive.lt (some error) 1
    refine hbase.rebest hvertices.symm (fun u top status hs hhalted => ?_) h.best
    obtain ⟨hne, hs⟩ := sight_of_halted hs hhalted
    refine hbase.tracks u top status ?_ hhalted
    rw [sight_push, if_neg (Ne.symm hne)] at hs ⊢
    rw [sight_setStatus, if_neg (Ne.symm hne), hs]
  · rw [htop] at hp
    rw [hnew, Array.size_push]
    rcases down_push hlt hp with rfl | ⟨q, hq, hhere, -⟩
    · exact Nat.lt_succ_self _
    · have := hlt q hq
      omega
  · rw [htop] at hp
    rcases down_push hlt hp with rfl | ⟨q, hq, hhere, htrees⟩
    · rw [vertex, hnew, vertex_push_self, hlinks] at hnil
      cases hnil
    · rw [hhere, htrees]
      exact ⟨(h.way hstands hq).1.push _ _, fun root hroot =>
        isFinished_of_error herror hextra hahead hroot⟩

end Machine

end ScriptInventory.Script.Tolerant
