import ScriptInventory.Proofs.Tolerant.Tree

/-!
# What the graph of readings holds

The invariant of the machine (`Machine.Holds`). Vertices are never removed, and none ever
changes the spot that it stands for (`Machine.Grows`); a link leads from the vertex below it
over a tree that crosses to the vertex above it. The exception are the vertices that a
finished reading leaves behind: they are set apart (`apart`), and nothing but halted tracks
comes to them.

* `Holds.push`, `Holds.merge?` and their like: what one step on a track keeps.
* `walk_slices`: what is taken off a track is what stands on a way down from it.
-/

namespace ScriptInventory.Script.Tolerant

open Grammar

variable {x : Context}

/-! ## Tracks -/

/-- What a track is to the graph: the vertex on its top, and its status. -/
def Machine.sight (m : Machine) (v : Nat) : Option (Nat × Status) :=
  (m.tracks[v]?).map fun k => (k.top, k.status)

def Machine.Live (m : Machine) (v : Nat) : Prop :=
  ∃ top status, m.sight v = some (top, status) ∧ status.isHalted = false

/-- The first `n` tracks have the same tops and statuses. -/
def Machine.Keeps (n : Nat) (m m' : Machine) : Prop := ∀ v, v < n → m'.sight v = m.sight v

namespace Machine

theorem Keeps.refl (n : Nat) (m : Machine) : Keeps n m m := fun _ _ => rfl

theorem Keeps.trans {n : Nat} {m m' m'' : Machine} (h : Keeps n m m') (h' : Keeps n m' m'') :
    Keeps n m m'' := fun v hv => (h' v hv).trans (h v hv)

theorem Keeps.mono {n k : Nat} {m m' : Machine} (h : Keeps n m m') (hk : k ≤ n) :
    Keeps k m m' := fun v hv => h v (Nat.lt_of_lt_of_le hv hk)

theorem Keeps.live {n v : Nat} {m m' : Machine} (h : Keeps n m m') (hv : v < n)
    (hlive : m.Live v) : m'.Live v := by
  rwa [Live, h v hv]

theorem track_of_sight {m : Machine} {v top : Nat} {status : Status}
    (h : m.sight v = some (top, status)) :
    (m.track v).top = top ∧ (m.track v).status = status ∧ v < m.tracks.size := by
  obtain ⟨k, hk, heq⟩ := Option.map_eq_some_iff.1 h
  cases heq
  rw [track, Array.getD_eq_getD_getElem?, hk]
  exact ⟨rfl, rfl, (Array.getElem?_eq_some_iff.1 hk).1⟩

theorem sight_of_lt {m : Machine} {v : Nat} (h : v < m.tracks.size) :
    m.sight v = some ((m.track v).top, (m.track v).status) := by
  rw [sight, track, Array.getD_eq_getD_getElem?, Array.getElem?_eq_getElem h]
  rfl

theorem sight_eq_none {m : Machine} {v : Nat} : m.sight v = none ↔ m.tracks.size ≤ v := by
  rw [sight, Option.map_eq_none_iff, Array.getElem?_eq_none_iff]

theorem Live.lt {m : Machine} {v : Nat} (h : m.Live v) : v < m.tracks.size := by
  obtain ⟨top, status, hsight, -⟩ := h
  exact (track_of_sight hsight).2.2

theorem live_of_isActive {m : Machine} {v : Nat} (h : (m.track v).status.isActive) :
    m.Live v := by
  by_cases hv : v < m.tracks.size
  · refine ⟨_, _, sight_of_lt hv, ?_⟩
    cases hs : (m.track v).status <;> rw [hs] at h <;> first | rfl | cases h
  · rw [track, Array.getD_eq_getD_getElem?, Array.getElem?_eq_none (Nat.le_of_not_lt hv)] at h
    cases h

theorem sight_remove (m : Machine) (v u : Nat) :
    (m.remove v).sight u = if u < v then m.sight u else m.sight (u + 1) := by
  rw [sight, remove, ← Array.getElem?_toList, Array.toList_eraseIdxIfInBounds,
    List.getElem?_eraseIdx, Array.getElem?_toList, Array.getElem?_toList]
  split <;> rfl

theorem sight_setStatus (m : Machine) (v : Nat) (status : Status) (u : Nat) :
    (m.setStatus v status).sight u =
      if v = u then (m.sight u).map fun s => (s.1, status) else m.sight u := by
  rw [sight, setStatus, Array.getElem?_modify]
  split
  · rw [sight, Option.map_map, Option.map_map]
    rfl
  · rfl

theorem sight_fork (m : Machine) (v n u : Nat) :
    (m.fork v n).1.sight u = if u = m.tracks.size then some (n, .active) else m.sight u := by
  rw [sight, fork, Array.getElem?_push]
  split <;> rfl

/-- Changing what tracks remember changes nothing for the graph. -/
theorem sight_modify (m : Machine) (v : Nat) (f : Track → Track)
    (hf : ∀ k, ((f k).top, (f k).status) = (k.top, k.status)) (u : Nat) :
    Machine.sight { m with tracks := m.tracks.modify v f } u = m.sight u := by
  rw [sight, Array.getElem?_modify]
  split
  · rw [sight, Option.map_map]
    congr 1
    funext k
    exact hf k
  · rfl

@[simp] theorem sight_settle (m : Machine) (v u : Nat) : (m.settle v).sight u = m.sight u := by
  refine sight_modify m v _ ?_ u
  exact fun _ => rfl

theorem sight_replace (m : Machine) {a b : Nat} (hab : b < a) (ha : a < m.tracks.size)
    (u : Nat) :
    (m.replace a b).sight u =
      if u < a then (if u = b then m.sight a else m.sight u) else m.sight (u + 1) := by
  rw [replace, if_neg (Nat.ne_of_gt hab), sight, ← Array.getElem?_toList,
    Array.toList_eraseIdxIfInBounds, List.getElem?_eraseIdx, Array.getElem?_toList,
    Array.getElem?_toList, Array.set!_eq_setIfInBounds]
  simp only [Array.getElem?_setIfInBounds]
  split
  · split
    · next h =>
      rw [if_pos h.symm, if_pos (Nat.lt_trans hab ha), sight_of_lt ha]
      rfl
    · next h =>
      rw [if_neg (fun heq => h heq.symm)]
      rfl
  · rw [if_neg (by omega)]
    rfl

theorem sight_push (m : Machine) (v : Nat) (tree : Option Tree) (state u : Nat) :
    (m.push v tree state).sight u =
      if v = u then (m.sight u).map fun s => (m.vertices.size, s.2) else m.sight u := by
  rw [sight]
  unfold push
  simp only [Array.set!_eq_setIfInBounds, Array.getElem?_setIfInBounds]
  split
  · next h =>
    subst h
    split
    · next h =>
      rw [sight_of_lt h]
      rfl
    · next h => rw [sight_eq_none.2 (Nat.le_of_not_lt h)]; rfl
  · rfl

/-! ## The graph -/

/-- The vertices stay, and what they stand for stays. -/
structure Grows (m m' : Machine) : Prop where
  size_le : m.vertices.size ≤ m'.vertices.size
  spot : ∀ n, n < m.vertices.size → (m'.vertex n).spot = (m.vertex n).spot

theorem Grows.refl (m : Machine) : Grows m m := ⟨Nat.le_refl _, fun _ _ => rfl⟩

theorem Grows.trans {m m' m'' : Machine} (h : Grows m m') (h' : Grows m' m'') : Grows m m'' :=
  ⟨Nat.le_trans h.size_le h'.size_le, fun n hn => by
    rw [h'.spot n (Nat.lt_of_lt_of_le hn h.size_le), h.spot n hn]⟩

theorem Grows.of_eq {m m' : Machine} (h : m'.vertices = m.vertices) : Grows m m' :=
  ⟨Nat.le_of_eq (by rw [h]), fun n _ => by rw [vertex, vertex, h]⟩

end Machine

/-- What is known of a link between two vertices. -/
def Fits (x : Context) (low up : Spot) : Option Tree → Prop
  | none => Breaks low up
  | some t => Crosses x low up t

namespace Machine

/-- A vertex that is there and not set apart. -/
def Stands (apart : Nat → Prop) (m : Machine) (n : Nat) : Prop :=
  n < m.vertices.size ∧ ¬apart n

/-- The invariant of the machine. -/
structure Holds (x : Context) (apart : Nat → Prop) (m : Machine) : Prop where
  bound : ∀ n, apart n → n < m.vertices.size
  links : ∀ n, m.Stands apart n → ∀ l ∈ (m.vertex n).links, m.Stands apart l.below ∧
    Fits x (m.vertex l.below).spot (m.vertex n).spot l.tree
  bottom : ∀ n, m.Stands apart n → (m.vertex n).links = #[] → (m.vertex n).spot = ⟨1, 0, 0⟩
  tracks : ∀ v top status, m.sight v = some (top, status) → status.isHalted = false →
    m.Stands apart top
  best : ∀ t, m.best = some t → IsFinished x t

variable {apart : Nat → Prop} {m : Machine}

theorem Holds.stands_top (h : m.Holds x apart) {v : Nat} (hlive : m.Live v) :
    m.Stands apart (m.track v).top := by
  obtain ⟨top, status, hsight, hhalted⟩ := hlive
  rw [(track_of_sight hsight).1]
  exact h.tracks v top status hsight hhalted

/-- Tracks may be moved, removed and halted, and new ones may start where a vertex
stands. -/
theorem Holds.retrack (h : m.Holds x apart) {m' : Machine} (hv : m'.vertices = m.vertices)
    (hb : m'.best = m.best)
    (ht : ∀ v top status, m'.sight v = some (top, status) → status.isHalted = false →
      m.Stands apart top) : m'.Holds x apart := by
  have hvertex : ∀ n, m'.vertex n = m.vertex n := fun n => by rw [vertex, vertex, hv]
  have hstands : ∀ n, m'.Stands apart n ↔ m.Stands apart n := fun n => by
    rw [Stands, Stands, hv]
  refine ⟨?_, ?_, ?_, ?_, ?_⟩
  · rw [hv]
    exact h.bound
  · intro n hn l hl
    rw [hvertex] at hl
    rw [hstands, hvertex, hvertex]
    exact h.links n ((hstands n).1 hn) l hl
  · intro n hn hlinks
    rw [hvertex] at hlinks ⊢
    exact h.bottom n ((hstands n).1 hn) hlinks
  · intro v top status hs hhalted
    exact (hstands top).2 (ht v top status hs hhalted)
  · rw [hb]
    exact h.best

theorem Holds.remove (h : m.Holds x apart) (v : Nat) : (m.remove v).Holds x apart := by
  refine h.retrack rfl rfl fun u top status hs hhalted => ?_
  rw [sight_remove] at hs
  split at hs <;> exact h.tracks _ top status hs hhalted

theorem Holds.setStatus (h : m.Holds x apart) {v : Nat} {status : Status}
    (hlive : status.isHalted = false → m.Live v) : (m.setStatus v status).Holds x apart := by
  refine h.retrack rfl rfl fun u top s hs hhalted => ?_
  rw [sight_setStatus] at hs
  split at hs
  · next heq =>
    subst heq
    obtain ⟨⟨t, old⟩, hold, heq⟩ := Option.map_eq_some_iff.1 hs
    cases heq
    obtain ⟨t', old', hlive, hnot⟩ := hlive hhalted
    rw [hold] at hlive
    cases hlive
    exact h.tracks v _ _ hold hnot
  · exact h.tracks u top s hs hhalted

theorem Holds.fork (h : m.Holds x apart) (v : Nat) {n : Nat} (hn : m.Stands apart n) :
    (m.fork v n).1.Holds x apart := by
  refine h.retrack rfl rfl fun u top status hs hhalted => ?_
  rw [sight_fork] at hs
  split at hs
  · cases hs
    exact hn
  · exact h.tracks u top status hs hhalted

theorem vertices_replace (m : Machine) (a b : Nat) :
    (m.replace a b).vertices = m.vertices ∧ (m.replace a b).best = m.best := by
  rw [Machine.replace]
  split <;> exact ⟨rfl, rfl⟩

theorem Holds.replace (h : m.Holds x apart) {a b : Nat} (hab : b < a) (ha : a < m.tracks.size) :
    (m.replace a b).Holds x apart := by
  obtain ⟨hv, hb⟩ := vertices_replace m a b
  refine h.retrack hv hb fun u top status hs hhalted => ?_
  rw [sight_replace m hab ha] at hs
  split at hs
  · split at hs <;> exact h.tracks _ top status hs hhalted
  · exact h.tracks _ top status hs hhalted

/-- Changing what tracks remember. -/
theorem Holds.modify (h : m.Holds x apart) (v : Nat) (f : Track → Track)
    (hf : ∀ k, ((f k).top, (f k).status) = (k.top, k.status)) :
    Machine.Holds x apart { m with tracks := m.tracks.modify v f } := by
  refine h.retrack rfl rfl fun u top status hs hhalted => ?_
  rw [sight_modify m v f hf] at hs
  exact h.tracks u top status hs hhalted

theorem Holds.settle (h : m.Holds x apart) (v : Nat) : (m.settle v).Holds x apart := by
  refine h.modify v _ ?_
  exact fun _ => rfl

/-! ## Growing -/

theorem vertex_push_self (vertices : Array Vertex) (new : Vertex) :
    (vertices.push new).getD vertices.size default = new := by
  rw [Array.getD_eq_getD_getElem?, Array.getElem?_push, if_pos rfl, Option.getD_some]

theorem vertex_push_of_lt {vertices : Array Vertex} (new : Vertex) {n : Nat}
    (h : n < vertices.size) :
    (vertices.push new).getD n default = vertices.getD n default := by
  rw [Array.getD_eq_getD_getElem?, Array.getElem?_push, if_neg (Nat.ne_of_lt h),
    Array.getD_eq_getD_getElem?]

end Machine

/-- The spot that a tree leads to from a spot, or that damage makes of it. -/
def Spot.grow (s : Spot) (tree : Option Tree) (state : Nat) : Spot :=
  match tree with
  | some t => ⟨state, max s.position t.stop, s.damage + t.cost⟩
  | none => ⟨state, s.position, s.damage⟩

namespace Machine

variable {apart : Nat → Prop} {m : Machine}

/-- The vertex that a tree puts on top of a track. -/
theorem exists_push (m : Machine) (v : Nat) (tree : Option Tree) (state : Nat) :
    ∃ new : Vertex, (m.push v tree state).vertices = m.vertices.push new ∧
      new.links = #[⟨(m.track v).top, tree⟩] ∧ new.spot = (m.top v).spot.grow tree state := by
  cases tree <;> exact ⟨_, rfl, rfl, rfl⟩

theorem grows_push (m : Machine) (v : Nat) (tree : Option Tree) (state : Nat) :
    Grows m (m.push v tree state) := by
  obtain ⟨new, hnew, -, -⟩ := exists_push m v tree state
  refine ⟨by rw [hnew, Array.size_push]; exact Nat.le_succ _, fun n hn => ?_⟩
  rw [vertex, hnew, vertex_push_of_lt new hn, vertex]

/-- What stands on a track after a push. -/
theorem spot_push {v : Nat} (hv : v < m.tracks.size) (tree : Option Tree) (state : Nat) :
    ((m.push v tree state).top v).spot = (m.top v).spot.grow tree state ∧
      (m.push v tree state).sight v = some (m.vertices.size, (m.track v).status) := by
  obtain ⟨new, hnew, -, hspot⟩ := exists_push m v tree state
  have hsight : (m.push v tree state).sight v = some (m.vertices.size, (m.track v).status) := by
    rw [sight_push, if_pos rfl, sight_of_lt hv]
    rfl
  refine ⟨?_, hsight⟩
  rw [top, (track_of_sight hsight).1, vertex, hnew, vertex_push_self, hspot]

theorem Live.push {v : Nat} (h : m.Live v) (u : Nat) (tree : Option Tree) (state : Nat) :
    (m.push u tree state).Live v := by
  obtain ⟨top, status, hs, hhalted⟩ := h
  rw [Live, sight_push]
  split
  · rw [hs]
    exact ⟨_, status, rfl, hhalted⟩
  · exact ⟨top, status, hs, hhalted⟩

@[simp] theorem size_tracks_push (m : Machine) (v : Nat) (tree : Option Tree) (state : Nat) :
    (m.push v tree state).tracks.size = m.tracks.size := by
  unfold push
  simp

/-- A tree is put on top of a track. The new vertex is set apart, or else the tree fits. -/
theorem Holds.pushApart (h : m.Holds x apart) (v : Nat) (tree : Option Tree) (state : Nat)
    (apart' : Nat → Prop)
    (hapart : ∀ n, n < m.vertices.size → (apart' n ↔ apart n))
    (hbound : ∀ n, apart' n → n ≤ m.vertices.size)
    (htop : m.Live v → ¬apart' m.vertices.size)
    (hfits : ¬apart' m.vertices.size → m.Stands apart (m.track v).top ∧
      Fits x (m.top v).spot ((m.top v).spot.grow tree state) tree) :
    (m.push v tree state).Holds x apart' := by
  obtain ⟨new, hnew, hlinks, hspot⟩ := exists_push m v tree state
  have hold : ∀ n, n < m.vertices.size → (m.push v tree state).vertex n = m.vertex n := by
    intro n hn
    rw [vertex, hnew, vertex_push_of_lt new hn, vertex]
  have hself : (m.push v tree state).vertex m.vertices.size = new := by
    rw [vertex, hnew, vertex_push_self]
  have hsize : (m.push v tree state).vertices.size = m.vertices.size + 1 := by
    rw [hnew, Array.size_push]
  have hstands : ∀ n, m.Stands apart n → (m.push v tree state).Stands apart' n := by
    intro n hn
    exact ⟨by have := hn.1; omega, fun ha => hn.2 ((hapart n hn.1).1 ha)⟩
  have hback : ∀ n, (m.push v tree state).Stands apart' n →
      m.Stands apart n ∨ n = m.vertices.size ∧ ¬apart' m.vertices.size := by
    intro n hn
    rcases Nat.lt_or_eq_of_le (Nat.le_of_lt_succ (hsize ▸ hn.1)) with hlt | rfl
    · exact .inl ⟨hlt, fun ha => hn.2 ((hapart n hlt).2 ha)⟩
    · exact .inr ⟨rfl, hn.2⟩
  refine ⟨?_, ?_, ?_, ?_, ?_⟩
  · -- bound: there is one vertex more, and `apart'` names none behind it
    intro n hn
    have := hbound n hn
    omega
  · -- links: an old vertex keeps its own, whose vertices are old ones too
    intro n hn l hl
    rcases hback n hn with hn' | ⟨rfl, hself'⟩
    · rw [hold n hn'.1] at hl ⊢
      obtain ⟨hbelow, hfits⟩ := h.links n hn' l hl
      rw [hold l.below hbelow.1]
      exact ⟨hstands _ hbelow, hfits⟩
    · -- the new vertex has one link, down to the old top, and `hfits` is about it
      rw [hself] at hl ⊢
      rw [hlinks, Array.mem_singleton] at hl
      obtain ⟨hstand, hfits⟩ := hfits hself'
      subst hl
      rw [hold _ hstand.1, hspot]
      exact ⟨hstands _ hstand, hfits⟩
  · -- bottom: only old vertices have no link
    intro n hn hnil
    rcases hback n hn with hn' | ⟨rfl, -⟩
    · rw [hold n hn'.1] at hnil ⊢
      exact h.bottom n hn' hnil
    · rw [hself, hlinks] at hnil
      exact absurd hnil (by simp)
  · -- tracks: the one pushed on stands on the new vertex, all others where they stood
    intro u top status hs hhalted
    rw [sight_push] at hs
    split at hs
    · next heq =>
      subst heq
      obtain ⟨⟨t, s⟩, ht, heq⟩ := Option.map_eq_some_iff.1 hs
      cases heq
      exact ⟨by omega, htop ⟨t, s, ht, hhalted⟩⟩
    · exact hstands top (h.tracks u top status hs hhalted)
  · exact h.best

/-- A tree that fits is put on top of a track. -/
theorem Holds.push (h : m.Holds x apart) {v : Nat} (hlive : m.Live v) {tree : Option Tree}
    {state : Nat} (hfits : Fits x (m.top v).spot ((m.top v).spot.grow tree state) tree) :
    (m.push v tree state).Holds x apart := by
  refine h.pushApart v tree state apart (fun _ _ => .rfl) (fun n hn => Nat.le_of_lt (h.bound n hn))
    (fun _ ha => Nat.lt_irrefl _ (h.bound _ ha)) fun _ => ⟨h.stands_top hlive, hfits⟩

/-- Damage begins on a track. -/
theorem Holds.pushGap (h : m.Holds x apart) {v : Nat} (hlive : m.Live v) :
    (m.push v none 0).Holds x apart :=
  h.push hlive ⟨rfl, rfl, rfl⟩

/-! ## Merging -/

/-- A machine with the same tracks, whose vertices stand for the same. -/
structure Same (m m' : Machine) : Prop where
  grows : Grows m m'
  size : m'.vertices.size = m.vertices.size
  tracks : m'.tracks = m.tracks
  best : m'.best = m.best

theorem Same.refl (m : Machine) : Same m m := ⟨.refl m, rfl, rfl, rfl⟩

theorem Same.trans {m m' m'' : Machine} (h : Same m m') (h' : Same m' m'') : Same m m'' :=
  ⟨h.grows.trans h'.grows, h'.size.trans h.size, h'.tracks.trans h.tracks, h'.best.trans h.best⟩

theorem Same.stands {m' : Machine} (h : Same m m') {n : Nat} :
    m'.Stands apart n ↔ m.Stands apart n := by
  rw [Stands, Stands, h.size]

/-- A vertex is replaced by one that stands for the same, and whose links are old ones or fit
as well. -/
theorem Holds.setVertex (h : m.Holds x apart) {m' : Machine} {n : Nat} {new : Vertex}
    (hn : m.Stands apart n) (hnew : m'.vertices = m.vertices.setIfInBounds n new)
    (htracks : m'.tracks = m.tracks) (hbest : m'.best = m.best)
    (hspot : new.spot = (m.vertex n).spot)
    (hlinks : ∀ l ∈ new.links, m.Stands apart l.below ∧
      Fits x (m.vertex l.below).spot (m.vertex n).spot l.tree)
    (hbottom : new.links = #[] → (m.vertex n).links = #[]) :
    m'.Holds x apart ∧ Same m m' := by
  have hsize : m'.vertices.size = m.vertices.size := by rw [hnew, Array.size_setIfInBounds]
  have hvertex : ∀ k, m'.vertex k = if n = k then new else m.vertex k := by
    intro k
    rw [vertex, vertex, hnew, Array.getD_eq_getD_getElem?, Array.getElem?_setIfInBounds,
      Array.getD_eq_getD_getElem?]
    split
    · next heq =>
      subst heq
      rw [if_pos hn.1]
      rfl
    · rfl
  -- what the invariant says is about spots, and no spot is another
  have hspots : ∀ k, (m'.vertex k).spot = (m.vertex k).spot := by
    intro k
    rw [hvertex]
    split
    · next heq => rw [hspot, heq]
    · rfl
  have hsame : Same m m' := ⟨⟨Nat.le_of_eq hsize.symm, fun k _ => hspots k⟩, hsize, htracks, hbest⟩
  refine ⟨⟨?_, ?_, ?_, ?_, ?_⟩, hsame⟩
  · rw [hsize]
    exact h.bound
  · -- links: those of the new vertex are given, those of the others are old
    intro k hk l hl
    rw [hsame.stands, hspots, hspots]
    rw [hsame.stands] at hk
    rw [hvertex] at hl
    split at hl
    · next heq =>
      subst heq
      exact hlinks l hl
    · exact h.links k hk l hl
  · -- bottom: the new vertex is without links only where the old one was
    intro k hk hnil
    rw [hsame.stands] at hk
    rw [hspots]
    rw [hvertex] at hnil
    split at hnil
    · next heq =>
      subst heq
      exact h.bottom _ hk (hbottom hnil)
    · exact h.bottom k hk hnil
  · intro u top status hs hhalted
    rw [hsame.stands]
    rw [sight, htracks] at hs
    exact h.tracks u top status hs hhalted
  · rw [hbest]
    exact h.best

theorem holds_raiseWeight (h : m.Holds x apart) {n : Nat} (hn : m.Stands apart n) (l : Link) :
    (m.raiseWeight n l).Holds x apart ∧ Same m (m.raiseWeight n l) := by
  let raise (v : Vertex) : Vertex :=
    if v.weight < m.linkWeight l then { v with weight := m.linkWeight l } else v
  have hspot : ∀ v, (raise v).spot = v.spot ∧ (raise v).links = v.links := by
    intro v
    dsimp only [raise]
    split <;> exact ⟨rfl, rfl⟩
  have hnew : (m.raiseWeight n l).vertices =
      m.vertices.setIfInBounds n (raise (m.vertex n)) := by
    refine Array.ext (by simp [raiseWeight]) fun i hi _ => ?_
    apply Option.some.inj
    rw [← Array.getElem?_eq_getElem, ← Array.getElem?_eq_getElem, raiseWeight,
      Array.getElem?_modify, Array.getElem?_setIfInBounds]
    split
    · next heq =>
      subst heq
      rw [if_pos hn.1, vertex, Array.getD_eq_getD_getElem?, Array.getElem?_eq_getElem hn.1]
      rfl
    · rfl
  refine h.setVertex hn hnew rfl rfl (hspot _).1 ?_ ?_
  · rw [(hspot _).2]
    exact h.links n hn
  · rw [(hspot _).2]
    exact id

theorem spot_of_meets {a b : Vertex} (h : Vertex.meets a b) : a.spot = b.spot := by
  rw [Vertex.meets, Bool.and_eq_true, Bool.and_eq_true] at h
  obtain ⟨⟨hs, hp⟩, hd⟩ := h
  rw [Vertex.spot, Vertex.spot, of_decide_eq_true hs, of_decide_eq_true hp, of_decide_eq_true hd]

/-- A vertex is replaced by one that has one more link, or a link in place of another. -/
theorem Holds.relink (h : m.Holds x apart) {m' : Machine} {n : Nat} {new : Vertex} {l : Link}
    (hn : m.Stands apart n) (hl : m.Stands apart l.below)
    (hfits : Fits x (m.vertex l.below).spot (m.vertex n).spot l.tree)
    (hnew : m'.vertices = m.vertices.setIfInBounds n new) (htracks : m'.tracks = m.tracks)
    (hbest : m'.best = m.best) (hspot : new.spot = (m.vertex n).spot)
    (hlinks : ∀ k ∈ new.links, k ∈ (m.vertex n).links ∨ k = l)
    (hbottom : new.links = #[] → (m.vertex n).links = #[]) :
    m'.Holds x apart ∧ Same m m' := by
  refine h.setVertex hn hnew htracks hbest hspot (fun k hk => ?_) hbottom
  rcases hlinks k hk with hold | rfl
  · exact h.links n hn k hold
  · exact ⟨hl, hfits⟩

/-- What each link keeps, all links keep. -/
theorem holds_foldl {add : Machine → Link → Machine} (ks : List Link)
    (hadd : ∀ m' : Machine, m'.Holds x apart → Same m m' → ∀ k ∈ ks,
      (add m' k).Holds x apart ∧ Same m' (add m' k))
    {m' : Machine} (h : m'.Holds x apart) (hsame : Same m m') :
    (ks.foldl add m').Holds x apart ∧ Same m (ks.foldl add m') := by
  induction ks generalizing m' with
  | nil => exact ⟨h, hsame⟩
  | cons k ks ih =>
    obtain ⟨h', hsame'⟩ := hadd m' h hsame k List.mem_cons_self
    exact ih (fun m' h hsame k hk => hadd m' h hsame k (List.mem_cons_of_mem _ hk)) h'
      (hsame.trans hsame')

/-- The weight is raised in a machine that stands for the same. -/
theorem Same.raiseWeight {m' : Machine} (hsame : Same m m') (h : m'.Holds x apart) {n : Nat}
    (hn : m.Stands apart n) (l : Link) :
    (m'.raiseWeight n l).Holds x apart ∧ Same m (m'.raiseWeight n l) := by
  obtain ⟨h', hsame'⟩ := holds_raiseWeight h (hsame.stands.2 hn) l
  exact ⟨h', hsame.trans hsame'⟩

/-- A link takes the place of another one. -/
theorem Holds.replaceLink (h : m.Holds x apart) {m' : Machine} {n i : Nat} {new : Vertex}
    {l : Link} (hn : m.Stands apart n) (hl : m.Stands apart l.below)
    (hfits : Fits x (m.vertex l.below).spot (m.vertex n).spot l.tree)
    (hnew : m'.vertices = m.vertices.set! n new) (htracks : m'.tracks = m.tracks)
    (hbest : m'.best = m.best) (hspot : new.spot = (m.vertex n).spot)
    (hlinks : new.links = (m.vertex n).links.set! i l) : m'.Holds x apart ∧ Same m m' := by
  rw [Array.set!_eq_setIfInBounds] at hnew hlinks
  refine h.relink hn hl hfits hnew htracks hbest hspot
    (fun k hk => Array.mem_or_eq_of_mem_setIfInBounds (hlinks ▸ hk)) fun hnil => ?_
  have hzero := congrArg Array.size (hlinks ▸ hnil)
  rw [Array.size_setIfInBounds] at hzero
  exact Array.eq_empty_of_size_eq_zero hzero

/-- A vertex gets one link more, and its weight is raised. -/
theorem Holds.pushLink (h : m.Holds x apart) {m' : Machine} {n : Nat} {new : Vertex} {l : Link}
    (hn : m.Stands apart n) (hl : m.Stands apart l.below)
    (hfits : Fits x (m.vertex l.below).spot (m.vertex n).spot l.tree)
    (hnew : m'.vertices = m.vertices.set! n new) (htracks : m'.tracks = m.tracks)
    (hbest : m'.best = m.best) (hspot : new.spot = (m.vertex n).spot)
    (hlinks : new.links = (m.vertex n).links.push l) :
    (m'.raiseWeight n l).Holds x apart ∧ Same m (m'.raiseWeight n l) := by
  rw [Array.set!_eq_setIfInBounds] at hnew
  obtain ⟨h', hsame⟩ := h.relink hn hl hfits hnew htracks hbest hspot
    (fun k hk => Array.mem_push.1 (hlinks ▸ hk)) fun hnil => absurd (hlinks ▸ hnil) (by simp)
  exact hsame.raiseWeight h' hn l

/-- The links of a vertex are added to one that stands for the same. -/
theorem Holds.addLinks (h : m.Holds x apart) (add : Machine → Nat → Link → Machine) {n k : Nat}
    (hadd : ∀ (m' : Machine) (l : Link), m'.Holds x apart → m'.Stands apart n →
      m'.Stands apart l.below → Fits x (m'.vertex l.below).spot (m'.vertex n).spot l.tree →
      (add m' n l).Holds x apart ∧ Same m' (add m' n l))
    (hn : m.Stands apart n) (hk : m.Stands apart k)
    (hspot : (m.vertex n).spot = (m.vertex k).spot) :
    ((m.vertex k).links.foldl (fun m l => add m n l) m).Holds x apart ∧
      Same m ((m.vertex k).links.foldl (fun m l => add m n l) m) := by
  rw [← Array.foldl_toList]
  refine holds_foldl _ (fun m' h' hsame l hl => ?_) h (.refl m)
  obtain ⟨hbelow, hfits⟩ := h.links k hk l (Array.mem_def.2 hl)
  refine hadd m' l h' (hsame.stands.2 hn) (hsame.stands.2 hbelow) ?_
  rw [hsame.grows.spot _ hbelow.1, hsame.grows.spot _ hn.1, hspot]
  exact hfits

/-- A link is added to a vertex, or what it leads to becomes one with what an old link leads
to. -/
theorem holds_addLink (fuel : Nat) (h : m.Holds x apart) {n : Nat} (hn : m.Stands apart n)
    {l : Link} (hl : m.Stands apart l.below)
    (hfits : Fits x (m.vertex l.below).spot (m.vertex n).spot l.tree) :
    (addLink fuel m n l).Holds x apart ∧ Same m (addLink fuel m n l) := by
  induction fuel generalizing m n l with
  | zero => exact ⟨h, .refl m⟩
  | succ fuel ih =>
    unfold addLink
    dsimp only
    split
    · exact ⟨h, .refl m⟩
    · split
      · next i hi =>
        obtain ⟨hsize, hlike, -⟩ := Array.findIdx?_eq_some_iff_getElem.1 hi
        have hgetD : (m.vertex n).links.getD i default = (m.vertex n).links[i] := by
          rw [Array.getD_eq_getD_getElem?, Array.getElem?_eq_getElem hsize]
          rfl
        have hold := h.links n hn _ (Array.getElem_mem hsize)
        rw [hgetD]
        split
        · split
          · split
            · -- the heavier tree takes the place of the old one
              exact h.replaceLink hn hl hfits rfl rfl rfl rfl rfl
            · exact ⟨h, .refl m⟩
          · exact ⟨h, .refl m⟩
        · next hne =>
          -- both links lead to vertices that stand for the same
          rw [Bool.and_eq_true, Bool.or_eq_true, decide_eq_true_eq] at hlike
          have hmeets := spot_of_meets (hlike.2.resolve_left hne)
          obtain ⟨h', hsame⟩ := h.addLinks (addLink fuel) (fun m' l h' hn hl => ih h' hn hl)
            hold.1 hl hmeets
          exact hsame.raiseWeight h' hn l
      · split
        · exact ⟨h, .refl m⟩
        · exact h.pushLink hn hl hfits rfl rfl rfl rfl rfl

/-- Track `v` is gone, and the others stand for what they stood for. -/
structure Drops (m m' : Machine) (v : Nat) : Prop where
  grows : Grows m m'
  sight : ∀ u, m'.sight u = if u < v then m.sight u else m.sight (u + 1)

theorem drops_remove (m : Machine) (v : Nat) : Drops m (m.remove v) v :=
  ⟨.of_eq rfl, sight_remove m v⟩

/-- Two tracks become one. -/
theorem Holds.merge? (h : m.Holds x apart) {a b : Nat} {m' : Machine}
    (hm : m.merge? a b = some m') : m'.Holds x apart ∧ Drops m m' b := by
  rw [Machine.merge?] at hm
  split at hm
  · next hcan =>
    cases hm
    rw [canMerge, Bool.and_eq_true, Bool.and_eq_true] at hcan
    obtain ⟨⟨ha, hb⟩, hmeets⟩ := hcan
    obtain ⟨h', hsame⟩ := h.addLinks (fun m n l => addLink (m.vertices.size + 1) m n l)
      (fun m' l h' hn hl => holds_addLink (m'.vertices.size + 1) h' hn hl)
      (h.stands_top (live_of_isActive ha)) (h.stands_top (live_of_isActive hb))
      (spot_of_meets hmeets)
    rw [← Machine.top] at h' hsame
    generalize Array.foldl _ m (m.top b).links = m' at h' hsame
    have hsight : ∀ u, m'.sight u = m.sight u := fun u => by rw [sight, hsame.tracks, sight]
    dsimp only
    split
    · refine ⟨(h'.modify a (fun k => { k with progressAtDamage := (m'.top a).progress })
        fun _ => rfl).remove b, hsame.grows.trans (.of_eq rfl), fun u => ?_⟩
      have hmodify := sight_modify m' a
        (fun k => { k with progressAtDamage := (m'.top a).progress }) fun _ => rfl
      rw [sight_remove, hmodify, hmodify, hsight, hsight]
    · refine ⟨h'.remove b, hsame.grows.trans (.of_eq rfl), fun u => ?_⟩
      rw [sight_remove, hsight, hsight]
  · cases hm

theorem Holds.mergeInto? (h : m.Holds x apart) {candidates : List Nat} {b : Nat} {m' : Machine}
    (hm : m.mergeInto? candidates b = some m') : m'.Holds x apart ∧ Drops m m' b := by
  obtain ⟨a, -, ha⟩ := List.exists_of_findSome?_eq_some hm
  exact h.merge? ha

/-! ## Ways down -/

/-- The ways down from a vertex, if a way goes on wherever `goesOn` holds. -/
inductive Down (m : Machine) (goesOn : Path → Prop) (top : Nat) : Path → Prop
  | here : Down m goesOn top ⟨top, [], 0⟩
  | follow {p : Path} {l : Link} (h : Down m goesOn top p) (on : goesOn p)
      (hl : l ∈ (m.vertex p.here).links) : Down m goesOn top (p.follow l)

/-- On a way down from a vertex that stands, everything stands, and the trees lead up. -/
theorem Holds.way (h : m.Holds x apart) {goesOn : Path → Prop} {top : Nat}
    (htop : m.Stands apart top) {p : Path} (hp : Down m goesOn top p) : m.Stands apart p.here ∧
      Way x (m.vertex top).spot (m.vertex p.here).spot p.trees p.depth := by
  induction hp with
  | here => exact ⟨htop, .here⟩
  | @follow p l _ _ hl ih =>
    obtain ⟨hstands, hway⟩ := ih
    obtain ⟨hbelow, hfits⟩ := h.links p.here hstands l hl
    cases hl' : l.tree with
    | none =>
      rw [hl'] at hfits
      rw [Path.follow, hl']
      exact ⟨hbelow, .gap hfits hway⟩
    | some t =>
      rw [hl'] at hfits
      rw [Path.follow, hl']
      exact ⟨hbelow, .tree hfits hway⟩

/-- What was taken off a track: new tracks behind the others, and for each of them the ways
down to the vertex on which it starts. -/
structure Sliced (m m' : Machine) (goesOn : Path → Prop) (top : Nat)
    (wanted : Vertex → Path → Prop) (groups : List (List Slice)) : Prop where
  vertices : m'.vertices = m.vertices
  best : m'.best = m.best
  size : m'.tracks.size = m.tracks.size + groups.length
  keeps : Keeps m.tracks.size m m'
  group : ∀ (i : Nat) (slices : List Slice), groups[i]? = some slices → slices ≠ [] ∧
    ∃ here, m'.sight (m.tracks.size + i) = some (here, .active) ∧
      ∀ s ∈ slices, s.track = m.tracks.size + i ∧
        ∃ p, Down m goesOn top p ∧ p.here = here ∧ p.trees = s.trees ∧ wanted (m.vertex here) p

theorem getElem?_append_cons_eq {α : Type} {front back : List α} {a b c : α} {i : Nat}
    (h : (front ++ b :: back)[i]? = some c) :
    i = front.length ∧ b = c ∨ (front ++ a :: back)[i]? = some c := by
  rcases Nat.lt_trichotomy i front.length with hlt | rfl | hgt
  · rw [List.getElem?_append_left hlt] at h ⊢
    exact .inr h
  · rw [List.getElem?_append_right (Nat.le_refl _), Nat.sub_self] at h
    exact .inl ⟨rfl, Option.some.inj h⟩
  · rw [List.getElem?_append_right (Nat.le_of_lt hgt)] at h ⊢
    obtain ⟨k, hk⟩ : ∃ k, i - front.length = k + 1 := ⟨i - front.length - 1, by omega⟩
    rw [hk, List.getElem?_cons_succ] at h ⊢
    exact .inr h

/-- Where an element of several lists stands. -/
theorem exists_of_getElem?_flatten {α : Type} {lists : List (List α)} {k : Nat} {a : α}
    (h : lists.flatten[k]? = some a) :
    ∃ front before after back, lists = front ++ (before ++ a :: after) :: back ∧
      k = front.flatten.length + before.length := by
  induction lists generalizing k with
  | nil => simp at h
  | cons list rest ih =>
    rw [List.flatten_cons, List.getElem?_append] at h
    split at h
    · next hlt =>
      refine ⟨[], list.take k, list.drop (k + 1), rest, ?_, ?_⟩
      · obtain ⟨hlt, rfl⟩ := List.getElem?_eq_some_iff.1 h
        rw [List.getElem_cons_drop, List.take_append_drop]
        rfl
      · rw [List.length_take, Nat.min_eq_left (Nat.le_of_lt hlt)]
        simp
    · next hge =>
      obtain ⟨front, before, after, back, rfl, hk⟩ := ih h
      refine ⟨list :: front, before, after, back, rfl, ?_⟩
      rw [List.flatten_cons, List.length_append]
      omega

section Taking

variable {m m' : Machine} {goesOn : Path → Prop} {top v : Nat} {wanted : Vertex → Path → Prop}
  {p : Path}

/-- What was taken is on a new track, which starts where a wanted way down ends. -/
theorem Sliced.of_mem {groups : List (List Slice)} (h : Sliced m m' goesOn top wanted groups)
    {s : Slice} (hs : s ∈ groups.flatten) :
    m.tracks.size ≤ s.track ∧ ∃ p, m'.sight s.track = some (p.here, .active) ∧
      Down m goesOn top p ∧ p.trees = s.trees ∧ wanted (m.vertex p.here) p := by
  obtain ⟨group, hgroup, hs⟩ := List.mem_flatten.1 hs
  obtain ⟨i, hi⟩ := List.mem_iff_getElem?.1 hgroup
  obtain ⟨-, here, hhere, hall⟩ := h.group i group hi
  obtain ⟨htrack, p, hdown, rfl, htrees, hwanted⟩ := hall s hs
  exact ⟨by omega, p, htrack ▸ hhere, hdown, htrees, hwanted⟩

/-- A track is an old one, or it starts where a wanted way down ends. -/
theorem Sliced.sight_cases {groups : List (List Slice)} (h : Sliced m m' goesOn top wanted groups)
    {u n : Nat} {status : Status} (hs : m'.sight u = some (n, status)) :
    u < m.tracks.size ∧ m.sight u = some (n, status) ∨
      ∃ p, Down m goesOn top p ∧ p.here = n ∧ wanted (m.vertex n) p := by
  by_cases hu : u < m.tracks.size
  · exact .inl ⟨hu, by rw [← h.keeps u hu, hs]⟩
  · have hlt : u < m.tracks.size + groups.length := by
      rw [← h.size]
      exact (track_of_sight hs).2.2
    have hgroup : groups[u - m.tracks.size]? = some groups[u - m.tracks.size] :=
      List.getElem?_eq_getElem (by omega)
    obtain ⟨hne, here, hhere, hall⟩ := h.group _ _ hgroup
    rw [show m.tracks.size + (u - m.tracks.size) = u by omega, hs] at hhere
    cases hhere
    obtain ⟨s, hmem⟩ := List.exists_mem_of_ne_nil _ hne
    obtain ⟨-, p, hdown, hhere, -, hwanted⟩ := hall s hmem
    exact .inr ⟨p, hdown, hhere, hwanted⟩

/-- A way down ends on a track that starts at the same vertex. -/
theorem Sliced.join {front back : List (List Slice)} {before after : List Slice} {s : Slice}
    (h : Sliced m m' goesOn top wanted (front ++ (before ++ s :: after) :: back))
    (htop : (m'.track s.track).top = p.here) (hp : Down m goesOn top p)
    (hwanted : wanted (m.vertex p.here) p) :
    Sliced m m' goesOn top wanted
      (front ++ (before ++ s :: ⟨s.track, p.trees⟩ :: after) :: back) := by
  have hgroup : (front ++ (before ++ s :: after) :: back)[front.length]? =
      some (before ++ s :: after) := by
    rw [List.getElem?_append_right (Nat.le_refl _), Nat.sub_self]
    rfl
  refine ⟨h.vertices, h.best, ?_, h.keeps, fun j g hg => ?_⟩
  · rw [h.size]
    simp
  · rcases getElem?_append_cons_eq (a := before ++ s :: after) hg with ⟨rfl, rfl⟩ | hold
    · obtain ⟨-, here, hsight, hall⟩ := h.group _ _ hgroup
      obtain ⟨htrack, -⟩ := hall s (by simp)
      have hhere : p.here = here := by
        rw [← htop, htrack, (track_of_sight hsight).1]
      refine ⟨by simp, here, hsight, fun u hu => ?_⟩
      have hcases : u = ⟨s.track, p.trees⟩ ∨ u ∈ before ++ s :: after := by
        simp only [List.mem_append, List.mem_cons] at hu ⊢
        tauto
      rcases hcases with rfl | hold
      · exact ⟨htrack, p, hp, hhere, rfl, hhere ▸ hwanted⟩
      · exact hall u hold
    · exact h.group j g hold

/-- A way down ends on a track of its own. -/
theorem Sliced.start {groups : List (List Slice)} (h : Sliced m m' goesOn top wanted groups)
    (v : Nat) (hp : Down m goesOn top p) (hwanted : wanted (m.vertex p.here) p) :
    Sliced m (m'.fork v p.here).1 goesOn top wanted
      (groups ++ [[⟨m'.tracks.size, p.trees⟩]]) := by
  have hsize := h.size
  refine ⟨h.vertices, h.best, ?_, fun u hu => ?_, fun j g hg => ?_⟩
  · rw [fork, Array.size_push, hsize]
    simp [Nat.add_assoc]
  · rw [sight_fork, if_neg (by omega), h.keeps u hu]
  · rw [List.getElem?_append] at hg
    split at hg
    · obtain ⟨hne, here, hsight, hall⟩ := h.group j g hg
      refine ⟨hne, here, ?_, hall⟩
      rw [sight_fork, if_neg (by omega), hsight]
    · next hge =>
      have hj : j - groups.length = 0 := by
        have hlt := (List.getElem?_eq_some_iff.1 hg).1
        rw [List.length_singleton] at hlt
        omega
      rw [hj] at hg
      cases hg
      refine ⟨by simp, p.here, ?_, fun u hu => ?_⟩
      · rw [sight_fork, if_pos (by omega)]
      · obtain rfl := List.mem_singleton.1 hu
        exact ⟨by simp only; omega, p, hp, rfl, rfl, hwanted⟩

/-- A slice behind another one, in the list of all of them. -/
theorem toList_insertBehind {slices : Array Slice} {k : Nat} {front back : List (List Slice)}
    {before after : List Slice} {s : Slice} (new : Slice)
    (hslices : slices.toList = (front ++ (before ++ s :: after) :: back).flatten)
    (hk : k = front.flatten.length + before.length) :
    (slices.take (k + 1) ++ #[new] ++ slices.drop (k + 1)).toList =
      (front ++ (before ++ s :: new :: after) :: back).flatten := by
  have hsplit : slices.toList = (front.flatten ++ (before ++ [s])) ++ (after ++ back.flatten) := by
    rw [hslices]
    simp
  have hlength : k + 1 = (front.flatten ++ (before ++ [s])).length := by
    rw [hk]
    simp only [List.length_append, List.length_singleton]
    omega
  simp only [Array.toList_append, Array.take_eq_extract, Array.drop_eq_extract,
    Array.toList_extract, List.extract_eq_take_drop, List.drop_zero, Nat.sub_zero]
  rw [show slices.size = slices.toList.length from rfl, hsplit, hlength, List.take_left,
    List.drop_left]
  simp only [List.flatten_append, List.flatten_cons, List.append_assoc, List.cons_append,
    List.nil_append, List.append_cancel_left_eq, List.cons.injEq, true_and]
  exact List.take_of_length_le (by simp; omega)

/-- A way down ends on a track of its own, or on one that starts at the same vertex. -/
theorem Sliced.take {groups : List (List Slice)} (h : Sliced m m' goesOn top wanted groups)
    {slices : Array Slice} (hslices : slices.toList = groups.flatten) (hp : Down m goesOn top p)
    (hwanted : wanted (m.vertex p.here) p) :
    ∃ groups', Sliced m (takeSlice m' v slices p).1 goesOn top wanted groups' ∧
      (takeSlice m' v slices p).2.toList = groups'.flatten := by
  unfold takeSlice
  dsimp only
  split
  · next i hi =>
    -- counted from the end, slice `i` is the last one on a track that starts at this vertex
    obtain ⟨hlt, hhere, -⟩ := List.findIdx?_eq_some_iff_getElem.1 hi
    rw [List.length_reverse, Array.length_toList] at hlt
    obtain ⟨k, hk⟩ : ∃ k, k = slices.size - 1 - i := ⟨_, rfl⟩
    have hksize : k < slices.size := by omega
    rw [List.getElem_reverse, Array.getElem_toList] at hhere
    simp only [Array.length_toList, ← hk] at hhere
    have hflat : groups.flatten[k]? = some slices[k] := by
      rw [← hslices, Array.getElem?_toList, Array.getElem?_eq_getElem hksize]
    have hgetD : slices.getD k default = slices[k] := by
      rw [Array.getD_eq_getD_getElem?, Array.getElem?_eq_getElem hksize]
      rfl
    rw [← hk, hgetD]
    generalize slices[k] = s at hhere hflat
    obtain ⟨front, before, after, back, rfl, hlength⟩ := exists_of_getElem?_flatten hflat
    exact ⟨_, h.join (of_decide_eq_true hhere) hp hwanted,
      toList_insertBehind ⟨s.track, p.trees⟩ hslices hlength⟩
  · refine ⟨_, h.start v hp hwanted, ?_⟩
    simp [hslices, fork]

end Taking

section Descent

variable {σ : Type} {top v : Nat} {visit : σ → Vertex → Path → σ × Verdict}
  {goesOn : Path → Prop} {wanted : Vertex → Path → Prop}

/-- What a visitor does: where it takes a way, and where it lets one go on. -/
structure Visits (visit : σ → Vertex → Path → σ × Verdict) (goesOn : Path → Prop)
    (wanted : Vertex → Path → Prop) : Prop where
  take : ∀ memory u p, (visit memory u p).2.take → wanted u p
  stop : ∀ memory u p, (visit memory u p).2.stop = false → goesOn p

/-- What is known while the ways down are followed. -/
def Descending (m : Machine) (goesOn : Path → Prop) (top : Nat)
    (wanted : Vertex → Path → Prop) (d : Descent σ) : Prop :=
  (∃ groups, Sliced m d.machine goesOn top wanted groups ∧ d.slices.toList = groups.flatten) ∧
    (∀ p ∈ d.kept, Down m goesOn top p) ∧ ∀ p ∈ d.forked, Down m goesOn top p

theorem descending_stepDown (hvisit : Visits visit goesOn wanted)
    {d : Descent σ} (hd : Descending m goesOn top wanted d) {p : Path} (hp : Down m goesOn top p)
    (waiting : Nat) : Descending m goesOn top wanted (stepDown v waiting visit d p) := by
  obtain ⟨⟨groups, hsliced, hslices⟩, hkept, hforked⟩ := hd
  have hvertex : d.machine.vertex p.here = m.vertex p.here := by
    rw [vertex, hsliced.vertices, vertex]
  unfold stepDown
  dsimp only
  rw [hvertex]
  -- what is taken here
  obtain ⟨taken, htaken⟩ : ∃ taken, taken =
      if (visit d.memory (m.vertex p.here) p).2.take then takeSlice d.machine v d.slices p
      else (d.machine, d.slices) := ⟨_, rfl⟩
  have hgroups : ∃ groups, Sliced m taken.1 goesOn top wanted groups ∧
      taken.2.toList = groups.flatten := by
    rw [htaken]
    split
    · next htake => exact hsliced.take hslices hp (hvisit.take _ _ _ htake)
    · exact ⟨groups, hsliced, hslices⟩
  rw [← htaken]
  split
  · exact ⟨hgroups, hkept, hforked⟩
  · next first rest hlinks =>
    have hmem : ∀ l ∈ first :: rest, l ∈ (m.vertex p.here).links := fun l hl =>
      Array.mem_def.2 (hlinks ▸ hl)
    split
    · exact ⟨hgroups, hkept, hforked⟩
    · next hstop =>
      have hon := hvisit.stop _ _ _ (Bool.eq_false_iff.2 hstop)
      refine ⟨hgroups, fun q hq => ?_, fun q hq => ?_⟩
      · rcases Array.mem_push.1 hq with hold | rfl
        · exact hkept q hold
        · exact .follow hp hon (hmem first List.mem_cons_self)
      · rcases Array.mem_append.1 hq with hold | hnew
        · exact hforked q hold
        · rw [List.mem_toArray, List.mem_map] at hnew
          obtain ⟨l, hl, rfl⟩ := hnew
          exact .follow hp hon (hmem l (List.mem_cons_of_mem _ (List.mem_of_mem_take hl)))

theorem sliced_descend (hvisit : Visits visit goesOn wanted)
    (fuel : Nat) {m' : Machine} {slices : Array Slice} {groups : List (List Slice)}
    (hsliced : Sliced m m' goesOn top wanted groups) (hslices : slices.toList = groups.flatten)
    (memory : σ) {paths : Array Path} (hpaths : ∀ p ∈ paths, Down m goesOn top p) :
    ∃ groups', Sliced m (descend v visit fuel m' slices memory paths).1 goesOn top wanted groups' ∧
      (descend v visit fuel m' slices memory paths).2.1.toList = groups'.flatten := by
  induction fuel generalizing m' slices groups memory paths with
  | zero => exact ⟨groups, hsliced, hslices⟩
  | succ fuel ih =>
    rw [descend]
    split
    · exact ⟨groups, hsliced, hslices⟩
    · -- one round takes each path one link down; the invariant of the descent is kept path by path
      have hround : ∀ ps : List Path, (∀ p ∈ ps, Down m goesOn top p) → ∀ acc : Descent σ × Nat,
          Descending m goesOn top wanted acc.1 → Descending m goesOn top wanted
            (ps.foldl (fun acc p => (stepDown v acc.2 visit acc.1 p, acc.2 - 1)) acc).1 := by
        intro ps
        induction ps with
        | nil => exact fun _ acc h => h
        | cons p ps ihps =>
          intro hps acc h
          obtain ⟨hp, hps⟩ := List.forall_mem_cons.1 hps
          exact ihps hps _ (descending_stepDown hvisit h hp acc.2)
      obtain ⟨⟨groups', hsliced', hslices'⟩, hkept, hforked⟩ :=
        hround paths.toList (fun p hp => hpaths p (Array.mem_def.2 hp))
          (⟨m', slices, memory, #[], #[]⟩, paths.size - 1)
          ⟨⟨groups, hsliced, hslices⟩, by simp, by simp⟩
      rw [Array.foldl_toList] at hsliced' hslices' hkept hforked
      dsimp only
      refine ih hsliced' hslices' _ fun p hp => ?_
      rcases Array.mem_append.1 hp with hmem | hmem
      · exact hkept p hmem
      · exact hforked p hmem

/-- What is taken on the ways down from a track. -/
theorem sliced_walk (hvisit : Visits visit goesOn wanted)
    (m : Machine) (v : Nat) (memory : σ) :
    ∃ groups, Sliced m (m.walk v visit memory).1 goesOn (m.track v).top wanted groups ∧
      (m.walk v visit memory).2.1.toList = groups.flatten :=
  have hnone : Sliced m m goesOn (m.track v).top wanted [] :=
    ⟨rfl, rfl, rfl, .refl _ m, fun _ _ h => absurd h (by simp)⟩
  sliced_descend hvisit _ hnone rfl memory (by
      intro p hp
      rw [Array.mem_singleton] at hp
      exact hp ▸ .here)

end Descent

def Anywhere (_ : Path) : Prop := True

/-- Where a number of trees has been taken off. -/
def AtDepth (depth : Nat) (_ : Vertex) (p : Path) : Prop := p.depth = depth

theorem sliced_pop (m : Machine) (v depth : Nat) :
    ∃ groups, Sliced m (m.pop v depth).1 Anywhere (m.track v).top (AtDepth depth) groups ∧
      (m.pop v depth).2.toList = groups.flatten := by
  refine sliced_walk ⟨?_, fun _ _ _ _ => trivial⟩ m v ()
  intro memory u p htake
  by_cases h : p.depth = depth
  · exact h
  · rw [if_neg h] at htake
    cases htake

def AtBottom (u : Vertex) (_ : Path) : Prop := u.links = #[]

theorem sliced_popAll (m : Machine) (v : Nat) :
    ∃ groups, Sliced m (m.popAll v).1 Anywhere (m.track v).top AtBottom groups ∧
      (m.popAll v).2.toList = groups.flatten := by
  refine sliced_walk ⟨?_, fun _ _ _ _ => trivial⟩ m v ()
  intro memory u p htake
  exact Array.isEmpty_iff.1 htake

/-- Taking trees off a track keeps the invariant. -/
theorem Holds.sliced (h : m.Holds x apart) {m' : Machine} {goesOn : Path → Prop} {v : Nat}
    {wanted : Vertex → Path → Prop} {groups : List (List Slice)}
    (hs : Sliced m m' goesOn (m.track v).top wanted groups) (hlive : m.Live v) :
    m'.Holds x apart := by
  refine h.retrack hs.vertices hs.best fun u top status hsight hhalted => ?_
  rcases hs.sight_cases hsight with ⟨-, hold⟩ | ⟨p, hdown, rfl, -⟩
  · exact h.tracks u top status hold hhalted
  · exact (h.way (h.stands_top hlive) hdown).1

end Machine

end ScriptInventory.Script.Tolerant
