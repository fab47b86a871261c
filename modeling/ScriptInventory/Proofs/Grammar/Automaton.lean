import ScriptInventory.Proofs.Grammar.Items

/-!
# What the states of an automaton hold

A state holds the items of its kernel, and items in front of productions that its closure
adds (`Held`). Main statements, for the automaton of any grammar:

* `Automaton.reduce_path`: where a state closes a production, the symbols on every path of
  that length into the state are those of a production which looks the same.
* `Automaton.accept_path`: where a state accepts, the start of the grammar has just been
  read, from the first state on.

The construction is followed by `Explored`: a kernel that a move leads to holds nothing but
moved items of the state that the move starts from. Kernels may still grow, but only in
what follows their items, so that this stays true.
-/

namespace ScriptInventory.Script.Grammar

variable {g : Numbered}

/-! ## Keys of productions -/

/-- Two productions that look the same up to a dot still do behind the next symbol. -/
theorem itemKey_step {p q : Production} {c c' : Option Nat} {d : Nat} {slot : Slot}
    (h : q.itemKey c' d = p.itemKey c d) (hslot : p.slots[d]? = some slot) :
    q.slots[d]? = some slot ∧ q.itemKey c' (d + 1) = p.itemKey c (d + 1) := by
  have hrest : q.slots.toList.drop d = p.slots.toList.drop d := congrArg ItemKey.rest h
  have hq : q.slots[d]? = some slot := by
    rw [← hslot, ← Array.getElem?_toList, ← Array.getElem?_toList]
    have hhead := congrArg (fun l => l[0]?) hrest
    simpa using hhead
  refine ⟨hq, ?_⟩
  have hbehind : (q.slots.toList.take d).map (fun s => (s.renamed, s.role)) =
      (p.slots.toList.take d).map (fun s => (s.renamed, s.role)) := congrArg ItemKey.behind h
  have hconstruct : c' = c := congrArg ItemKey.construct h
  have hweight : q.weight = p.weight := congrArg ItemKey.weight h
  have hdrop : q.slots.toList.drop (d + 1) = p.slots.toList.drop (d + 1) := by
    have := congrArg (List.drop 1) hrest
    rwa [List.drop_drop, List.drop_drop] at this
  have htake : ∀ r : Production, r.slots[d]? = some slot →
      r.slots.toList.take (d + 1) = r.slots.toList.take d ++ [slot] := by
    intro r hr
    rw [List.take_add_one, Array.getElem?_toList, hr]
    rfl
  simp only [Production.itemKey, Nat.add_sub_cancel, Nat.succ_ne_zero, if_false, hq, hslot,
    hconstruct, hweight, hdrop, htake p hslot, htake q hq, List.map_append, hbehind]

/-! ## Closures and successors -/

/-- An item that a state with this kernel holds: one of the kernel, or one in front of a
production of some construct. -/
def Held (g : Numbered) (kernel : List Entry) (n : Nat) : Prop :=
  n ∈ kernel.map Prod.fst ∨
    ∃ it : Item, g.items.items[n]? = some it ∧ it.dot = 0 ∧ it.construct ≠ none

theorem front_of_mem_additions {c : Nat} {a : Addition} {firsts : Array Nat}
    (h : a ∈ (allAdditions g g.items firsts).getD c []) :
    ∃ it : Item, g.items.items[a.item]? = some it ∧ it.dot = 0 ∧ it.construct ≠ none := by
  rw [allAdditions, Array.getD_eq_getD_getElem?, Array.getElem?_mapIdx] at h
  cases hc : g.constructs[c]? with
  | none => rw [hc] at h; cases h
  | some construct =>
    rw [hc, Option.map_some, Option.getD_some, List.mem_flatMap] at h
    obtain ⟨⟨found, d⟩, -, ha⟩ := h
    cases found with
    | none => cases ha
    | some f =>
      obtain ⟨i, hi, rfl⟩ := List.mem_map.1 ha
      exact g.items_hold.opening d i hi

/-- A property of entries that is kept where two entries with one item become one. -/
def Joins (P : Entry → Prop) : Prop := ∀ i a b, P (i, a) → P (i, b) → P (i, a ||| b)

/-- Only the end of the text may follow the whole text. -/
def EndsText (g : Numbered) (e : Entry) : Prop :=
  ∀ it : Item, g.items.items[e.1]? = some it → it.construct = none → ∀ t, e.2.testBit t → t = 0

theorem joins_endsText : Joins (EndsText g) := by
  intro i a b ha hb it hit hnone t ht
  rw [Nat.testBit_or, Bool.or_eq_true] at ht
  rcases ht with ht | ht
  · exact ha it hit hnone t ht
  · exact hb it hit hnone t ht

/-- Marking an item in an array of sets. -/
theorem entry_of_modify {P : Entry → Prop} (hjoins : Joins P) {sets : Array (Option Nat)}
    {item following : Nat} (hsets : ∀ i v, sets[i]? = some (some v) → P (i, v))
    (hnew : P (item, following)) (i v : Nat)
    (h : (sets.modify item fun known => some (known.getD 0 ||| following))[i]? =
      some (some v)) : P (i, v) := by
  rw [Array.getElem?_modify] at h
  split at h
  · next heq =>
    subst heq
    obtain ⟨known, hknown, hv⟩ := Option.map_eq_some_iff.1 h
    cases hv
    cases known with
    | none => rwa [Option.getD_none, Nat.zero_or]
    | some a => exact hjoins _ _ _ (hsets _ a hknown) hnew
  · exact hsets i v h

/-- What holds of the entries of a kernel and of all entries in front of productions holds
of the entries of the state. -/
theorem forall_mem_closure {P : Entry → Prop} (hjoins : Joins P) {kernel : List Entry}
    (hkernel : ∀ e ∈ kernel, P e)
    (hfront : ∀ (i f : Nat) (it : Item), g.items.items[i]? = some it → it.dot = 0 →
      it.construct ≠ none → P (i, f)) :
    ∀ e ∈ (Workshop.ofGrammar g).closure kernel, P e := by
  intro e h
  rw [Workshop.closure] at h
  obtain ⟨⟨set, i⟩, hmem, he⟩ := List.mem_filterMap.1 h
  cases set with
  | none => cases he
  | some following =>
    cases he
    have hget := List.mem_zipIdx_iff_getElem?.1 hmem
    rw [Array.getElem?_toList] at hget
    refine List.foldlRecOn
      (motive := fun sets : Array (Option Nat) => ∀ i v, sets[i]? = some (some v) → P (i, v))
      kernel _ ?_ ?_ i following hget
    · intro i v hv
      rw [Array.getElem?_replicate] at hv
      split at hv <;> cases hv
    · intro sets hsets e he
      have hfirst := entry_of_modify hjoins hsets (hkernel e he)
      dsimp only
      split
      · split
        · refine List.foldlRecOn
            (motive := fun sets : Array (Option Nat) =>
              ∀ i v, sets[i]? = some (some v) → P (i, v)) _ _ hfirst ?_
          intro sets hsets a ha
          obtain ⟨it, hit, hdot, hne⟩ := front_of_mem_additions ha
          exact entry_of_modify hjoins hsets (hfront _ _ it hit hdot hne)
        · exact hfirst
      · exact hfirst

theorem held_of_mem_closure {kernel : List Entry} {e : Entry}
    (h : e ∈ (Workshop.ofGrammar g).closure kernel) : Held g kernel e.1 :=
  forall_mem_closure (P := fun e => Held g kernel e.1) (fun _ _ _ ha _ => ha)
    (fun _ he => .inl (List.mem_map_of_mem he))
    (fun _ _ it hit hdot hne => .inr ⟨it, hit, hdot, hne⟩) e h

theorem endsText_of_mem_closure {kernel : List Entry} (hkernel : ∀ e ∈ kernel, EndsText g e) :
    ∀ e ∈ (Workshop.ofGrammar g).closure kernel, EndsText g e := by
  refine forall_mem_closure joins_endsText hkernel ?_
  intro i f it hit _ hne it' hit' hnone
  rw [hit] at hit'
  cases hit'
  exact absurd hnone hne

/-- An entry that comes from one of several entries by moving the dot over a symbol. -/
def Moved (g : Numbered) (entries : List Entry) (X : Sym) (e : Entry) : Prop :=
  ∃ from' ∈ entries, ∃ it : Item, g.items.items[from'.1]? = some it ∧ it.next = some X ∧
    e.1 = g.items.successor.getD from'.1 0

theorem forall_mem_insertEntry {P : Entry → Prop} (hjoins : Joins P) {new : Entry}
    {kernel : List Entry} (hnew : P new) (hkernel : ∀ e ∈ kernel, P e) :
    ∀ e ∈ Workshop.insertEntry new kernel, P e := by
  induction kernel with
  | nil =>
    intro e he
    exact List.mem_singleton.1 he ▸ hnew
  | cons f rest ih =>
    obtain ⟨hf, hrest⟩ := List.forall_mem_cons.1 hkernel
    rw [Workshop.insertEntry]
    split
    · exact List.forall_mem_cons.2 ⟨hnew, hkernel⟩
    · split
      · next heq => exact List.forall_mem_cons.2 ⟨hjoins _ _ _ hnew (heq ▸ hf), hrest⟩
      · exact List.forall_mem_cons.2 ⟨hf, ih hrest⟩

/-- Putting a moved entry into the kernel of a symbol. -/
theorem entry_of_insertEntry {P : Nat → Entry → Prop} (hjoins : ∀ n, Joins (P n))
    {kernels : Array (List Entry)} {t : Nat} {new : Entry}
    (hkernels : ∀ n, ∀ e ∈ kernels.getD n [], P n e) (hnew : P t new) (n : Nat) :
    ∀ e ∈ (kernels.modify t (Workshop.insertEntry new)).getD n [], P n e := by
  have hold := hkernels n
  rw [Array.getD_eq_getD_getElem?] at hold ⊢
  rw [Array.getElem?_modify]
  split
  · next htn =>
    subst htn
    cases hk : kernels[t]? with
    | none => exact fun e he => absurd he List.not_mem_nil
    | some kernel =>
      rw [hk] at hold
      exact forall_mem_insertEntry (hjoins t) hnew hold
  · exact hold

/-- One turn of the loop that sorts the moved entries of a state by their symbols. -/
def sortMoved (g : Numbered) : Array (List Entry) × Array (List Entry) → Entry →
    Array (List Entry) × Array (List Entry) := fun acc (i, following) =>
  let moved := ((Workshop.ofGrammar g).items.successor.getD i 0, following)
  match ((Workshop.ofGrammar g).items.items[i]?).bind Item.next with
  | some (.terminal t) => (acc.1.modify t (Workshop.insertEntry moved), acc.2)
  | some (.construct c) => (acc.1, acc.2.modify c (Workshop.insertEntry moved))
  | none => acc

theorem forall_mem_sortMoved {P : Sym → Entry → Prop} (hjoins : ∀ X, Joins (P X))
    {entries : List Entry}
    (hmoved : ∀ e ∈ entries, ∀ (it : Item) (X : Sym), g.items.items[e.1]? = some it →
      it.next = some X → P X (g.items.successor.getD e.1 0, e.2)) :
    let acc := entries.foldl (sortMoved g)
      (Array.replicate g.terminals.size [], Array.replicate g.constructs.size [])
    (∀ n, ∀ e ∈ acc.1.getD n [], P (.terminal n) e) ∧
      ∀ n, ∀ e ∈ acc.2.getD n [], P (.construct n) e := by
  have hempty : ∀ size n, ∀ e : Entry, e ∉ (Array.replicate size ([] : List Entry)).getD n [] := by
    intro size n e he
    rw [Array.getD_eq_getD_getElem?, Array.getElem?_replicate] at he
    split at he <;> cases he
  refine List.foldlRecOn (motive := fun acc : Array (List Entry) × Array (List Entry) =>
      (∀ n, ∀ e ∈ acc.1.getD n [], P (.terminal n) e) ∧
        ∀ n, ∀ e ∈ acc.2.getD n [], P (.construct n) e) entries (sortMoved g) ?_ ?_
  · exact ⟨fun n e he => absurd he (hempty _ n e), fun n e he => absurd he (hempty _ n e)⟩
  · rintro acc ⟨hterminal, hconstruct⟩ ⟨i, following⟩ hmem
    have hnew : ∀ X, ((Workshop.ofGrammar g).items.items[i]?).bind Item.next = some X →
        P X ((Workshop.ofGrammar g).items.successor.getD i 0, following) := by
      intro X hX
      obtain ⟨it, hit, hnext⟩ := Option.bind_eq_some_iff.1 hX
      exact hmoved _ hmem it X hit hnext
    unfold sortMoved
    dsimp only
    split
    · next t hX =>
      exact ⟨entry_of_insertEntry (fun n => hjoins (.terminal n)) hterminal (hnew _ hX),
        hconstruct⟩
    · next c hX =>
      exact ⟨hterminal,
        entry_of_insertEntry (fun n => hjoins (.construct n)) hconstruct (hnew _ hX)⟩
    · exact ⟨hterminal, hconstruct⟩

/-- A kernel that a state leads to is not empty, and what holds of all moved entries holds
of its entries. -/
theorem forall_mem_successors {P : Sym → Entry → Prop} (hjoins : ∀ X, Joins (P X))
    {entries kernel : List Entry}
    (hmoved : ∀ e ∈ entries, ∀ (it : Item) (X : Sym), g.items.items[e.1]? = some it →
      it.next = some X → P X (g.items.successor.getD e.1 0, e.2)) {X : Sym}
    (h : (X, kernel) ∈ (Workshop.ofGrammar g).successors entries) :
    ∀ e ∈ kernel, P X e := by
  obtain ⟨hterminal, hconstruct⟩ := forall_mem_sortMoved hjoins hmoved
  have hkeep : ∀ (symbol : Nat → Sym) (kernels : Array (List Entry)),
      (∀ n, ∀ e ∈ kernels.getD n [], P (symbol n) e) →
      (X, kernel) ∈ (kernels.toList.zipIdx.filterMap fun k =>
        if k.1.isEmpty then none else some (symbol k.2, k.1)) →
      ∀ e ∈ kernel, P X e := by
    intro symbol kernels hall hmem
    obtain ⟨⟨k, n⟩, hk, hsome⟩ := List.mem_filterMap.1 hmem
    dsimp only at hsome
    split at hsome
    · cases hsome
    · cases hsome
      have hget := List.mem_zipIdx_iff_getElem?.1 hk
      rw [Array.getElem?_toList] at hget
      have hn := hall n
      rwa [Array.getD_eq_getD_getElem?, hget] at hn
  rcases List.mem_append.1 h with hmem | hmem
  · exact hkeep _ _ hterminal hmem
  · exact hkeep _ _ hconstruct hmem

/-- The entries of a kernel that a state leads to are moved ones. -/
theorem moved_of_mem_successors {entries kernel : List Entry} {X : Sym}
    (h : (X, kernel) ∈ (Workshop.ofGrammar g).successors entries) :
    ∀ e ∈ kernel, Moved g entries X e :=
  forall_mem_successors (P := Moved g entries) (fun _ _ _ _ ha _ => ha)
    (fun e he it _ hit hnext => ⟨e, he, it, hit, hnext, rfl⟩) h

theorem endsText_of_mem_successors {entries kernel : List Entry} {X : Sym}
    (hentries : ∀ e ∈ entries, EndsText g e)
    (h : (X, kernel) ∈ (Workshop.ofGrammar g).successors entries) :
    ∀ e ∈ kernel, EndsText g e := by
  refine forall_mem_successors (P := fun _ => EndsText g) (fun _ => joins_endsText) ?_ h
  intro e he it X hit hnext next hget hnone
  obtain ⟨moved, hmoved, hkey⟩ := g.items_hold.successor _ it X hit hnext
  obtain rfl : moved = next := Option.some.inj (hmoved.symm.trans hget)
  have hleft : g.leftSide? moved.production = g.leftSide? it.production :=
    congrArg ItemKey.construct hkey
  rw [(g.items_hold.faithful _ moved hmoved).construct, hleft,
    ← (g.items_hold.faithful _ it hit).construct] at hnone
  exact hentries e he it hit hnone

/-! ## The search for states -/

/-- The kernel of a state that has been found. -/
def Workshop.Search.kernel (s : Workshop.Search) (n : Nat) : List Entry := s.kernels.getD n []

/-- The items in the kernel of a state that has been found. -/
def Workshop.Search.core (s : Workshop.Search) (n : Nat) : List Nat := (s.kernel n).map Prod.fst

/-- A state to which a move leads holds moved items of the state that the move starts
from. -/
def Leads (g : Numbered) (s : Workshop.Search) (n : Nat) (X : Sym) (m : Nat) : Prop :=
  2 ≤ m ∧ m < s.kernels.size ∧ ∀ j ∈ s.core m, ∃ i, ∃ it : Item, Held g (s.kernel n) i ∧
    g.items.items[i]? = some it ∧ it.next = some X ∧ j = g.items.successor.getD i 0

/-- What is known while states are found. -/
structure Explored (g : Numbered) (s : Workshop.Search) : Prop where
  size : s.moves.size = s.kernels.size
  two_le : 2 ≤ s.kernels.size
  core_zero : s.core 0 = []
  core_one : s.core 1 = [0]
  /-- In the kernels of all other states, the dot has moved. -/
  dot_pos : ∀ n, 2 ≤ n → ∀ j ∈ s.core n, ∃ it : Item, g.items.items[j]? = some it ∧ 0 < it.dot
  ends : ∀ n, ∀ e ∈ s.kernel n, EndsText g e
  moves : ∀ n X m, (X, m) ∈ s.moves.getD n [] → Leads g s n X m
  known : ∀ (k : List Entry) (n : Nat), s.known[k]? = some n →
    1 ≤ n ∧ n < s.kernels.size ∧ k.map Prod.fst = s.core n

/-- The states that were there before stay, up to what follows their items. -/
structure Extends (s t : Workshop.Search) : Prop where
  size_le : s.kernels.size ≤ t.kernels.size
  core : ∀ n, n < s.kernels.size → t.core n = s.core n

theorem held_congr {k l : List Entry} (h : k.map Prod.fst = l.map Prod.fst) {n : Nat} :
    Held g k n ↔ Held g l n := by
  rw [Held, Held, h]

theorem Extends.held {s t : Workshop.Search} (hext : Extends s t) {n i : Nat}
    (h : Held g (s.kernel n) i) : Held g (t.kernel n) i := by
  by_cases hn : n < s.kernels.size
  · exact (held_congr (hext.core n hn)).2 h
  · have hnil : s.kernel n = [] := by
      rw [Workshop.Search.kernel, Array.getD_eq_getD_getElem?,
        Array.getElem?_eq_none (Nat.le_of_not_lt hn)]
      rfl
    rw [hnil] at h
    rcases h with hmem | hfront
    · cases hmem
    · exact .inr hfront

theorem Leads.extend {s t : Workshop.Search} {n m : Nat} {X : Sym} (h : Leads g s n X m)
    (hext : Extends s t) : Leads g t n X m := by
  obtain ⟨htwo, hm, hall⟩ := h
  refine ⟨htwo, Nat.lt_of_lt_of_le hm hext.size_le, ?_⟩
  rw [hext.core m hm]
  intro j hj
  obtain ⟨i, it, hheld, hrest⟩ := hall j hj
  exact ⟨i, it, hext.held hheld, hrest⟩

theorem Extends.refl (s : Workshop.Search) : Extends s s := ⟨Nat.le_refl _, fun _ _ => rfl⟩

theorem Extends.trans {s t u : Workshop.Search} (h : Extends s t) (h' : Extends t u) :
    Extends s u :=
  ⟨Nat.le_trans h.size_le h'.size_le, fun n hn => by
    rw [h'.core n (Nat.lt_of_lt_of_le hn h.size_le), h.core n hn]⟩

/-- What is known does not depend on what follows the items. -/
theorem Explored.congr {s t : Workshop.Search} (hs : Explored g s) (hmoves : t.moves = s.moves)
    (hknown : t.known = s.known) (hsize : t.kernels.size = s.kernels.size)
    (hcore : ∀ n, t.core n = s.core n) (hends : ∀ n, ∀ e ∈ t.kernel n, EndsText g e) :
    Explored g t where
  ends := hends
  size := by rw [hmoves, hsize, hs.size]
  two_le := by rw [hsize]; exact hs.two_le
  core_zero := by rw [hcore, hs.core_zero]
  core_one := by rw [hcore, hs.core_one]
  dot_pos n hn := by rw [hcore]; exact hs.dot_pos n hn
  moves n X m hm := by
    rw [hmoves] at hm
    obtain ⟨htwo, hlt, hall⟩ := hs.moves n X m hm
    refine ⟨htwo, by rwa [hsize], ?_⟩
    rw [hcore]
    intro j hj
    obtain ⟨i, it, hheld, hrest⟩ := hall j hj
    exact ⟨i, it, (held_congr (hcore n)).2 hheld, hrest⟩
  known k n hn := by
    rw [hknown] at hn
    rw [hsize, hcore]
    exact hs.known k n hn

theorem map_fst_key (w : Workshop) (kernel : List Entry) :
    (w.key kernel).map Prod.fst = kernel.map Prod.fst := by
  rw [Workshop.key, List.map_map]
  rfl

/-- Growing in what follows the items keeps the items. -/
theorem map_fst_grow {old kernel : List Entry} (h : kernel.map Prod.fst = old.map Prod.fst) :
    (old.zipWith (fun e f => (e.1, e.2 ||| f.2)) kernel).map Prod.fst = old.map Prod.fst := by
  induction old generalizing kernel with
  | nil => rfl
  | cons e old ih =>
    cases kernel with
    | nil => cases h
    | cons f kernel =>
      rw [List.zipWith_cons_cons, List.map_cons, ih (List.cons.inj h).2]
      rfl

/-- Growing in what follows the items keeps what holds of the entries. -/
theorem forall_mem_grow {P : Entry → Prop} (hjoins : Joins P) {old kernel : List Entry}
    (h : kernel.map Prod.fst = old.map Prod.fst) (hold : ∀ e ∈ old, P e)
    (hkernel : ∀ e ∈ kernel, P e) :
    ∀ e ∈ old.zipWith (fun e f => (e.1, e.2 ||| f.2)) kernel, P e := by
  induction old generalizing kernel with
  | nil => exact fun e he => absurd he List.not_mem_nil
  | cons e old ih =>
    cases kernel with
    | nil => cases h
    | cons f kernel =>
      obtain ⟨hfe, hrest⟩ := List.cons.inj h
      obtain ⟨he, hold⟩ := List.forall_mem_cons.1 hold
      obtain ⟨hf, hkernel⟩ := List.forall_mem_cons.1 hkernel
      rw [List.zipWith_cons_cons]
      refine List.forall_mem_cons.2 ⟨hjoins _ _ _ he ?_, ih hrest hold hkernel⟩
      rw [← hfe]
      exact hf

/-- A kernel is replaced. -/
theorem kernel_set {P : Entry → Prop} {s : Workshop.Search} {n : Nat} {kernel : List Entry}
    (hs : ∀ m, ∀ e ∈ s.kernel m, P e) (hkernel : ∀ e ∈ kernel, P e) (m : Nat) :
    ∀ e ∈ (s.kernels.set! n kernel).getD m [], P e := by
  have hold := hs m
  rw [Workshop.Search.kernel, Array.getD_eq_getD_getElem?] at hold
  rw [Array.set!_eq_setIfInBounds, Array.getD_eq_getD_getElem?, Array.getElem?_setIfInBounds]
  split
  · split
    · exact hkernel
    · exact fun e he => absurd he List.not_mem_nil
  · exact hold

/-- A kernel is replaced by one with the same items. -/
theorem core_set {s : Workshop.Search} {n : Nat} {kernel : List Entry} (hn : n < s.kernels.size)
    (hcore : kernel.map Prod.fst = s.core n) (m : Nat) :
    ((s.kernels.set! n kernel).getD m []).map Prod.fst = s.core m := by
  rw [Array.set!_eq_setIfInBounds, Array.getD_eq_getD_getElem?, Array.getElem?_setIfInBounds]
  split
  · next hnm => rw [Option.getD_some, hcore, hnm]
  · rw [← Array.getD_eq_getD_getElem?]
    rfl

/-- A kernel is added. -/
theorem core_push (s : Workshop.Search) (kernel : List Entry) (m : Nat) :
    ((s.kernels.push kernel).getD m []).map Prod.fst =
      if m = s.kernels.size then kernel.map Prod.fst else s.core m := by
  rw [Array.getD_eq_getD_getElem?, Array.getElem?_push]
  split
  · rfl
  · rw [← Array.getD_eq_getD_getElem?]
    rfl

/-- What is known when the state for a kernel has been found. -/
structure Visited (g : Numbered) (s : Workshop.Search) (kernel : List Entry)
    (v : Workshop.Search × Nat) : Prop where
  explored : Explored g v.1
  extend : Extends s v.1
  two_le : 2 ≤ v.2
  lt : v.2 < v.1.kernels.size
  core : v.1.core v.2 = kernel.map Prod.fst
  moves : ∀ n, v.1.moves.getD n [] = s.moves.getD n []

/-- The state of a kernel that is known, where the kernel may grow. -/
theorem visited_old {s t : Workshop.Search} {kernel : List Entry} {n : Nat} (hs : Explored g s)
    (htwo : 2 ≤ n) (hlt : n < s.kernels.size) (hkey : kernel.map Prod.fst = s.core n)
    (hends : ∀ e ∈ kernel, EndsText g e) (hmoves : t.moves = s.moves) (hknown : t.known = s.known)
    (hkernels : t.kernels = s.kernels.set! n
      ((s.kernels.getD n []).zipWith (fun e f => (e.1, e.2 ||| f.2)) kernel)) :
    Visited g s kernel (t, n) := by
  have hcore : ∀ m, t.core m = s.core m := by
    intro m
    rw [Workshop.Search.core, Workshop.Search.kernel, hkernels]
    exact core_set hlt (map_fst_grow hkey) m
  have hsize : t.kernels.size = s.kernels.size := by rw [hkernels]; simp
  have hboth : ∀ m, ∀ e ∈ t.kernel m, EndsText g e := by
    intro m
    rw [Workshop.Search.kernel, hkernels]
    exact kernel_set hs.ends (forall_mem_grow joins_endsText hkey (hs.ends n) hends) m
  exact ⟨hs.congr hmoves hknown hsize hcore hboth,
    ⟨Nat.le_of_eq hsize.symm, fun m _ => hcore m⟩, htwo,
    Nat.lt_of_lt_of_eq hlt hsize.symm, (hcore n).trans hkey.symm, fun m => by rw [hmoves]⟩

/-- The state of a new kernel. -/
theorem visited_new {s t : Workshop.Search} {kernel : List Entry} {k : List Entry}
    (hs : Explored g s)
    (hdot : ∀ e ∈ kernel, ∃ it : Item, g.items.items[e.1]? = some it ∧ 0 < it.dot)
    (hends : ∀ e ∈ kernel, EndsText g e) (hk : k.map Prod.fst = kernel.map Prod.fst)
    (hkernels : t.kernels = s.kernels.push kernel) (hmoves : t.moves = s.moves.push [])
    (hknown : t.known = s.known.insert k s.kernels.size) :
    Visited g s kernel (t, s.kernels.size) := by
  have hcore : ∀ m, t.core m = if m = s.kernels.size then kernel.map Prod.fst else s.core m := by
    intro m
    rw [Workshop.Search.core, Workshop.Search.kernel, hkernels]
    exact core_push s kernel m
  -- the new kernel is behind the old ones, which keep their numbers and their cores
  have hold : ∀ m, m < s.kernels.size → t.core m = s.core m := fun m hm => by
    rw [hcore, if_neg (Nat.ne_of_lt hm)]
  have hnew : t.core s.kernels.size = kernel.map Prod.fst := by rw [hcore, if_pos rfl]
  have hsize : t.kernels.size = s.kernels.size + 1 := by rw [hkernels, Array.size_push]
  have hext : Extends s t := ⟨by omega, hold⟩
  -- the new state has no moves yet, which is also what a number without a state has
  have hgetD : ∀ m, t.moves.getD m [] = s.moves.getD m [] := by
    intro m
    rw [hmoves, Array.getD_eq_getD_getElem?, Array.getElem?_push, Array.getD_eq_getD_getElem?]
    split
    · next heq => rw [heq, Array.getElem?_eq_none (Nat.le_refl _)]; rfl
    · rfl
  have hlt : s.kernels.size < t.kernels.size := by omega
  refine ⟨?_, hext, hs.two_le, hlt, hnew, hgetD⟩
  have htwo := hs.two_le
  refine ⟨by rw [hmoves, Array.size_push, hs.size, hsize], Nat.le_trans htwo hext.size_le,
    (hold 0 (by omega)).trans hs.core_zero, (hold 1 (by omega)).trans hs.core_one, ?_, ?_, ?_, ?_⟩
  · intro m hm j hj
    rw [hcore] at hj
    split at hj
    · obtain ⟨e, he, rfl⟩ := List.mem_map.1 hj
      exact hdot e he
    · exact hs.dot_pos m hm j hj
  · intro m
    have hm := hs.ends m
    rw [Workshop.Search.kernel, Array.getD_eq_getD_getElem?] at hm
    rw [Workshop.Search.kernel, hkernels, Array.getD_eq_getD_getElem?, Array.getElem?_push]
    split
    · exact hends
    · exact hm
  · -- moves lead between old states only
    intro m X l hl
    rw [hgetD] at hl
    exact (hs.moves m X l hl).extend hext
  · -- the table of known kernels has one more entry, for the new state
    intro k' n hn
    rw [hknown, Std.HashMap.getElem?_insert] at hn
    split at hn
    · next heq =>
      cases hn
      rw [← eq_of_beq heq, hk, hnew]
      exact ⟨by omega, hlt, rfl⟩
    · obtain ⟨hone, hlt', hkey⟩ := hs.known k' n hn
      rw [hold n hlt']
      exact ⟨hone, Nat.lt_trans hlt' hlt, hkey⟩

/-- The state for a kernel in which all dots have moved. -/
theorem visited_visit {s : Workshop.Search} {kernel : List Entry} (hs : Explored g s)
    (hdot : ∀ e ∈ kernel, ∃ it : Item, g.items.items[e.1]? = some it ∧ 0 < it.dot)
    (hends : ∀ e ∈ kernel, EndsText g e) :
    Visited g s kernel ((Workshop.ofGrammar g).visit s kernel) := by
  unfold Workshop.visit
  dsimp only
  split
  · next n hn =>
    obtain ⟨hone, hlt, hkey⟩ := hs.known _ n hn
    rw [map_fst_key] at hkey
    have htwo : 2 ≤ n := by
      -- in the kernel of the first state, the dot has not moved
      rcases Nat.lt_or_eq_of_le hone with h | rfl
      · exact h
      · rw [hs.core_one] at hkey
        obtain ⟨e, rfl, he⟩ := List.map_eq_singleton_iff.1 hkey
        obtain ⟨it, hit, hpos⟩ := hdot e List.mem_cons_self
        rw [he] at hit
        have hzero := (g.items_hold.first it hit).2
        omega
    obtain ⟨both, hboth⟩ : ∃ both, both =
      (s.kernels.getD n []).zipWith (fun e f => (e.1, e.2 ||| f.2)) kernel := ⟨_, rfl⟩
    obtain ⟨old, hold⟩ : ∃ old, old = s.kernels.getD n [] := ⟨_, rfl⟩
    rw [← hboth, ← hold]
    split
    · exact ⟨hs, .refl s, htwo, hlt, hkey.symm, fun _ => rfl⟩
    · split
      · exact visited_old hs htwo hlt hkey hends rfl rfl (by rw [hboth])
      · exact visited_old hs htwo hlt hkey hends rfl rfl (by rw [hboth])
  · exact visited_new hs hdot hends (map_fst_key _ kernel) rfl rfl rfl

/-- In a moved entry, the dot has moved. -/
theorem Moved.dot_pos {entries : List Entry} {X : Sym} {e : Entry} (h : Moved g entries X e) :
    ∃ it : Item, g.items.items[e.1]? = some it ∧ 0 < it.dot := by
  obtain ⟨from', -, it, hit, hnext, hsucc⟩ := h
  obtain ⟨next, hget, hkey⟩ := g.items_hold.successor _ it X hit hnext
  refine ⟨next, by rw [hsucc, hget], ?_⟩
  have hdot : next.dot = it.dot + 1 := congrArg ItemKey.dot hkey
  omega

/-- One turn of the loop that visits the states to which a state leads. -/
def visitNext (g : Numbered) (acc : Workshop.Search × List (Sym × Nat))
    (next : Sym × List Entry) : Workshop.Search × List (Sym × Nat) :=
  let visited := (Workshop.ofGrammar g).visit acc.1 next.2
  (visited.1, (next.1, visited.2) :: acc.2)

/-- The search with the states visited to which state `n` leads, and the moves there. -/
def visitNexts (g : Numbered) (s : Workshop.Search) (n : Nat) :
    Workshop.Search × List (Sym × Nat) :=
  ((Workshop.ofGrammar g).successors ((Workshop.ofGrammar g).closure (s.kernel n))).foldl
    (visitNext g) (s, [])

/-- The states that state `n` leads to. -/
theorem explored_visitNexts {s : Workshop.Search} (hs : Explored g s) (n : Nat) :
    Explored g (visitNexts g s n).1 ∧
      ∀ X m, (X, m) ∈ (visitNexts g s n).2 → Leads g (visitNexts g s n).1 n X m := by
  have hloop : Explored g (visitNexts g s n).1 ∧ Extends s (visitNexts g s n).1 ∧
      ∀ X m, (X, m) ∈ (visitNexts g s n).2 → Leads g (visitNexts g s n).1 n X m := by
    refine List.foldlRecOn (motive := fun t : Workshop.Search × List (Sym × Nat) =>
      Explored g t.1 ∧ Extends s t.1 ∧ ∀ X m, (X, m) ∈ t.2 → Leads g t.1 n X m) _ _ ?_ ?_
    · exact ⟨hs, .refl s, fun X m h => absurd h List.not_mem_nil⟩
    · rintro ⟨u, moves⟩ ⟨hu, hext, hmoves⟩ ⟨X, kernel⟩ hmem
      have hmoved := moved_of_mem_successors hmem
      have hv := visited_visit hu (fun e he => (hmoved e he).dot_pos)
        (endsText_of_mem_successors (endsText_of_mem_closure (hs.ends n)) hmem)
      dsimp only [visitNext]
      generalize (Workshop.ofGrammar g).visit u kernel = v at hv ⊢
      obtain ⟨w, l⟩ := v
      refine ⟨hv.explored, hext.trans hv.extend, ?_⟩
      intro Y m hY
      rcases List.mem_cons.1 hY with heq | hold
      · cases heq
        refine ⟨hv.two_le, hv.lt, ?_⟩
        rw [hv.core]
        intro j hj
        obtain ⟨e, he, rfl⟩ := List.mem_map.1 hj
        obtain ⟨from', hfrom, it, hit, hnext, hsucc⟩ := hmoved e he
        exact ⟨from'.1, it, (hext.trans hv.extend).held (held_of_mem_closure hfrom), hit, hnext,
          hsucc⟩
      · exact (hmoves Y m hold).extend hv.extend
  exact ⟨hloop.1, hloop.2.2⟩

/-- Noting the states that state `n` leads to. -/
theorem Explored.setMoves {s : Workshop.Search} {n : Nat} {moves : List (Sym × Nat)}
    (hs : Explored g s) (hmoves : ∀ X m, (X, m) ∈ moves → Leads g s n X m) :
    Explored g { s with moves := s.moves.set! n moves.reverse } where
  size := by rw [Array.set!_eq_setIfInBounds, Array.size_setIfInBounds, hs.size]
  two_le := hs.two_le
  core_zero := hs.core_zero
  core_one := hs.core_one
  dot_pos := hs.dot_pos
  ends := hs.ends
  moves k X m hm := by
    rw [Array.set!_eq_setIfInBounds, Array.getD_eq_getD_getElem?,
      Array.getElem?_setIfInBounds] at hm
    split at hm
    · next hnk =>
      subst hnk
      split at hm
      · exact hmoves X m (List.mem_reverse.1 hm)
      · cases hm
    · rw [← Array.getD_eq_getD_getElem?] at hm
      exact hs.moves k X m hm
  known := hs.known

/-- The search takes the first waiting state and notes what it leads to. -/
theorem explore_cons (fuel : Nat) (s : Workshop.Search) (n : Nat) (queue : List Nat)
    (h : s.queue = n :: queue) :
    (Workshop.ofGrammar g).explore (fuel + 1) s =
      let t := visitNexts g { s with queue, waiting := s.waiting.set! n false } n
      (Workshop.ofGrammar g).explore fuel
        { t.1 with moves := t.1.moves.set! n t.2.reverse } := by
  rw [Workshop.explore, h]
  rfl

theorem explored_explore (fuel : Nat) {s : Workshop.Search} (hs : Explored g s) :
    Explored g ((Workshop.ofGrammar g).explore fuel s) := by
  induction fuel generalizing s with
  | zero => exact hs
  | succ fuel ih =>
    cases hqueue : s.queue with
    | nil =>
      rw [Workshop.explore, hqueue]
      dsimp only
      split
      · exact hs
      · exact ih (hs.congr rfl rfl rfl (fun _ => rfl) hs.ends)
    | cons n queue =>
      rw [explore_cons fuel s n queue hqueue]
      have hstart : Explored g { s with queue, waiting := s.waiting.set! n false } :=
        hs.congr rfl rfl rfl (fun _ => rfl) hs.ends
      obtain ⟨ht, hmoves⟩ := explored_visitNexts hstart n
      exact ih (ht.setMoves hmoves)

/-- The search before anything is found but the first state. -/
def firstSearch : Workshop.Search := ⟨#[[]], #[[]], {}, #[false], [], []⟩

/-- The search with the first state. -/
theorem visit_firstSearch (w : Workshop) :
    (w.visit firstSearch [(0, bit 0)]).1 =
      ⟨#[[], [(0, bit 0)]], #[[], []],
        (∅ : Std.HashMap (List Entry) Nat).insert (w.key [(0, bit 0)]) 1, #[false, true], [],
        [1]⟩ := by
  unfold Workshop.visit
  dsimp only
  split
  · next n hn =>
    rw [firstSearch, Std.HashMap.getElem?_empty] at hn
    cases hn
  · rfl

theorem explored_first :
    Explored g ((Workshop.ofGrammar g).visit firstSearch [(0, bit 0)]).1 := by
  rw [visit_firstSearch]
  -- two states are there before the search, and neither has moves
  have hnone : ∀ n, 2 ≤ n → ∀ α (a b : α) (d : α), #[a, b].getD n d = d := by
    intro n hn α a b d
    rw [Array.getD_eq_getD_getElem?, Array.getElem?_eq_none hn]
    rfl
  refine ⟨rfl, Nat.le_refl _, rfl, rfl, ?_, ?_, ?_, ?_⟩
  · intro n hn j hj
    rw [Workshop.Search.core, Workshop.Search.kernel, hnone n hn] at hj
    cases hj
  · intro n e he it _ _ t ht
    match n with
    | 0 => cases he
    | 1 =>
      obtain rfl := List.mem_singleton.1 he
      exact (Nat.testBit_one_eq_true_iff_self_eq_zero.1 ht)
    | n + 2 =>
      rw [Workshop.Search.kernel, hnone (n + 2) (by omega)] at he
      cases he
  · intro n X m hm
    match n with
    | 0 => cases hm
    | 1 => cases hm
    | n + 2 =>
      rw [hnone (n + 2) (by omega)] at hm
      cases hm
  · intro k n hn
    rw [Std.HashMap.getElem?_insert] at hn
    split at hn
    · next heq =>
      cases hn
      refine ⟨Nat.le_refl _, Nat.lt_succ_self _, ?_⟩
      rw [← eq_of_beq heq, map_fst_key]
      rfl
    · rw [Std.HashMap.getElem?_empty] at hn
      cases hn

/-! ## States -/

/-- What a state does with a terminal. -/
def Automaton.actions (a : Automaton) (s t : Nat) : List Action :=
  ((a.states[s]?).bind fun s => s.actions[t]?).getD []

/-- Reading a symbol leads from one state to another. -/
def Automaton.Goes (a : Automaton) (s : Nat) : Sym → Nat → Prop
  | .terminal t, s' => ∃ repeats, Action.shift s' repeats ∈ a.actions s t
  | .construct c, s' => ((a.states[s]?).bind fun s => s.next.getD c none) = some s'

/-- The search for the states of a grammar. -/
def found (g : Numbered) : Workshop.Search :=
  (Workshop.ofGrammar g).explore 100000 ((Workshop.ofGrammar g).visit firstSearch [(0, bit 0)]).1

theorem explored_found (g : Numbered) : Explored g (found g) :=
  explored_explore _ explored_first

theorem states_ofGrammar (g : Numbered) :
    (Automaton.ofGrammar g).states = ((found g).kernels.zip (found g).moves).mapIdx
      fun n (kernel, moves) =>
        if n = 0 then
          ⟨Array.replicate g.terminals.size [], Array.replicate g.constructs.size none⟩
        else (Workshop.ofGrammar g).finish kernel moves := by
  rfl

/-- An action at a terminal that closes an item of a state, or accepts with it. -/
def Closes (g : Numbered) (kernel : List Entry) (t : Nat) (a : Action) : Prop :=
  ∃ n, ∃ it : Item, Held g kernel n ∧ g.items.items[n]? = some it ∧ it.next = none ∧
    (it.construct = none → t = 0) ∧
    a = match it.construct with
      | none => .accept
      | some _ => .reduce it.production

theorem mem_actions_add {c : Workshop.Closing} {item : Item} {a : Action}
    (h : a ∈ (c.add g item).actions) :
    a ∈ c.actions ∨ a = match item.construct with
      | none => .accept
      | some _ => .reduce item.production := by
  unfold Workshop.Closing.add at h
  dsimp only at h
  split at h
  · exact .inr (List.mem_singleton.1 h)
  · split at h
    · exact .inr (List.mem_singleton.1 h)
    · exact .inl h
    · rcases List.mem_append.1 h with hold | hnew
      · exact .inl hold
      · exact .inr (List.mem_singleton.1 hnew)

/-- What a state does where it could close an item or shift a terminal. -/
theorem mem_choose {w : Workshop} {items : List (Item × Nat)} {t state : Nat}
    {c : Workshop.Closing} {a : Action} (h : a ∈ w.choose items t state c) :
    a ∈ c.actions ∨ ∃ repeats, a = .shift state repeats := by
  have hsplit : ∀ r, a ∈ c.actions ++ [.shift state r] →
      a ∈ c.actions ∨ ∃ repeats, a = .shift state repeats := by
    intro r hmem
    rcases List.mem_append.1 hmem with hold | hnew
    · exact .inl hold
    · exact .inr ⟨r, List.mem_singleton.1 hnew⟩
  have hshift : a ∈ [Action.shift state false] →
      a ∈ c.actions ∨ ∃ repeats, a = .shift state repeats :=
    fun hmem => .inr ⟨false, List.mem_singleton.1 hmem⟩
  unfold Workshop.choose at h
  dsimp only at h
  split at h
  · exact hsplit _ h
  · next n rest _ =>
    -- whether a shift repeats does not matter to where it leads
    generalize (_ && List.all rest _) = repeats at h
    cases repeats with
    | true => exact hsplit _ h
    | false =>
      rw [if_neg Bool.false_ne_true] at h
      split at h
      · exact hshift h
      · exact .inl h
      · exact hsplit _ h
      · split at h
        · exact .inl h
        · split at h
          · exact hshift h
          · exact hsplit _ h

/-- What is known of the state with this kernel and these moves. -/
structure State.Holds (g : Numbered) (kernel : List Entry) (moves : List (Sym × Nat))
    (s : State) : Prop where
  actions : ∀ t as, s.actions[t]? = some as → ∀ a ∈ as, Closes g kernel t a ∨
    (a = .extra ∧ (g.terminals[t]?).any Terminal.isExtra) ∨
      ∃ m repeats, a = .shift m repeats ∧ (.terminal t, m) ∈ moves
  next : ∀ c m, s.next.getD c none = some m → (.construct c, m) ∈ moves

/-- The ways to close the items of a state. -/
theorem closes_closings {kernel : List Entry} {items : List (Item × Nat)}
    (hitems : ∀ e ∈ items, ∃ n, Held g kernel n ∧ g.items.items[n]? = some e.1 ∧
      EndsText g (n, e.2))
    (t : Nat) (c : Workshop.Closing)
    (h : (items.foldl (fun cs (item, following) =>
        if item.next.isSome then cs
        else
          (List.range g.terminals.size).foldl (fun cs t =>
            if following.testBit t then cs.modify t fun c => c.add g item else cs) cs)
        (Array.replicate g.terminals.size {}))[t]? = some c) :
    ∀ a ∈ c.actions, Closes g kernel t a := by
  have hloop := List.foldlRecOn (motive := fun cs : Array Workshop.Closing =>
      ∀ (t : Nat) (c : Workshop.Closing), cs[t]? = some c → ∀ a ∈ c.actions, Closes g kernel t a)
    items (fun cs (item, following) =>
        if item.next.isSome then cs
        else
          (List.range g.terminals.size).foldl (fun cs t =>
            if following.testBit t then cs.modify t fun c => c.add g item else cs) cs)
    (b := Array.replicate g.terminals.size {}) ?_ ?_
  · exact hloop t c h
  · -- before the first item there is nothing to close
    intro t c hc a ha
    rw [Array.getElem?_replicate] at hc
    split at hc
    · cases hc
      cases ha
    · cases hc
  · -- an item with the dot inside closes nothing, and one at its end adds to what may follow it
    rintro cs hcs ⟨item, following⟩ hmem
    obtain ⟨n, hheld, hget, hends⟩ := hitems _ hmem
    dsimp only
    split
    · exact hcs
    · next hnext =>
      refine List.foldlRecOn (motive := fun cs : Array Workshop.Closing =>
        ∀ (t : Nat) (c : Workshop.Closing), cs[t]? = some c → ∀ a ∈ c.actions, Closes g kernel t a)
        _ _ hcs ?_
      intro cs hcs t _
      split
      · next hfollowing =>
        intro u d hd a ha
        rw [Array.getElem?_modify] at hd
        split at hd
        · -- one of the terminals that may follow the item: `add` puts its closing to the old ones
          next heq =>
          obtain ⟨old, hold, rfl⟩ := Option.map_eq_some_iff.1 hd
          rcases mem_actions_add ha with hin | hnew
          · exact hcs _ _ hold a hin
          · exact ⟨n, item, hheld, hget, by simpa using hnext,
              fun hnone => hends item hget hnone u (heq ▸ hfollowing), hnew⟩
        · exact hcs u d hd a ha
      · exact hcs

/-- The state that each symbol leads to, as far as the moves say. -/
theorem mem_moves_of_set {moves : List (Sym × Nat)} (symbol : Nat → Sym) {size : Nat}
    {write : Array (Option Nat) → Sym × Nat → Array (Option Nat)}
    (hwrite : ∀ a e, write a e = a ∨ ∃ n, e.1 = symbol n ∧ write a e = a.set! n (some e.2))
    {n m : Nat} (h : (moves.foldl write (Array.replicate size none)).getD n none = some m) :
    (symbol n, m) ∈ moves := by
  refine List.foldlRecOn (motive := fun a : Array (Option Nat) =>
      ∀ n m, a.getD n none = some m → (symbol n, m) ∈ moves) moves write ?_ ?_ n m h
  · intro n m h
    rw [Array.getD_eq_getD_getElem?, Array.getElem?_replicate] at h
    split at h <;> cases h
  · intro a ha e he n m hm
    rcases hwrite a e with heq | ⟨k, hk, heq⟩
    · rw [heq] at hm
      exact ha n m hm
    · rw [heq, Array.set!_eq_setIfInBounds, Array.getD_eq_getD_getElem?,
        Array.getElem?_setIfInBounds] at hm
      split at hm
      · next hkn =>
        subst hkn
        split at hm
        · cases hm
          rw [← hk]
          exact he
        · cases hm
      · rw [← Array.getD_eq_getD_getElem?] at hm
        exact ha n m hm

theorem holds_finish {kernel : List Entry} (hends : ∀ e ∈ kernel, EndsText g e)
    (moves : List (Sym × Nat)) :
    ((Workshop.ofGrammar g).finish kernel moves).Holds g kernel moves := by
  refine ⟨?_, ?_⟩
  · intro t as has a ha
    unfold Workshop.finish at has
    dsimp only at has
    rw [Array.getElem?_mapIdx] at has
    obtain ⟨c, hc, rfl⟩ := Option.map_eq_some_iff.1 has
    -- the items that are closed come from the kernel and from what it opens
    have hclosings : ∀ a ∈ c.actions, Closes g kernel t a := by
      refine closes_closings (fun e he => ?_) t c hc
      obtain ⟨e', hmem, hsome⟩ := List.mem_filterMap.1 he
      obtain ⟨item, hitem, rfl⟩ := Option.map_eq_some_iff.1 hsome
      exact ⟨e'.1, held_of_mem_closure hmem, hitem, endsText_of_mem_closure hends e' hmem⟩
    split at ha
    · next n hn =>
      have hmove : (Sym.terminal t, n) ∈ moves := by
        refine mem_moves_of_set .terminal ?_ hn
        rintro b ⟨X, m⟩
        cases X with
        | terminal t => exact .inr ⟨t, rfl, rfl⟩
        | construct c => exact .inl rfl
      split at ha
      · -- nothing can be closed here, and the terminal is shifted
        exact .inr (.inr ⟨n, false, List.mem_singleton.1 ha, hmove⟩)
      · -- both are possible, and the strengths of the productions choose
        rcases mem_choose ha with hin | ⟨repeats, rfl⟩
        · exact .inl (hclosings a hin)
        · exact .inr (.inr ⟨n, repeats, rfl, hmove⟩)
    · split at ha
      · -- extra terminals are taken wherever the grammar has no use for them
        next hextra =>
        rw [Bool.and_eq_true] at hextra
        exact .inr (.inl ⟨List.mem_singleton.1 ha, hextra.2⟩)
      · exact .inl (hclosings a ha)
  · intro c m hm
    refine mem_moves_of_set .construct ?_ hm
    rintro a ⟨X, n⟩
    cases X with
    | terminal t => exact .inl rfl
    | construct c => exact .inr ⟨c, rfl, rfl⟩

/-- State 0 does nothing, and any other state is that of a kernel that was found. -/
theorem state_ofGrammar {s : Nat} {st : State}
    (h : (Automaton.ofGrammar g).states[s]? = some st) :
    (s = 0 ∧ (∀ t : Nat, (st.actions[t]?).getD [] = []) ∧ ∀ c, st.next.getD c none = none) ∨
      (s ≠ 0 ∧ st.Holds g ((found g).kernel s) ((found g).moves.getD s [])) := by
  rw [states_ofGrammar, Array.getElem?_mapIdx] at h
  obtain ⟨⟨kernel, moves⟩, hzip, rfl⟩ := Option.map_eq_some_iff.1 h
  rw [Array.getElem?_zip_eq_some] at hzip
  obtain ⟨hkernel, hmoves⟩ := hzip
  dsimp only at hkernel hmoves ⊢
  by_cases hs : s = 0
  · rw [if_pos hs]
    refine .inl ⟨hs, fun t => ?_, fun c => ?_⟩
    · rw [Array.getElem?_replicate]
      split <;> rfl
    · rw [Array.getD_eq_getD_getElem?, Array.getElem?_replicate]
      split <;> rfl
  · refine .inr ⟨hs, ?_⟩
    rw [if_neg hs, Workshop.Search.kernel, Array.getD_eq_getD_getElem?, hkernel,
      Array.getD_eq_getD_getElem?, hmoves]
    refine holds_finish ?_ moves
    have hends := (explored_found g).ends s
    rwa [Workshop.Search.kernel, Array.getD_eq_getD_getElem?, hkernel] at hends

/-! ## Paths -/

/-- The states from one state to another, over the symbols that are read. -/
inductive Automaton.Path (a : Automaton) (goal : Nat) : Nat → List Sym → Prop
  | here : Path a goal goal []
  | step {s m : Nat} {X : Sym} {syms : List Sym} (goes : a.Goes s X m)
      (rest : Path a goal m syms) : Path a goal s (X :: syms)

/-- What a state does with a terminal, by where the action comes from. -/
theorem mem_actions {s t : Nat} {a : Action} (h : a ∈ (Automaton.ofGrammar g).actions s t) :
    s ≠ 0 ∧ (Closes g ((found g).kernel s) t a ∨
      (a = .extra ∧ (g.terminals[t]?).any Terminal.isExtra) ∨
        ∃ m repeats, a = .shift m repeats ∧ (.terminal t, m) ∈ (found g).moves.getD s []) := by
  rw [Automaton.actions] at h
  cases hst : (Automaton.ofGrammar g).states[s]? with
  | none => rw [hst] at h; cases h
  | some st =>
    rw [hst] at h
    rcases state_ofGrammar hst with ⟨-, hnone, -⟩ | ⟨hs, hholds⟩
    · rw [Option.bind_some, hnone] at h
      cases h
    · rw [Option.bind_some] at h
      cases has : st.actions[t]? with
      | none => rw [has] at h; cases h
      | some as => exact ⟨hs, hholds.actions t as has a (by rwa [has] at h)⟩

/-- A symbol leads where the moves say. -/
theorem Automaton.Goes.mem_moves {s m : Nat} {X : Sym}
    (h : (Automaton.ofGrammar g).Goes s X m) : (X, m) ∈ (found g).moves.getD s [] := by
  cases X with
  | terminal t =>
    obtain ⟨repeats, h⟩ := h
    obtain ⟨-, ⟨n, it, -, -, -, -, heq⟩ | ⟨heq, -⟩ | ⟨m', r, heq, hmem⟩⟩ := mem_actions h
    · split at heq <;> cases heq
    · cases heq
    · cases heq
      exact hmem
  | construct c =>
    obtain ⟨st, hst, hnext⟩ := Option.bind_eq_some_iff.1 h
    rcases state_ofGrammar hst with ⟨-, -, hnone⟩ | ⟨-, hholds⟩
    · rw [hnone] at hnext
      cases hnext
    · exact hholds.next c m hnext

/-- Reading a symbol never leads to one of the first two states. -/
theorem Automaton.Goes.two_le {s m : Nat} {X : Sym}
    (h : (Automaton.ofGrammar g).Goes s X m) : 2 ≤ m :=
  ((explored_found g).moves s X m h.mem_moves).1

/-- Nothing is read in the state where nothing is expected. -/
theorem Automaton.Goes.ne_zero {s m : Nat} {X : Sym}
    (h : (Automaton.ofGrammar g).Goes s X m) : s ≠ 0 := by
  cases X with
  | terminal t =>
    obtain ⟨repeats, h⟩ := h
    exact (mem_actions h).1
  | construct c =>
    obtain ⟨st, hst, hnext⟩ := Option.bind_eq_some_iff.1 h
    rcases state_ofGrammar hst with ⟨-, -, hnone⟩ | ⟨hs, -⟩
    · rw [hnone] at hnext
      cases hnext
    · exact hs

/-- An item whose dot has moved stands in the kernel of its state. -/
theorem mem_core_of_held {s n : Nat} {it : Item} (h : Held g ((found g).kernel s) n)
    (hit : g.items.items[n]? = some it) (hdot : 0 < it.dot) : n ∈ (found g).core s := by
  rcases h with hmem | ⟨it', hit', hzero, -⟩
  · exact hmem
  · rw [hit] at hit'
    cases hit'
    omega

/-- Two productions with the same key at a dot have the same one at each later dot. -/
theorem keyAt_add {p q d : Nat} (h : g.keyAt q d = g.keyAt p d) (k : Nat)
    (hk : d + k ≤ (g.production p).slots.size) : g.keyAt q (d + k) = g.keyAt p (d + k) := by
  induction k with
  | zero => exact h
  | succ k ih =>
    have hlt : d + k < (g.production p).slots.size := by omega
    exact (itemKey_step (ih (by omega)) (Array.getElem?_eq_getElem hlt)).2

/-- Where a state holds an item, the symbols on any path into the state stand in front of
the dot of a production that looks the same, and the state at the start of the path holds
the item with the dot in front of them. -/
theorem held_of_path {s t : Nat} {syms : List Sym}
    (hpath : (Automaton.ofGrammar g).Path t s syms) {n : Nat} {it : Item}
    (hheld : Held g ((found g).kernel t) n) (hit : g.items.items[n]? = some it) {d : Nat}
    (hdot : it.dot = d + syms.length) :
    ∃ k, ∃ first : Item, Held g ((found g).kernel s) k ∧ g.items.items[k]? = some first ∧
      first.dot = d ∧ g.keyAt first.production it.dot = g.keyAt it.production it.dot ∧
      (((g.production first.production).slots.toList.drop d).map Slot.symbol).take syms.length =
        syms := by
  induction hpath generalizing d with
  | here => exact ⟨n, it, hheld, hit, hdot, rfl, by simp⟩
  | @step s m X syms goes _ ih =>
    obtain ⟨k, first, hk, hfirst, hd, hkey, hsyms⟩ := ih (d := d + 1) (by
      rw [hdot, List.length_cons]; omega)
    -- the dot has moved over `X` to come here
    have hleads := (explored_found g).moves s X m goes.mem_moves
    obtain ⟨i, before, hi, hbefore, hnext, hsucc⟩ :=
      hleads.2.2 k (mem_core_of_held hk hfirst (by omega))
    obtain ⟨moved, hmoved, hkeys⟩ := g.items_hold.successor i before X hbefore hnext
    rw [← hsucc, hfirst] at hmoved
    cases hmoved
    have hbd : before.dot = d := by
      have : first.dot = before.dot + 1 := congrArg ItemKey.dot hkeys
      omega
    rw [hd, hbd] at hkeys
    have hrest : (g.production first.production).slots.toList.drop (d + 1) =
        (g.production before.production).slots.toList.drop (d + 1) := congrArg ItemKey.rest hkeys
    have hX : ∃ slot, (g.production before.production).slots.toList[d]? = some slot ∧
        slot.symbol = X := by
      rw [(g.items_hold.faithful i before hbefore).next, hbd] at hnext
      rw [Array.getElem?_toList]
      exact Option.map_eq_some_iff.1 hnext
    obtain ⟨slot, hslot, hsym⟩ := hX
    refine ⟨i, before, hi, hbefore, hbd, ?_, ?_⟩
    · rw [← hkey, hdot, List.length_cons, show d + (syms.length + 1) = d + 1 + syms.length by omega]
      refine keyAt_add hkeys.symm syms.length ?_
      have hlen := congrArg List.length hsyms
      simp only [List.length_take, List.length_map, List.length_drop, Array.length_toList] at hlen
      by_cases hzero : syms.length = 0
      · have hle := (g.items_hold.faithful k first hfirst).dot_le
        omega
      · omega
    · have hdrop : (g.production before.production).slots.toList.drop d =
          slot :: (g.production before.production).slots.toList.drop (d + 1) :=
        List.drop_eq_getElem?_toList_append.trans (by rw [hslot]; rfl)
      rw [hdrop, ← hrest, List.map_cons, List.length_cons, List.take_succ_cons, hsym, hsyms]

/-- A production that a state closes: whatever path of its length leads to the state, the
symbols on it are those of a production for the same construct, whose steps have the same
names and roles. -/
theorem Automaton.reduce_path {s t a p : Nat} {syms : List Sym}
    (h : .reduce p ∈ (Automaton.ofGrammar g).actions t a)
    (hpath : (Automaton.ofGrammar g).Path t s syms) {production : Production}
    (hp : g.productions[p]? = some production) (hlen : syms.length = production.slots.size) :
    ∃ q ∈ g.productions, q.construct = production.construct ∧
      q.slots.toList.map Slot.symbol = syms ∧
      q.slots.toList.map (fun s => (s.renamed, s.role)) =
        production.slots.toList.map fun s => (s.renamed, s.role) := by
  obtain ⟨-, ⟨n, it, hheld, hit, hnone, hends, heq⟩ | ⟨heq, -⟩ | ⟨_, _, heq, _⟩⟩ := mem_actions h
  · have hf := g.items_hold.faithful n it hit
    cases hc : it.construct with
    | none => rw [hc] at heq; cases heq
    | some c =>
      rw [hc] at heq
      cases heq
      have hprod : g.production it.production = production := by rw [Numbered.production, hp]; rfl
      have hdot : it.dot = production.slots.size := by
        rw [hf.next, hprod, Option.map_eq_none_iff, Array.getElem?_eq_none_iff] at hnone
        exact Nat.le_antisymm (hprod ▸ hf.dot_le) hnone
      obtain ⟨k, first, -, hfirst, -, hkey, hsyms⟩ :=
        held_of_path hpath hheld hit (d := 0) (by omega)
      have hleft : g.leftSide? first.production = g.leftSide? it.production :=
        congrArg ItemKey.construct hkey
      rw [Numbered.leftSide?, Numbered.leftSide?, hp] at hleft
      obtain ⟨q, hq, hqc⟩ := Option.map_eq_some_iff.1 hleft
      have hqprod : g.production first.production = q := by rw [Numbered.production, hq]; rfl
      have hbehind := congrArg ItemKey.behind hkey
      have hrest := congrArg ItemKey.rest hkey
      simp only [Numbered.keyAt, Production.itemKey, hqprod, hprod, hdot] at hbehind hrest
      rw [hqprod, List.drop_zero] at hsyms
      -- nothing stands behind the dot
      have hend : production.slots.toList.drop production.slots.size = [] := by simp
      rw [hend, List.drop_eq_nil_iff, Array.length_toList] at hrest
      rw [List.take_of_length_le (by simpa using hrest),
        List.take_of_length_le (by simp)] at hbehind
      rw [List.take_of_length_le (by simpa [hlen] using hrest)] at hsyms
      exact ⟨q, Array.mem_of_getElem? hq, hqc, hsyms, hbehind⟩
  · cases heq
  · cases heq

/-- A state that accepts has just read the whole text: it holds an item behind the start of
the grammar, and the terminal is the end of the text. -/
theorem accepts_of_mem {t a : Nat} (h : .accept ∈ (Automaton.ofGrammar g).actions t a) :
    a = 0 ∧ ∃ n, ∃ it : Item, Held g ((found g).kernel t) n ∧ g.items.items[n]? = some it ∧
      it.construct = none ∧ it.dot = 1 := by
  obtain ⟨-, ⟨n, it, hheld, hit, hnone, hends, heq⟩ | ⟨heq, -⟩ | ⟨_, _, heq, _⟩⟩ := mem_actions h
  · have hf := g.items_hold.faithful n it hit
    cases hc : it.construct with
    | some c => rw [hc] at heq; cases heq
    | none =>
      refine ⟨hends hc, n, it, hheld, hit, hc, ?_⟩
      have hleft := hf.construct.symm.trans hc
      rw [Numbered.leftSide?, Option.map_eq_none_iff] at hleft
      have hprod : g.production it.production = wholeText := by rw [Numbered.production, hleft]; rfl
      have hle := hf.dot_le
      rw [hf.next, Option.map_eq_none_iff, Array.getElem?_eq_none_iff] at hnone
      rw [hprod] at hle hnone
      exact Nat.le_antisymm hle hnone
  · cases heq
  · cases heq

/-- The first state does not accept. -/
theorem Automaton.accept_ne_one {t a : Nat}
    (h : .accept ∈ (Automaton.ofGrammar g).actions t a) : t ≠ 1 := by
  rintro rfl
  obtain ⟨-, n, it, hheld, hit, -, hdot⟩ := accepts_of_mem h
  have hmem := mem_core_of_held hheld hit (by omega)
  rw [(explored_found g).core_one] at hmem
  obtain rfl := List.mem_singleton.1 hmem
  have hzero := (g.items_hold.first it hit).2
  omega

/-- A state accepts only when the start of the grammar has been read from the first state
on. -/
theorem Automaton.accept_path {s t a : Nat} {X : Sym}
    (h : .accept ∈ (Automaton.ofGrammar g).actions t a)
    (hgoes : (Automaton.ofGrammar g).Goes s X t) : s = 1 ∧ X = .construct 0 := by
  obtain ⟨-, n, it, hheld, hit, hc, hdot⟩ := accepts_of_mem h
  obtain ⟨k, first, hk, hfirst, hzero, hkey, hsyms⟩ :=
    held_of_path (.step hgoes .here) hheld hit (d := 0) (by simpa using hdot)
  have hleft : g.leftSide? first.production = none :=
    (congrArg ItemKey.construct hkey).trans
      ((g.items_hold.faithful n it hit).construct.symm.trans hc)
  have hconstruct := (g.items_hold.faithful k first hfirst).construct.trans hleft
  rw [Numbered.leftSide?, Option.map_eq_none_iff] at hleft
  have hprod : g.production first.production = wholeText := by
    rw [Numbered.production, hleft]; rfl
  rw [hprod] at hsyms
  refine ⟨?_, (List.cons.inj hsyms).1.symm⟩
  rcases hk with hmem | ⟨it', hit', -, hne⟩
  · -- only the kernel of the first state has an item whose dot has not moved
    rcases s with _ | _ | s
    · have hzero : (found g).core 0 = [] := (explored_found g).core_zero
      rw [Workshop.Search.core] at hzero
      exact absurd (hzero ▸ hmem) List.not_mem_nil
    · rfl
    · obtain ⟨it', hit', hpos⟩ := (explored_found g).dot_pos (s + 2) (by omega) k hmem
      rw [hfirst] at hit'
      cases hit'
      omega
  · rw [hfirst] at hit'
    cases hit'
    exact absurd hconstruct hne

end ScriptInventory.Script.Grammar
