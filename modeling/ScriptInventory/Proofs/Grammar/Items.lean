import Mathlib
import ScriptInventory.Script.Grammar.Automaton

/-!
# What an item stands for

Items that cannot be told apart are one, so an item stands for every production with a dot
in it that has its key. `Numbered.items_hold` says so of all items of a grammar: the fields
of an item are those of its production, looking an item up gives one with the right key,
and moving the dot on leads to an item whose key is the moved one.

The invariant of the loop that collects the items is `Collected`: what is in the table and
among the known keys has been pushed, and nothing that was pushed ever changes.
-/

namespace ScriptInventory.Script.Grammar

/-- A loop over a list, by the number of elements that are done. -/
theorem foldl_index {α β : Type} {f : β → α → β} {l : List α} {b : β} {P : Nat → β → Prop}
    (hinit : P 0 b)
    (hstep : ∀ k acc a, l[k]? = some a → P k acc → P (k + 1) (f acc a)) :
    P l.length (l.foldl f b) := by
  induction l using List.reverseRecOn with
  | nil => exact hinit
  | append_singleton l a ih =>
    rw [List.foldl_append, List.length_append]
    refine hstep l.length _ a (by simp) (ih fun k acc c hc => ?_)
    have hk : k < l.length := (List.getElem?_eq_some_iff.1 hc).1
    exact hstep k acc c (by rw [List.getElem?_append_left hk, hc])

/-! ## Keys -/

theorem ItemKey.eq_of_beq {k l : ItemKey} (h : (k == l) = true) : k = l := by
  cases k
  cases l
  change (_ && _) = true at h
  simp_all

/-- The production of the whole text. -/
def wholeText : Production := ⟨0, #[⟨.construct 0, none, none, none, none⟩], 0⟩

/-- The production with a number. The number behind the last one is that of the whole
text. -/
def Numbered.production (g : Numbered) (i : Nat) : Production :=
  (g.productions[i]?).getD wholeText

/-- The construct that a production is for; none for the whole text. -/
def Numbered.leftSide? (g : Numbered) (i : Nat) : Option Nat :=
  (g.productions[i]?).map Production.construct

/-- The key of the item in a production with a dot. -/
def Numbered.keyAt (g : Numbered) (production dot : Nat) : ItemKey :=
  (g.production production).itemKey (g.leftSide? production) dot

/-- The fields of an item are those of its production. -/
structure Item.Faithful (g : Numbered) (it : Item) : Prop where
  production_le : it.production ≤ g.productions.size
  construct : it.construct = g.leftSide? it.production
  dot_le : it.dot ≤ (g.production it.production).slots.size
  next : it.next = ((g.production it.production).slots[it.dot]?).map Slot.symbol

/-- The item with number `n` has the key `k`. -/
def HasKey (g : Numbered) (items : Array Item) (n : Nat) (k : ItemKey) : Prop :=
  ∃ it, items[n]? = some it ∧ g.keyAt it.production it.dot = k

theorem HasKey.lt {g : Numbered} {items : Array Item} {n : Nat} {k : ItemKey}
    (h : HasKey g items n k) : n < items.size := by
  obtain ⟨it, hit, -⟩ := h
  exact (Array.getElem?_eq_some_iff.1 hit).1

theorem HasKey.push {g : Numbered} {items : Array Item} {n : Nat} {k : ItemKey}
    (h : HasKey g items n k) (it : Item) : HasKey g (items.push it) n k := by
  obtain ⟨old, hold, hk⟩ := h
  refine ⟨old, ?_, hk⟩
  rw [Array.getElem?_push, if_neg (Nat.ne_of_lt (Array.getElem?_eq_some_iff.1 hold).1), hold]

/-! ## Collecting the items -/

/-- What is known while the items are collected. -/
structure Collected (g : Numbered) (known : Array (List (ItemKey × Nat)))
    (items : Array Item) : Prop where
  known : ∀ bucket, ∀ kn ∈ known.getD bucket [], HasKey g items kn.2 kn.1
  faithful : ∀ (n : Nat) (it : Item), items[n]? = some it → it.Faithful g
  first : ∀ it : Item, items[0]? = some it → it.construct = none ∧ it.dot = 0

/-- A row of the table, for a production with some dots. -/
def RowFits (g : Numbered) (items : Array Item) (production dots : Nat) (row : Array Nat) :
    Prop :=
  row.size = dots ∧ ∀ dot, dot < dots → HasKey g items (row.getD dot 0) (g.keyAt production dot)

theorem RowFits.pushItem {g : Numbered} {items : Array Item} {production dots : Nat}
    {row : Array Nat} (h : RowFits g items production dots row) (it : Item) :
    RowFits g (items.push it) production dots row :=
  ⟨h.1, fun dot hdot => (h.2 dot hdot).push it⟩

theorem RowFits.push {g : Numbered} {items : Array Item} {production dots n : Nat}
    {row : Array Nat} (h : RowFits g items production dots row)
    (hn : HasKey g items n (g.keyAt production dots)) :
    RowFits g items production (dots + 1) (row.push n) := by
  refine ⟨by rw [Array.size_push, h.1], fun dot hdot => ?_⟩
  rcases Nat.lt_succ_iff_lt_or_eq.1 hdot with hlt | rfl
  · have hrow : (row.push n).getD dot 0 = row.getD dot 0 := by
      rw [Array.getD_eq_getD_getElem?, Array.getD_eq_getD_getElem?, Array.getElem?_push,
        if_neg (by rw [h.1]; omega)]
    rw [hrow]
    exact h.2 dot hlt
  · have hrow : (row.push n).getD dot 0 = n := by
      rw [Array.getD_eq_getD_getElem?, Array.getElem?_push, if_pos h.1.symm]
      rfl
    rw [hrow]
    exact hn

theorem mem_of_mem_modify_cons {α : Type} {lists : Array (List α)} {b c : Nat} {a new : α}
    (h : a ∈ (lists.modify b (new :: ·)).getD c []) : a = new ∨ a ∈ lists.getD c [] := by
  rw [Array.getD_eq_getD_getElem?, Array.getElem?_modify] at h
  rw [Array.getD_eq_getD_getElem?]
  split at h
  · cases hc : lists[c]? with
    | none => rw [hc] at h; cases h
    | some old =>
      rw [hc] at h
      exact List.mem_cons.1 h
  · exact .inr h

/-- The state of the loop over the dots of one production. -/
abbrev DotState := Array Nat × Array (List (ItemKey × Nat)) × Array Item

def addDot (g : Numbered) (i : Nat) (construct : Option Nat) (p : Production) :
    DotState → Nat → DotState := fun acc dot =>
  let (row, known, items) := acc
  let key := p.itemKey construct dot
  let bucket := construct.getD g.constructs.size
  match (known.getD bucket []).find? fun (k, _) => k == key with
  | some (_, n) => (row.push n, known, items)
  | none =>
    let item : Item := ⟨i, dot, construct, (p.slots[dot]?).map Slot.symbol,
      (p.slots[dot + 1]?).map Slot.symbol, key.level, key.grouping⟩
    (row.push items.size, known.modify bucket ((key, items.size) :: ·), items.push item)

/-- The state of the loop over the productions. -/
abbrev RowState := Array (Array Nat) × Array (List (ItemKey × Nat)) × Array Item

def addRow (g : Numbered) : RowState → Nat × Option Nat × Production → RowState :=
  fun acc (i, construct, p) =>
    let (row, known, items) := (List.range (p.slots.size + 1)).foldl (addDot g i construct p)
      (#[], acc.2.1, acc.2.2)
    (acc.1.push row, known, items)

/-- All productions, that of the whole text first. -/
def allProductions (g : Numbered) : List (Nat × Option Nat × Production) :=
  (g.productions.size, none, wholeText) ::
    (g.productions.toList.mapIdx fun i p => (i, some p.construct, p))

/-- The table, the known keys and the items of a grammar. -/
def collected (g : Numbered) : RowState :=
  (allProductions g).foldl (addRow g)
    (#[], Array.replicate (g.constructs.size + 1) [], #[])

/-- The item in a production with a dot. -/
def itemAt (g : Numbered) (production dot : Nat) : Nat :=
  ((collected g).1.getD (if production = g.productions.size then 0 else production + 1)
    #[]).getD dot 0

theorem items_eq (g : Numbered) :
    g.items = ⟨(collected g).2.2,
      (collected g).2.2.map fun it => itemAt g it.production (it.dot + 1),
      g.constructs.mapIdx fun c _ =>
        ((List.range g.productions.size).filter fun i =>
          (g.productions[i]?).any fun p => p.construct = c).map fun i => itemAt g i 0⟩ := by
  unfold Numbered.items itemAt collected addRow addDot allProductions wholeText
  rfl

theorem Collected.addDot {g : Numbered} {i : Nat} {row : Array Nat}
    {known : Array (List (ItemKey × Nat))} {items : Array Item} {dot : Nat}
    (hc : Collected g known items) (hi : i ≤ g.productions.size)
    (hrow : RowFits g items i dot row) (hdot : dot ≤ (g.production i).slots.size)
    (hfirst : items.size = 0 → g.leftSide? i = none ∧ dot = 0) :
    let s := addDot g i (g.leftSide? i) (g.production i) (row, known, items) dot
    Collected g s.2.1 s.2.2 ∧ RowFits g s.2.2 i (dot + 1) s.1 ∧
      ∀ n k, HasKey g items n k → HasKey g s.2.2 n k := by
  intro s
  simp only [s, Grammar.addDot]
  split
  · next k n hfind =>
    -- the key is known, and so is an item with it
    have hbeq := List.find?_some hfind
    have hkey : k = g.keyAt i dot := ItemKey.eq_of_beq hbeq
    have hhas := hc.known _ _ (List.mem_of_find?_eq_some hfind)
    rw [hkey] at hhas
    exact ⟨hc, hrow.push hhas, fun _ _ h => h⟩
  · next hfind =>
    generalize hit : (⟨i, dot, g.leftSide? i, _, _, _, _⟩ : Item) = it
    have hkey : g.keyAt it.production it.dot = g.keyAt i dot := by rw [← hit]
    have hhas : HasKey g (items.push it) items.size (g.keyAt i dot) :=
      ⟨it, by simp, hkey⟩
    have hfaithful : it.Faithful g := by
      rw [← hit]
      exact ⟨hi, rfl, hdot, rfl⟩
    refine ⟨⟨?_, ?_, ?_⟩, (hrow.pushItem it).push hhas, fun _ _ h => h.push it⟩
    · intro bucket kn hkn
      rcases mem_of_mem_modify_cons hkn with rfl | hold
      · exact hhas
      · exact (hc.known bucket kn hold).push it
    · intro n old hold
      rw [Array.getElem?_push] at hold
      split at hold
      · cases hold
        exact hfaithful
      · exact hc.faithful n old hold
    · intro old hold
      rw [Array.getElem?_push] at hold
      split at hold
      · next h0 =>
        cases hold
        obtain ⟨hleft, hd⟩ := hfirst h0.symm
        rw [← hit]
        exact ⟨hleft, hd⟩
      · exact hc.first old hold

/-- The state of the loop over the productions, `rows` of which are done. -/
structure RowsFit (g : Numbered) (rows : Nat) (s : RowState) : Prop extends
    Collected g s.2.1 s.2.2 where
  size : s.1.size = rows
  table : ∀ k e, k < rows → (allProductions g)[k]? = some e →
    RowFits g s.2.2 e.1 ((g.production e.1).slots.size + 1) (s.1.getD k #[])

theorem mem_allProductions {g : Numbered} {k : Nat} {e : Nat × Option Nat × Production}
    (h : (allProductions g)[k]? = some e) :
    e.1 ≤ g.productions.size ∧ e.2.1 = g.leftSide? e.1 ∧ e.2.2 = g.production e.1 ∧
      (k = 0 → e.2.1 = none) := by
  cases k with
  | zero =>
    cases h
    simp [Numbered.leftSide?, Numbered.production]
  | succ k =>
    rw [allProductions, List.getElem?_cons_succ, List.getElem?_mapIdx] at h
    obtain ⟨p, hp, rfl⟩ := Option.map_eq_some_iff.1 h
    rw [Array.getElem?_toList] at hp
    have hk : k < g.productions.size := (Array.getElem?_eq_some_iff.1 hp).1
    simp [Numbered.leftSide?, Numbered.production, hp, Nat.le_of_lt hk]

theorem getElem?_range_eq {n k a : Nat} (h : (List.range n)[k]? = some a) : a = k ∧ k < n := by
  obtain ⟨hk, ha⟩ := List.getElem?_eq_some_iff.1 h
  rw [List.getElem_range] at ha
  exact ⟨ha.symm, by simpa using hk⟩

/-- The loop over the dots of a production, of which `dots` are done. -/
theorem RowsFit.dotLoop {g : Numbered} {k : Nat} {s : RowState}
    {e : Nat × Option Nat × Production} (hs : RowsFit g k s)
    (he : (allProductions g)[k]? = some e) :
    let t := (List.range (e.2.2.slots.size + 1)).foldl (Grammar.addDot g e.1 e.2.1 e.2.2)
      (#[], s.2.1, s.2.2)
    Collected g t.2.1 t.2.2 ∧ RowFits g t.2.2 e.1 (e.2.2.slots.size + 1) t.1 ∧
      ∀ n key, HasKey g s.2.2 n key → HasKey g t.2.2 n key := by
  intro t
  obtain ⟨hi, hleft, hprod, hzero⟩ := mem_allProductions he
  have hloop := foldl_index (f := Grammar.addDot g e.1 e.2.1 e.2.2)
    (l := List.range (e.2.2.slots.size + 1)) (b := (#[], s.2.1, s.2.2))
    (P := fun dots t => Collected g t.2.1 t.2.2 ∧ RowFits g t.2.2 e.1 dots t.1 ∧
      ∀ n key, HasKey g s.2.2 n key → HasKey g t.2.2 n key)
    ⟨hs.toCollected, ⟨rfl, fun _ h => absurd h (Nat.not_lt_zero _)⟩, fun _ _ h => h⟩ ?_
  · rwa [List.length_range] at hloop
  · rintro dot ⟨row, known, items⟩ a ha ⟨hc, hrow, hmono⟩
    obtain ⟨rfl, hdot⟩ := getElem?_range_eq ha
    rw [hprod] at hdot
    have hfirst : items.size = 0 → g.leftSide? e.1 = none ∧ a = 0 := by
      intro hempty
      have hno : ∀ n key, ¬ HasKey g items n key := by
        intro n key hhas
        have hlt := hhas.lt
        omega
      have ha0 : a = 0 := by
        by_contra hpos
        exact hno _ _ (hrow.2 0 (by omega))
      refine ⟨?_, ha0⟩
      rw [← hleft]
      refine hzero ?_
      -- the row of the whole text is the first one, and it is not empty
      by_contra hk
      obtain ⟨first, hget⟩ : ∃ first, (allProductions g)[0]? = some first := ⟨_, rfl⟩
      have hfit := hs.table 0 first (by omega) hget
      exact hno _ _ (hmono _ _ (hfit.2 0 (Nat.succ_pos _)))
    rw [hleft, hprod]
    obtain ⟨hc', hrow', hmono'⟩ := hc.addDot hi hrow (by omega) hfirst
    exact ⟨hc', hrow', fun n key h => hmono' n key (hmono n key h)⟩

theorem RowsFit.addRow {g : Numbered} {k : Nat} {s : RowState}
    {e : Nat × Option Nat × Production} (hs : RowsFit g k s)
    (he : (allProductions g)[k]? = some e) : RowsFit g (k + 1) (addRow g s e) := by
  have hprod := (mem_allProductions he).2.2.1
  have hloop := hs.dotLoop he
  obtain ⟨i, construct, p⟩ := e
  unfold Grammar.addRow
  dsimp only at hprod hloop ⊢
  generalize (List.range _).foldl _ _ = t at hloop ⊢
  obtain ⟨row, known, items⟩ := t
  obtain ⟨hc, hrow, hmono⟩ := hloop
  dsimp only at hc hrow hmono ⊢
  refine ⟨hc, ?_, ?_⟩
  · rw [Array.size_push, hs.size]
  · intro j f hj hf
    rw [Array.getD_eq_getD_getElem?, Array.getElem?_push, hs.size]
    split
    · next hjk =>
      rw [hjk, he] at hf
      cases hf
      rw [hprod] at hrow
      exact hrow
    · have hold := hs.table j f (by omega) hf
      rw [Array.getD_eq_getD_getElem?] at hold
      exact ⟨hold.1, fun dot hdot => hmono _ _ (hold.2 dot hdot)⟩

theorem rowsFit (g : Numbered) : RowsFit g (allProductions g).length (collected g) := by
  refine foldl_index ⟨⟨?_, ?_, ?_⟩, rfl, ?_⟩ fun k s e he hs => hs.addRow he
  · intro bucket kn hkn
    rw [Array.getD_eq_getD_getElem?, Array.getElem?_replicate] at hkn
    split at hkn <;> cases hkn
  · intro n it hit
    cases hit
  · intro it hit
    cases hit
  · intro k e hk
    cases hk

/-! ## All items -/

/-- Looking up a production with a dot gives an item with its key. -/
theorem hasKey_itemAt {g : Numbered} {i dot : Nat} (hi : i ≤ g.productions.size)
    (hdot : dot ≤ (g.production i).slots.size) :
    HasKey g (collected g).2.2 (itemAt g i dot) (g.keyAt i dot) := by
  have hrow : ∀ k c p, (allProductions g)[k]? = some (i, c, p) →
      HasKey g (collected g).2.2 (((collected g).1.getD k #[]).getD dot 0) (g.keyAt i dot) := by
    intro k c p hk
    have hlt : k < (allProductions g).length := (List.getElem?_eq_some_iff.1 hk).1
    exact ((rowsFit g).table k _ hlt hk).2 dot (by simp only; omega)
  unfold itemAt
  split
  · next heq => exact hrow 0 none wholeText (by rw [heq]; rfl)
  · next hne =>
    have hlt : i < g.productions.size := by omega
    refine hrow (i + 1) (some g.productions[i].construct) g.productions[i] ?_
    rw [allProductions, List.getElem?_cons_succ, List.getElem?_mapIdx, Array.getElem?_toList,
      Array.getElem?_eq_getElem hlt]
    rfl

/-- What is known of all items of a grammar. -/
structure Numbered.ItemsHold (g : Numbered) : Prop where
  faithful : ∀ (n : Nat) (it : Item), g.items.items[n]? = some it → it.Faithful g
  first : ∀ it : Item, g.items.items[0]? = some it → it.construct = none ∧ it.dot = 0
  /-- Moving the dot over a symbol. -/
  successor : ∀ (n : Nat) (it : Item) (X : Sym), g.items.items[n]? = some it →
    it.next = some X → HasKey g g.items.items (g.items.successor.getD n 0)
      (g.keyAt it.production (it.dot + 1))
  /-- The items in front of the productions of a construct. -/
  opening : ∀ c n, n ∈ g.items.openings.getD c [] →
    ∃ it : Item, g.items.items[n]? = some it ∧ it.dot = 0 ∧ it.construct ≠ none

theorem Numbered.items_hold (g : Numbered) : g.ItemsHold := by
  have hall := rowsFit g
  have hitems : g.items.items = (collected g).2.2 := by rw [items_eq]
  have hfaithful : ∀ (n : Nat) (it : Item), g.items.items[n]? = some it → it.Faithful g := by
    rw [hitems]
    exact hall.faithful
  -- what the collecting loop has found for each production and each place of the dot
  have hlook : ∀ i dot, i ≤ g.productions.size → dot ≤ (g.production i).slots.size →
      HasKey g g.items.items (itemAt g i dot) (g.keyAt i dot) := by
    rw [hitems]
    exact fun i dot => hasKey_itemAt
  refine ⟨hfaithful, ?_, ?_, ?_⟩
  · rw [hitems]
    exact hall.first
  · -- an item with a symbol behind the dot is not the last one of its production
    intro n it X hit hnext
    have hf := hfaithful n it hit
    have hdot : it.dot < (g.production it.production).slots.size := by
      rw [hf.next] at hnext
      obtain ⟨slot, hslot, -⟩ := Option.map_eq_some_iff.1 hnext
      exact (Array.getElem?_eq_some_iff.1 hslot).1
    have hsucc : g.items.successor.getD n 0 = itemAt g it.production (it.dot + 1) := by
      rw [items_eq, Array.getD_eq_getD_getElem?, Array.getElem?_map, ← hitems, hit]
      rfl
    rw [hsucc]
    exact hlook _ _ hf.production_le hdot
  · -- the openings of a construct are the items of its productions with the dot in front
    intro c n hn
    rw [items_eq, Array.getD_eq_getD_getElem?, Array.getElem?_mapIdx] at hn
    cases hc : g.constructs[c]? with
    | none => rw [hc] at hn; cases hn
    | some construct =>
      rw [hc, Option.map_some, Option.getD_some] at hn
      obtain ⟨i, hi, rfl⟩ := List.mem_map.1 hn
      have hlt : i < g.productions.size := List.mem_range.1 (List.mem_filter.1 hi).1
      obtain ⟨it, hit, hkey⟩ := hlook i 0 (Nat.le_of_lt hlt) (Nat.zero_le _)
      refine ⟨it, hit, congrArg ItemKey.dot hkey, ?_⟩
      rw [(hfaithful _ it hit).construct]
      have hleft : g.leftSide? it.production = g.leftSide? i := congrArg ItemKey.construct hkey
      rw [hleft, Numbered.leftSide?, Array.getElem?_eq_getElem hlt]
      exact Option.some_ne_none _

end ScriptInventory.Script.Grammar
