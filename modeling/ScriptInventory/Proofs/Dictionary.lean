import Mathlib.Data.List.Induction
import Mathlib.Data.List.Sort
import Mathlib.Data.String.Basic
import ScriptInventory.Dictionary

/-!
# Values of names

What a dictionary gives to a name: the value that was set last (`get?_insert`,
`get?_ofList`). A dictionary is known by the values that it gives (`eq_of_get?`).
-/

namespace ScriptInventory

variable {α : Type}

theorem find?_insertEntry (key : String) (value : α) (entries : List (String × α))
    (name : String) :
    ((insertEntry key value entries).find? fun e => e.1 = name).map Prod.snd =
      if name = key then some value else (entries.find? fun e => e.1 = name).map Prod.snd := by
  induction entries with
  | nil => by_cases h : name = key <;> simp [insertEntry, h, Ne.symm]
  | cons first rest ih =>
    obtain ⟨k, v⟩ := first
    rw [insertEntry]
    split
    · by_cases h : name = key <;> simp [h, eq_comm]
    · next hle =>
      split
      · next hlt =>
        have hne : k ≠ key := by
          rintro rfl
          exact String.lt_irrefl _ hlt
        by_cases hk : k = name
        · subst hk
          simp [hne]
        · simp [hk, ih]
      · next hge =>
        obtain rfl : key = k :=
          String.le_antisymm (String.not_lt.1 hge) (String.not_lt.1 hle)
        by_cases h : key = name
        · simp [h]
        · simp [h, Ne.symm h]

namespace Dictionary

variable {d e : Dictionary α}

/-- Setting the value of a name sets that value and no other. -/
theorem get?_insert (d : Dictionary α) (key : String) (value : α) (name : String) :
    (d.insert key value).get? name = if name = key then some value else d.get? name :=
  find?_insertEntry key value d.entries name

/-- Of some entries, the last one of a name counts. -/
theorem get?_ofList (entries : List (String × α)) (name : String) :
    (ofList entries).get? name = entries.reverse.lookup name := by
  induction entries using List.reverseRecOn with
  | nil => rfl
  | append_singleton entries last ih =>
    rw [ofList, List.foldl_append, List.foldl_cons, List.foldl_nil, get?_insert,
      List.reverse_append, List.reverse_singleton, List.singleton_append, List.lookup_cons]
    by_cases h : name = last.1
    · rw [if_pos h, beq_iff_eq.2 h]
    · rw [if_neg h, beq_eq_false_iff_ne.2 h]
      exact ih

/-- Each name has one entry. -/
theorem nodup_names (d : Dictionary α) : (d.entries.map Prod.fst).Nodup := by
  rw [List.Nodup, List.pairwise_map]
  exact d.sorted.imp String.ne_of_lt

theorem mem_entries_iff {name : String} {value : α} :
    (name, value) ∈ d.entries ↔ d.get? name = some value := by
  constructor
  · intro h
    obtain ⟨found, hfind⟩ : ∃ found, d.entries.find? (fun e => e.1 = name) = some found :=
      Option.isSome_iff_exists.1 (List.find?_isSome.2 ⟨_, h, by simp⟩)
    have hname : found.1 = name := by simpa using List.find?_some hfind
    have hfound := List.inj_on_of_nodup_map d.nodup_names (List.mem_of_find?_eq_some hfind) h hname
    rw [get?, hfind, hfound]
    rfl
  · intro h
    obtain ⟨e, he, rfl⟩ := Option.map_eq_some_iff.1 h
    obtain rfl : e.1 = name := by simpa using List.find?_some he
    exact List.mem_of_find?_eq_some he

/-- A dictionary is known by the values of the names. -/
theorem eq_of_get? (h : ∀ name, d.get? name = e.get? name) : d = e := by
  have hentries : d.entries = e.entries := by
    apply d.sorted.eq_of_mem_iff e.sorted
    rintro ⟨name, value⟩
    rw [mem_entries_iff, mem_entries_iff, h]
  cases d
  cases e
  cases hentries
  rfl

end Dictionary

end ScriptInventory
