/-!
# Dictionaries

A dictionary gives values to names. Its entries stand in the order of their names,
and each name has one entry: a value that is set later replaces the one that was
there.
-/

namespace ScriptInventory

/-- Sets the value of a name among entries that are in order. -/
def insertEntry {α : Type} (key : String) (value : α) : List (String × α) → List (String × α)
  | [] => [(key, value)]
  | (k, v) :: rest =>
    if key < k then (key, value) :: (k, v) :: rest
    else if k < key then (k, v) :: insertEntry key value rest
    else (key, value) :: rest

theorem fst_mem_of_mem_insertEntry {α : Type} {key : String} {value : α}
    {entries : List (String × α)} {e : String × α} (h : e ∈ insertEntry key value entries) :
    e.1 = key ∨ ∃ f ∈ entries, f.1 = e.1 := by
  induction entries with
  | nil =>
    simp only [insertEntry, List.mem_singleton] at h
    exact .inl (by rw [h])
  | cons first rest ih =>
    simp only [insertEntry] at h
    split at h
    · rcases List.mem_cons.1 h with h | h
      · exact .inl (by rw [h])
      · exact .inr ⟨e, h, rfl⟩
    · split at h
      · rcases List.mem_cons.1 h with h | h
        · exact .inr ⟨first, List.mem_cons_self, by rw [h]⟩
        · rcases ih h with h | ⟨f, hf, hfe⟩
          · exact .inl h
          · exact .inr ⟨f, List.mem_cons_of_mem _ hf, hfe⟩
      · rcases List.mem_cons.1 h with h | h
        · exact .inl (by rw [h])
        · exact .inr ⟨e, List.mem_cons_of_mem _ h, rfl⟩

theorem pairwise_insertEntry {α : Type} (key : String) (value : α)
    {entries : List (String × α)} (h : entries.Pairwise fun a b => a.1 < b.1) :
    (insertEntry key value entries).Pairwise fun a b => a.1 < b.1 := by
  induction entries with
  | nil => simp [insertEntry]
  | cons first rest ih =>
    have ⟨hfirst, hrest⟩ := List.pairwise_cons.1 h
    simp only [insertEntry]
    split
    · rename_i hlt
      refine List.pairwise_cons.2 ⟨fun e he => ?_, h⟩
      rcases List.mem_cons.1 he with rfl | he
      · exact hlt
      · exact String.lt_trans hlt (hfirst e he)
    · split
      · rename_i hlt
        refine List.pairwise_cons.2 ⟨fun e he => ?_, ih hrest⟩
        rcases fst_mem_of_mem_insertEntry he with he | ⟨f, hf, hfe⟩
        · rw [he]
          exact hlt
        · rw [← hfe]
          exact hfirst f hf
      · rename_i h₁ h₂
        have hk : key = first.1 := String.le_antisymm (String.not_lt.1 h₂) (String.not_lt.1 h₁)
        refine List.pairwise_cons.2 ⟨fun e he => ?_, hrest⟩
        rw [hk]
        exact hfirst e he

/-- Values of names. -/
structure Dictionary (α : Type) where
  entries : List (String × α)
  sorted : entries.Pairwise fun a b => a.1 < b.1

namespace Dictionary

variable {α : Type}

def empty : Dictionary α := ⟨[], .nil⟩

instance : Inhabited (Dictionary α) := ⟨empty⟩

def insert (d : Dictionary α) (key : String) (value : α) : Dictionary α :=
  ⟨insertEntry key value d.entries, pairwise_insertEntry key value d.sorted⟩

/-- The dictionary of some entries, of which later ones replace earlier ones. -/
def ofList (entries : List (String × α)) : Dictionary α :=
  entries.foldl (fun d e => d.insert e.1 e.2) empty

def get? (d : Dictionary α) (key : String) : Option α :=
  (d.entries.find? fun e => e.1 = key).map Prod.snd

end Dictionary

end ScriptInventory
