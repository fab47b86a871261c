import ScriptInventory.Proofs.Names

/-!
# Runs of updates on a corpus

A corpus grows by updates: an inventory is merged, or a failure is recorded. Main
statement: after any run of updates, in whatever order, the corpus holds the first
occurrences of the merged names of each kind, counts the inventories, and lists the
failures; and merging an inventory once more changes nothing but the count
(`Corpus.run_empty_holds_merged`).

* `Corpus.toList_apply`, `Corpus.unitsMerged_apply`, `Corpus.failures_apply`: what one
  update does.
* `Corpus.toList_run`, `Corpus.unitsMerged_run`, `Corpus.failures_run`: what a run does,
  whatever the corpus held before.
* `Corpus.merge_of_subset`: an inventory without new names only counts.
-/

namespace ScriptInventory

namespace Corpus

/-- One change to a corpus. -/
inductive Update where
  | merge (inventory : Inventory)
  | failure (failure : UnitFailure)

namespace Update

/-- The inventory that an update merges. -/
def inventory? : Update → Option Inventory
  | .merge i => some i
  | .failure _ => none

/-- The failure that an update records. -/
def failure? : Update → Option UnitFailure
  | .merge _ => none
  | .failure f => some f

end Update

/-- The inventories that are merged in a run, in order. -/
def merged (updates : List Update) : List Inventory := updates.filterMap Update.inventory?

/-- The failures that are recorded in a run, in order. -/
def recorded (updates : List Update) : List UnitFailure := updates.filterMap Update.failure?

/-- The names of a kind in several inventories, one after the other. -/
def namesOf (k : SymbolKind) (inventories : List Inventory) : List String :=
  inventories.flatMap fun i => (i.names k).toList

def apply (c : Corpus) : Update → Corpus
  | .merge i => c.merge i
  | .failure f => c.recordFailure f.source f.error

/-- Makes some changes, one after the other. -/
def run (c : Corpus) (updates : List Update) : Corpus := updates.foldl apply c

@[simp] theorem run_nil (c : Corpus) : c.run [] = c := rfl

@[simp] theorem run_cons (c : Corpus) (u : Update) (rest : List Update) :
    c.run (u :: rest) = (c.apply u).run rest := rfl

theorem run_append (c : Corpus) (front back : List Update) :
    c.run (front ++ back) = (c.run front).run back :=
  List.foldl_append

theorem merged_cons (u : Update) (rest : List Update) :
    merged (u :: rest) = u.inventory?.toList ++ merged rest := by
  cases u <;> rfl

theorem recorded_cons (u : Update) (rest : List Update) :
    recorded (u :: rest) = u.failure?.toList ++ recorded rest := by
  cases u <;> rfl

theorem mem_merged {updates : List Update} {i : Inventory} :
    i ∈ merged updates ↔ .merge i ∈ updates := by
  rw [merged, List.mem_filterMap]
  constructor
  · rintro ⟨u, hu, hui⟩
    cases u with
    | merge j =>
      cases hui
      exact hu
    | failure f => cases hui
  · intro h
    exact ⟨_, h, rfl⟩

theorem mem_recorded {updates : List Update} {f : UnitFailure} :
    f ∈ recorded updates ↔ .failure f ∈ updates := by
  rw [recorded, List.mem_filterMap]
  constructor
  · rintro ⟨u, hu, huf⟩
    cases u with
    | merge i => cases huf
    | failure g =>
      cases huf
      exact hu
  · intro h
    exact ⟨_, h, rfl⟩

theorem namesOf_append (k : SymbolKind) (a b : List Inventory) :
    namesOf k (a ++ b) = namesOf k a ++ namesOf k b :=
  List.flatMap_append

theorem mem_namesOf {k : SymbolKind} {inventories : List Inventory} {name : String} :
    name ∈ namesOf k inventories ↔ ∃ i ∈ inventories, name ∈ (i.names k).toList :=
  List.mem_flatMap

/-! ## One update -/

/-- An update adds the names of each kind that its inventory has of that kind; a failure
adds none. -/
theorem toList_apply (c : Corpus) (u : Update) (k : SymbolKind) :
    ((c.apply u).names k).toList =
      firstOccurrences ((c.names k).toList ++ namesOf k u.inventory?.toList) := by
  cases u with
  | merge i =>
    rw [apply, names_merge, OrderedNames.toList_extend]
    simp [namesOf, Update.inventory?]
  | failure f =>
    rw [apply, names_recordFailure]
    simp [namesOf, Update.inventory?, firstOccurrences_of_nodup (c.names k).nodup]

theorem unitsMerged_apply (c : Corpus) (u : Update) :
    (c.apply u).unitsMerged = c.unitsMerged + u.inventory?.toList.length := by
  cases u <;> rfl

theorem failures_apply (c : Corpus) (u : Update) :
    (c.apply u).failures = c.failures ++ u.failure?.toList := by
  cases u with
  | merge i => exact (List.append_nil _).symm
  | failure f => rfl

/-! ## Runs -/

/-- A run adds the merged names of each kind. -/
theorem toList_run (c : Corpus) (updates : List Update) (k : SymbolKind) :
    ((c.run updates).names k).toList =
      firstOccurrences ((c.names k).toList ++ namesOf k (merged updates)) := by
  induction updates generalizing c with
  | nil => simp [merged, namesOf, firstOccurrences_of_nodup (c.names k).nodup]
  | cons u rest ih =>
    rw [run_cons, ih, toList_apply, firstOccurrences_append_left, List.append_assoc,
      merged_cons, namesOf_append]

theorem unitsMerged_run (c : Corpus) (updates : List Update) :
    (c.run updates).unitsMerged = c.unitsMerged + (merged updates).length := by
  induction updates generalizing c with
  | nil => rfl
  | cons u rest ih =>
    rw [run_cons, ih, unitsMerged_apply, merged_cons, List.length_append]
    omega

theorem failures_run (c : Corpus) (updates : List Update) :
    (c.run updates).failures = c.failures ++ recorded updates := by
  induction updates generalizing c with
  | nil => simp [recorded]
  | cons u rest ih => rw [run_cons, ih, failures_apply, recorded_cons, List.append_assoc]

/-! ## Repeated inventories -/

/-- A corpus is known by its names, its count and its failures. -/
theorem ext_names {c d : Corpus} (hnames : ∀ k, c.names k = d.names k)
    (hunits : c.unitsMerged = d.unitsMerged) (hfailures : c.failures = d.failures) : c = d := by
  have hclasses := hnames .class
  have hmethods := hnames .method
  have hproperties := hnames .property
  have hfunctions := hnames .function
  have hvariables := hnames .variable
  cases c
  cases d
  simp only [names] at *
  simp only [*]

/-- An inventory whose names are all there changes nothing but the count. -/
theorem merge_of_subset {c : Corpus} {i : Inventory}
    (h : ∀ k, ∀ name ∈ (i.names k).toList, name ∈ (c.names k).toList) :
    c.merge i = { c with unitsMerged := c.unitsMerged + 1 } := by
  apply ext_names
  · intro k
    have hcount : Corpus.names { c with unitsMerged := c.unitsMerged + 1 } k = c.names k := by
      cases k <;> rfl
    rw [names_merge, OrderedNames.extend_of_subset (h k), hcount]
  · rfl
  · rfl

theorem totalSymbols_eq (c : Corpus) :
    c.totalSymbols = c.classes.toList.length + c.methods.toList.length +
      c.properties.toList.length + c.functions.toList.length +
      c.variables.toList.length := by
  simp [totalSymbols, SymbolKind.all, names, OrderedNames.size]

/-! ## Runs from the beginning -/

theorem toList_run_empty (updates : List Update) (k : SymbolKind) :
    ((empty.run updates).names k).toList = firstOccurrences (namesOf k (merged updates)) := by
  have hempty : (empty.names k).toList = [] := by cases k <;> rfl
  rw [toList_run, hempty, List.nil_append]

/-- **A corpus holds what was merged into it.** After any run of updates, the names of a
kind are the first occurrences of the merged names of that kind, in the order of the run:
none is there twice, none is lost, none comes from another kind, and failures play no
part. The inventories are counted and the failures listed in order. The symbols are
counted over the five kinds. And an inventory that was merged before can be merged again
without a change to anything but the count. -/
theorem run_empty_holds_merged (updates : List Update) :
    (∀ k, ((empty.run updates).names k).toList =
        firstOccurrences (namesOf k (merged updates))) ∧
      (∀ k, ((empty.run updates).names k).toList.Nodup) ∧
      (∀ k name, name ∈ ((empty.run updates).names k).toList ↔
        ∃ i, .merge i ∈ updates ∧ name ∈ (i.names k).toList) ∧
      (∀ others, merged others = merged updates →
        ∀ k, (empty.run others).names k = (empty.run updates).names k) ∧
      (empty.run updates).unitsMerged = (merged updates).length ∧
      (empty.run updates).failures = recorded updates ∧
      (empty.run updates).totalSymbols =
        (empty.run updates).classes.toList.length +
          (empty.run updates).methods.toList.length +
          (empty.run updates).properties.toList.length +
          (empty.run updates).functions.toList.length +
          (empty.run updates).variables.toList.length ∧
      ∀ i, .merge i ∈ updates →
        empty.run (updates ++ [.merge i]) =
          { empty.run updates with
            unitsMerged := (empty.run updates).unitsMerged + 1 } := by
  -- where a name comes from, which the last part needs as well
  have hmem : ∀ k name, name ∈ ((empty.run updates).names k).toList ↔
      ∃ i, .merge i ∈ updates ∧ name ∈ (i.names k).toList := by
    intro k name
    rw [toList_run_empty, mem_firstOccurrences, mem_namesOf]
    simp only [mem_merged]
  refine ⟨toList_run_empty updates, fun k => OrderedNames.nodup _, hmem, ?_, ?_, ?_,
    totalSymbols_eq _, ?_⟩
  · intro others hothers k
    apply OrderedNames.ext_toList
    rw [toList_run_empty, toList_run_empty, hothers]
  · rw [unitsMerged_run]
    exact Nat.zero_add _
  · rw [failures_run]
    exact List.nil_append _
  · -- all names of `i` are there already
    intro i hi
    rw [run_append, run_cons, run_nil, apply]
    apply merge_of_subset
    intro k name hname
    exact (hmem k name).2 ⟨i, hi, hname⟩

/-- Names of two kinds, an overlap and a failure in between. -/
example : ((empty.run [.merge ((Inventory.empty .inline).recordAll .class ["b", "a"]),
      .failure ⟨.inline, "no script"⟩,
      .merge (((Inventory.empty .inline).record .class "c").recordAll .class ["a", "d"])]).names
    .class).toList = ["b", "a", "c", "d"] := by
  decide

end Corpus

end ScriptInventory
