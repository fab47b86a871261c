import Mathlib.Data.List.Destutter
import Mathlib.Data.List.Sort
import Mathlib.Data.String.Basic
import ScriptInventory.GlobalScope
import ScriptInventory.Proofs.Names

/-!
# Snapshots of the global scope

A snapshot sorts names and then leaves one of several equal neighbours, which leaves one of
several equal names only because the names are sorted first. Main statement: the two lists of a
snapshot hold exactly the names that occur with and without calls, in strict order of their code
points; they depend on which bindings there are and on nothing else; and an inventory takes them
over as they are (`GlobalSnapshot.ofBindings_lists_names`).

* `precedes_iff_lt`: the order of names is that of their code points.
* `mem_sortedNames`, `pairwise_sortedNames`, `sortedNames_congr`: what sorting names gives.
-/

namespace ScriptInventory

/-! ## Code points -/

/-- The numbers of the characters of a name. -/
def codePoints (name : String) : List Nat := name.toList.map Char.toNat

/-- A name comes before another one if, where they first differ, its code point is smaller or it
has ended. -/
def Precedes (a b : String) : Prop := codePoints a < codePoints b

theorem map_toNat_lt_iff (a b : List Char) : a.map Char.toNat < b.map Char.toNat ↔ a < b := by
  induction a generalizing b with
  | nil => cases b <;> simp
  | cons c a ih =>
    cases b with
    | nil => simp
    | cons d b =>
      rw [List.map_cons, List.map_cons, List.cons_lt_cons_iff, List.cons_lt_cons_iff, ih,
        Char.toNat_inj]
      rfl

theorem precedes_iff_lt {a b : String} : Precedes a b ↔ a < b := by
  rw [Precedes, codePoints, codePoints, map_toNat_lt_iff, String.lt_iff_toList_lt]

/-! ## Sorted names -/

/-- Leaving one of several equal neighbours. -/
theorem withoutRepeats_cons (a : String) (names : List String) :
    withoutRepeats (a :: names) = names.destutter' (· ≠ ·) a := by
  induction names generalizing a with
  | nil => rfl
  | cons b rest ih =>
    rw [withoutRepeats, ih b]
    by_cases h : a = b
    · rw [if_pos h, List.destutter'_cons_neg rest (by simpa using h), h]
    · rw [if_neg h, List.destutter'_cons_pos rest h]

theorem withoutRepeats_eq_dedup {names : List String} (h : names.Pairwise (· ≤ ·)) :
    withoutRepeats names = names.dedup := by
  rw [← h.destutter_eq_dedup]
  cases names with
  | nil => rfl
  | cons a rest => exact withoutRepeats_cons a rest

theorem pairwise_le_mergeSort (names : List String) :
    (names.mergeSort fun a b => decide (a ≤ b)).Pairwise (· ≤ ·) := by
  have hsorted : (names.mergeSort fun a b => decide (a ≤ b)).Pairwise
      fun a b => decide (a ≤ b) = true :=
    List.pairwise_mergeSort (fun a b c => by simpa using le_trans)
      (fun a b => by simpa using le_total a b) names
  simpa using hsorted

theorem sortedNames_eq (names : List String) :
    sortedNames names = (names.mergeSort fun a b => decide (a ≤ b)).dedup :=
  withoutRepeats_eq_dedup (pairwise_le_mergeSort names)

/-- No name is lost and none is made up. -/
@[simp] theorem mem_sortedNames {names : List String} {name : String} :
    name ∈ sortedNames names ↔ name ∈ names := by
  rw [sortedNames_eq, List.mem_dedup, List.mem_mergeSort]

/-- Sorted names increase strictly. -/
theorem pairwise_sortedNames (names : List String) : (sortedNames names).Pairwise (· < ·) := by
  rw [sortedNames_eq]
  have hle := (pairwise_le_mergeSort names).sublist (List.dedup_sublist _)
  refine (hle.and (List.nodup_dedup _)).imp ?_
  rintro a b ⟨hab, hne⟩
  exact lt_of_le_of_ne hab hne

theorem nodup_sortedNames (names : List String) : (sortedNames names).Nodup :=
  (pairwise_sortedNames names).imp ne_of_lt

/-- Sorted names depend on which names there are, and not on their order and number. -/
theorem sortedNames_congr {names others : List String} (h : ∀ name, name ∈ names ↔ name ∈ others) :
    sortedNames names = sortedNames others := by
  apply (pairwise_sortedNames names).eq_of_mem_iff (pairwise_sortedNames others)
  intro name
  rw [mem_sortedNames, mem_sortedNames, h]

/-- Names that increase strictly are sorted. -/
theorem sortedNames_of_pairwise {names : List String} (h : names.Pairwise (· < ·)) :
    sortedNames names = names := by
  apply (pairwise_sortedNames names).eq_of_mem_iff h
  exact fun _ => mem_sortedNames

namespace GlobalSnapshot

/-! ## Lists of a snapshot -/

/-- One of the two lists, as it is made from the bindings of one sort. -/
theorem mem_sortedNames_filter {p : GlobalBinding → Bool} {callable : Bool}
    (hp : ∀ b, p b = true ↔ b.isCallable = callable) {bindings : List GlobalBinding}
    {name : String} :
    name ∈ sortedNames ((bindings.filter p).map GlobalBinding.name) ↔
      ⟨name, callable⟩ ∈ bindings := by
  rw [mem_sortedNames, List.mem_map]
  constructor
  · rintro ⟨b, hb, rfl⟩
    obtain ⟨hmem, hcallable⟩ := List.mem_filter.1 hb
    rw [← (hp b).1 hcallable]
    exact hmem
  · intro h
    exact ⟨⟨name, callable⟩, List.mem_filter.2 ⟨h, (hp _).2 rfl⟩, rfl⟩

theorem mem_functions_ofBindings {bindings : List GlobalBinding} {name : String} :
    name ∈ (ofBindings bindings).functions ↔ ⟨name, true⟩ ∈ bindings :=
  mem_sortedNames_filter fun _ => Iff.rfl

theorem mem_variables_ofBindings {bindings : List GlobalBinding} {name : String} :
    name ∈ (ofBindings bindings).variables ↔ ⟨name, false⟩ ∈ bindings :=
  mem_sortedNames_filter fun b => by simp

/-- A snapshot depends on which bindings there are. -/
theorem ofBindings_congr {bindings others : List GlobalBinding}
    (h : ∀ b, b ∈ others ↔ b ∈ bindings) : ofBindings others = ofBindings bindings := by
  unfold ofBindings
  congr 1
  all_goals
    apply sortedNames_congr
    intro name
    simp only [List.mem_map, List.mem_filter, h]

/-- An inventory of a snapshot has its names and no others. -/
theorem toList_toInventory {s : GlobalSnapshot} (hfunctions : s.functions.Nodup)
    (hvariables : s.variables.Nodup) (k : SymbolKind) :
    (s.toInventory.names k).toList =
      match k with
      | .function => s.functions
      | .variable => s.variables
      | .class | .method | .property => [] := by
  have hempty : ((Inventory.empty .globalScope).names k).toList = [] := by
    cases k <;> rfl
  rw [toInventory, Inventory.toList_recordAll, Inventory.toList_recordAll,
    firstOccurrences_append_left, hempty, List.nil_append]
  cases k with
  | function => simpa using firstOccurrences_of_nodup hfunctions
  | «variable» => simpa using firstOccurrences_of_nodup hvariables
  | «class» => rfl
  | method => rfl
  | property => rfl

end GlobalSnapshot

namespace TypeSnapshot

/-- The keys of a snapshot with sorts of values. -/
def keys (s : TypeSnapshot) : List String := s.types.entries.map Prod.fst

theorem pairwise_keys (s : TypeSnapshot) : s.keys.Pairwise (· < ·) :=
  List.pairwise_map.2 s.types.sorted

/-- Each key is in one of the two lists, once. -/
theorem perm_keys (s : TypeSnapshot) :
    ((GlobalSnapshot.ofBindings s.bindings).functions ++
      (GlobalSnapshot.ofBindings s.bindings).variables).Perm s.keys := by
  have hnames : s.bindings.map GlobalBinding.name = s.keys := by
    simp [bindings, keys]
  have hsorted : (s.bindings.map GlobalBinding.name).Pairwise (· < ·) := hnames ▸ s.pairwise_keys
  -- the bindings are in order already, so that sorting changes nothing
  have hpart : ∀ p : GlobalBinding → Bool,
      sortedNames ((s.bindings.filter p).map GlobalBinding.name) =
        (s.bindings.filter p).map GlobalBinding.name := fun p =>
    sortedNames_of_pairwise (hsorted.sublist (List.filter_sublist.map _))
  rw [GlobalSnapshot.ofBindings, hpart, hpart, ← List.map_append, ← hnames]
  exact (List.filter_append_perm _ _).map _

end TypeSnapshot

namespace GlobalSnapshot

/-- **A snapshot lists the names that occur.** Whatever bindings there are, in whatever order and
with whatever repetitions, the functions of their snapshot are the names that occur as callable,
and the variables are those that occur as not callable, both in strict order of code points; all
lists of the same bindings have the same snapshot. Its inventory is that of the global scope, with
these two lists as they are and nothing else. And if the bindings come from a map of names to
sorts of values, the two lists are disjoint and hold each key once. -/
theorem ofBindings_lists_names (bindings : List GlobalBinding) :
    (ofBindings bindings).functions.Pairwise Precedes ∧
      (∀ name, name ∈ (ofBindings bindings).functions ↔ ⟨name, true⟩ ∈ bindings) ∧
      (ofBindings bindings).variables.Pairwise Precedes ∧
      (∀ name, name ∈ (ofBindings bindings).variables ↔ ⟨name, false⟩ ∈ bindings) ∧
      (∀ others : List GlobalBinding, (∀ b, b ∈ others ↔ b ∈ bindings) →
        ofBindings others = ofBindings bindings) ∧
      (ofBindings bindings).toInventory.source = .globalScope ∧
      (∀ k, ((ofBindings bindings).toInventory.names k).toList =
        match k with
        | .function => (ofBindings bindings).functions
        | .variable => (ofBindings bindings).variables
        | .class | .method | .property => []) ∧
      ∀ s : TypeSnapshot, bindings = s.bindings →
        (ofBindings bindings).functions.Disjoint (ofBindings bindings).variables ∧
          ((ofBindings bindings).functions ++ (ofBindings bindings).variables).Perm s.keys := by
  refine ⟨?_, fun _ => mem_functions_ofBindings, ?_, fun _ => mem_variables_ofBindings,
    fun _ h => ofBindings_congr h, ?_, ?_, ?_⟩
  · exact (pairwise_sortedNames _).imp precedes_iff_lt.2
  · exact (pairwise_sortedNames _).imp precedes_iff_lt.2
  · rw [toInventory, Inventory.source_recordAll, Inventory.source_recordAll]
    rfl
  · exact toList_toInventory (nodup_sortedNames _) (nodup_sortedNames _)
  · rintro s rfl
    have hperm := s.perm_keys
    have hnodup : s.keys.Nodup := s.pairwise_keys.imp ne_of_lt
    exact ⟨List.disjoint_of_nodup_append (hperm.nodup_iff.2 hnodup), hperm⟩

/-- Four names with the sorts of their values. -/
def fourTypes : TypeSnapshot :=
  ⟨.ofList [("setTimeout", "function"), ("name", "string"), ("location", "object"),
    ("Foo", "function")]⟩

/-- The bindings of the four names, backwards and with repetitions. -/
def fourBindings : List GlobalBinding :=
  fourTypes.bindings.reverse ++ fourTypes.bindings

/-- Capital letters come first, and repetitions do not count. -/
theorem ofBindings_fourTypes :
    (ofBindings fourTypes.bindings).functions = ["Foo", "setTimeout"] ∧
      (ofBindings fourTypes.bindings).variables = ["location", "name"] ∧
      ofBindings fourBindings = ofBindings fourTypes.bindings ∧
      ((ofBindings fourTypes.bindings).toInventory.names .function).toList =
        ["Foo", "setTimeout"] ∧
      ((ofBindings fourTypes.bindings).functions ++
        (ofBindings fourTypes.bindings).variables).Perm
          ["Foo", "location", "name", "setTimeout"] := by
  have hbindings : fourTypes.bindings =
      [⟨"Foo", true⟩, ⟨"location", false⟩, ⟨"name", false⟩, ⟨"setTimeout", true⟩] := by
    decide +kernel
  have hlists : ofBindings fourTypes.bindings =
      ⟨["Foo", "setTimeout"], ["location", "name"]⟩ := by
    rw [hbindings]
    show (⟨sortedNames ["Foo", "setTimeout"], sortedNames ["location", "name"]⟩ :
      GlobalSnapshot) = _
    rw [sortedNames_of_pairwise (by decide), sortedNames_of_pairwise (by decide)]
  obtain ⟨-, -, -, -, hcongr, -, hinventory, htypes⟩ := ofBindings_lists_names fourTypes.bindings
  have hsame : ∀ b, b ∈ fourBindings ↔ b ∈ fourTypes.bindings := by
    simp [fourBindings]
  have hkeys : fourTypes.keys = ["Foo", "location", "name", "setTimeout"] := by decide +kernel
  refine ⟨by rw [hlists], by rw [hlists], hcongr _ hsame, ?_, hkeys ▸ (htypes fourTypes rfl).2⟩
  rw [hinventory .function, hlists]

end GlobalSnapshot

end ScriptInventory
