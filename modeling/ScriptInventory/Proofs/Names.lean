import Mathlib.Data.List.Induction
import ScriptInventory.Corpus

/-!
# Laws of first occurrences

What the operations on collections of names do to the plain list of the names:

* adding names one after the other keeps the first occurrences of all that were
  ever added (`OrderedNames.toList_insertAll`);
* taking first occurrences early changes nothing (`firstOccurrences_append_left`,
  `firstOccurrences_append_right`);
* recording in an inventory touches one kind only (`Inventory.toList_recordAll`).
-/

namespace ScriptInventory

/-- One step of `firstOccurrences`. -/
def appendNew (seen : List String) (name : String) : List String :=
  if name ∈ seen then seen else seen ++ [name]

theorem firstOccurrences_eq_foldl (names : List String) :
    firstOccurrences names = names.foldl appendNew [] := rfl

theorem firstOccurrences_append (a b : List String) :
    firstOccurrences (a ++ b) = b.foldl appendNew (firstOccurrences a) := by
  simp only [firstOccurrences_eq_foldl, List.foldl_append]

theorem mem_appendNew {seen : List String} {name x : String} :
    x ∈ appendNew seen name ↔ x ∈ seen ∨ x = name := by
  unfold appendNew
  by_cases h : name ∈ seen
  · rw [if_pos h]
    constructor
    · exact .inl
    · rintro (hx | rfl)
      · exact hx
      · exact h
  · rw [if_neg h]
    simp

theorem mem_foldl_appendNew {seen names : List String} {x : String} :
    x ∈ names.foldl appendNew seen ↔ x ∈ seen ∨ x ∈ names := by
  induction names generalizing seen with
  | nil => simp
  | cons name rest ih =>
    rw [List.foldl_cons, ih, mem_appendNew, List.mem_cons, or_assoc]

/-- No name is lost and none is made up. -/
@[simp] theorem mem_firstOccurrences {names : List String} {x : String} :
    x ∈ firstOccurrences names ↔ x ∈ names := by
  simp [firstOccurrences_eq_foldl, mem_foldl_appendNew]

/-- A list without repetition is its own list of first occurrences, behind names that
it does not share. -/
theorem foldl_appendNew_of_nodup {seen names : List String} (hnd : names.Nodup)
    (hnew : ∀ x ∈ names, x ∉ seen) : names.foldl appendNew seen = seen ++ names := by
  induction names generalizing seen with
  | nil => simp
  | cons name rest ih =>
    obtain ⟨hname, hrest⟩ := List.nodup_cons.1 hnd
    have hstep : appendNew seen name = seen ++ [name] :=
      if_neg (hnew name List.mem_cons_self)
    rw [List.foldl_cons, hstep, ih hrest]
    · simp
    · intro x hx hseen
      rcases List.mem_append.1 hseen with hs | hs
      · exact hnew x (List.mem_cons_of_mem _ hx) hs
      · exact hname (List.mem_singleton.1 hs ▸ hx)

theorem firstOccurrences_of_nodup {names : List String} (h : names.Nodup) :
    firstOccurrences names = names := by
  rw [firstOccurrences_eq_foldl, foldl_appendNew_of_nodup h (by simp), List.nil_append]

/-- Adding the first occurrences of names is adding the names. -/
theorem foldl_appendNew_firstOccurrences (seen names : List String) :
    (firstOccurrences names).foldl appendNew seen = names.foldl appendNew seen := by
  -- from the back, where the last name is dropped or kept
  induction names using List.reverseRecOn generalizing seen with
  | nil => rfl
  | append_singleton names name ih =>
    rw [firstOccurrences_append, List.foldl_cons, List.foldl_nil, List.foldl_append,
      ← ih seen, List.foldl_cons, List.foldl_nil]
    by_cases h : name ∈ names
    · have hdone : appendNew (firstOccurrences names) name = firstOccurrences names :=
        if_pos (mem_firstOccurrences.2 h)
      have hseen : name ∈ (firstOccurrences names).foldl appendNew seen :=
        mem_foldl_appendNew.2 (.inr (mem_firstOccurrences.2 h))
      rw [hdone]
      exact (if_pos hseen).symm
    · have hnew : appendNew (firstOccurrences names) name = firstOccurrences names ++ [name] :=
        if_neg (by simpa using h)
      rw [hnew, List.foldl_append, List.foldl_cons, List.foldl_nil]

theorem firstOccurrences_append_right (a b : List String) :
    firstOccurrences (a ++ firstOccurrences b) = firstOccurrences (a ++ b) := by
  rw [firstOccurrences_append, firstOccurrences_append, foldl_appendNew_firstOccurrences]

theorem firstOccurrences_append_left (a b : List String) :
    firstOccurrences (firstOccurrences a ++ b) = firstOccurrences (a ++ b) := by
  have hidem : firstOccurrences (firstOccurrences a) = firstOccurrences a := by
    simpa using firstOccurrences_append_right [] a
  rw [firstOccurrences_append, firstOccurrences_append, hidem]

/-- The names are looked for among those in front, which is how repeats are erased. -/
theorem firstOccurrences_eq_eraseDups (names : List String) :
    firstOccurrences names = names.eraseDups := by
  induction names using List.reverseRecOn with
  | nil => rfl
  | append_singleton names name ih =>
    rw [firstOccurrences_append, List.foldl_cons, List.foldl_nil, appendNew, ih,
      List.eraseDups_append, List.removeAll]
    by_cases h : name ∈ names
    · have hseen : name ∈ names.eraseDups := List.mem_eraseDups.2 h
      simp [h, hseen]
    · have hnew : name ∉ names.eraseDups := mt List.mem_eraseDups.1 h
      simp [h, hnew, List.eraseDups_cons]

namespace OrderedNames

/-- Collections are equal if they list the same names in the same order. -/
theorem ext_toList {a b : OrderedNames} (h : a.toList = b.toList) : a = b := by
  cases a
  cases b
  cases h
  rfl

theorem toList_insert_eq (names : OrderedNames) (name : String) :
    (names.insert name).toList = appendNew names.toList name :=
  names.toList_insert name

/-- A collection holds the first occurrences of all that was added to it. -/
theorem toList_insertAll (names : OrderedNames) (more : List String) :
    (names.insertAll more).toList = firstOccurrences (names.toList ++ more) := by
  rw [firstOccurrences_append, firstOccurrences_of_nodup names.nodup]
  induction more generalizing names with
  | nil => rfl
  | cons name rest ih => rw [insertAll_cons, ih, toList_insert_eq, List.foldl_cons]

theorem toList_ofList (names : List String) :
    (ofList names).toList = firstOccurrences names :=
  toList_insertAll empty names

theorem toList_extend (a b : OrderedNames) :
    (a.extend b).toList = firstOccurrences (a.toList ++ b.toList) :=
  toList_insertAll a b.toList

theorem insert_of_mem {names : OrderedNames} {name : String} (h : name ∈ names.toList) :
    names.insert name = names := by
  apply ext_toList
  rw [toList_insert, if_pos h]

/-- Adding what is there changes nothing. -/
theorem extend_of_subset {names more : OrderedNames}
    (h : ∀ name ∈ more.toList, name ∈ names.toList) : names.extend more = names := by
  have hall : ∀ l : List String, (∀ name ∈ l, name ∈ names.toList) →
      names.insertAll l = names := by
    intro l hl
    induction l with
    | nil => rfl
    | cons name rest ih =>
      have hname : name ∈ names.toList := hl name List.mem_cons_self
      have hrest : ∀ other ∈ rest, other ∈ names.toList := fun other hother =>
        hl other (List.mem_cons_of_mem _ hother)
      rw [insertAll_cons, insert_of_mem hname, ih hrest]
  exact hall more.toList h

end OrderedNames

namespace Inventory

@[simp] theorem source_recordAll (i : Inventory) (k : SymbolKind) (names : List String) :
    (i.recordAll k names).source = i.source := by
  unfold recordAll
  induction names generalizing i with
  | nil => rfl
  | cons name rest ih => rw [List.foldl_cons, ih, source_record]

/-- Recording names adds them to their own kind and leaves the others alone. -/
theorem toList_recordAll (i : Inventory) (k l : SymbolKind) (names : List String) :
    ((i.recordAll k names).names l).toList =
      firstOccurrences ((i.names l).toList ++ if k = l then names else []) := by
  have hfold : (i.recordAll k names).names l =
      if k = l then (i.names l).insertAll names else i.names l := by
    unfold recordAll
    induction names generalizing i with
    | nil => simp
    | cons name rest ih =>
      rw [List.foldl_cons, ih, names_record]
      by_cases h : k = l <;> simp [h]
  rw [hfold]
  by_cases h : k = l
  · simp [h, OrderedNames.toList_insertAll]
  · simp [h, firstOccurrences_of_nodup (i.names l).nodup]

end Inventory

end ScriptInventory
