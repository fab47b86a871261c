import Mathlib.Data.List.Nodup
import Mathlib.Data.List.Perm.Subperm
import Mathlib.Logic.Function.Basic
import ScriptInventory.Proofs.Names

/-!
# Operations on collections of names

A program keeps collections of names: it makes them from lists, adds single names to them,
and adds one to another. Main statement: whatever the program, each collection lists the
names that were given to it where they were given first, and the operations obey the laws of
a union that keeps the order of what is there (`OrderedNames.operations_obey_laws`).

* `Tracks.step`, `Tracks.run`: one operation, and then a whole program, keeps every
  collection in step with the plain list of what it was given.
* `extend_assoc`, `extend_eq_left_iff`: the union, and when it changes nothing.
* `sameMembers_iff_perm`, `sameMembers_insert`, `sameMembers_extend`: equality forgets the
  order, and the operations cannot tell equal collections apart.
-/

namespace ScriptInventory.OrderedNames

/-! ## Members -/

theorem mem_insert {names : OrderedNames} {name other : String} :
    other ∈ (names.insert name).toList ↔ other ∈ names.toList ∨ other = name := by
  rw [toList_insert_eq, mem_appendNew]

theorem mem_extend {a b : OrderedNames} {name : String} :
    name ∈ (a.extend b).toList ↔ name ∈ a.toList ∨ name ∈ b.toList := by
  rw [toList_extend, mem_firstOccurrences, List.mem_append]

/-! ## One name -/

/-- What adding a name to a collection answers and leaves behind. -/
structure Inserts (names : OrderedNames) (name : String) (isNew : Bool)
    (after : OrderedNames) : Prop where
  isNew_iff : isNew = true ↔ name ∉ names.toList
  toList_of_new : isNew = true → after.toList = names.toList ++ [name]
  eq_of_not_new : isNew = false → after = names

theorem inserts_insertIsNew (names : OrderedNames) (name : String) :
    Inserts names name (names.insertIsNew name).1 (names.insertIsNew name).2 := by
  unfold insertIsNew
  split
  · next h =>
    exact
      { isNew_iff := by simpa using h
        toList_of_new := nofun
        eq_of_not_new := fun _ => rfl }
  · next h =>
    have hlist : (names.insert name).toList = names.toList ++ [name] := by
      rw [toList_insert, if_neg h]
    exact
      { isNew_iff := by simpa using h
        toList_of_new := fun _ => hlist
        eq_of_not_new := nofun }

/-! ## Another collection -/

theorem empty_extend (a : OrderedNames) : empty.extend a = a := by
  apply ext_toList
  rw [toList_extend, toList_empty, List.nil_append, firstOccurrences_of_nodup a.nodup]

theorem extend_empty (a : OrderedNames) : a.extend empty = a := rfl

theorem extend_assoc (a b c : OrderedNames) :
    (a.extend b).extend c = a.extend (b.extend c) := by
  apply ext_toList
  calc ((a.extend b).extend c).toList
      = firstOccurrences (firstOccurrences (a.toList ++ b.toList) ++ c.toList) := by
        rw [toList_extend, toList_extend]
    _ = firstOccurrences (a.toList ++ (b.toList ++ c.toList)) := by
        rw [firstOccurrences_append_left, List.append_assoc]
    _ = firstOccurrences (a.toList ++ firstOccurrences (b.toList ++ c.toList)) :=
        (firstOccurrences_append_right _ _).symm
    _ = (a.extend (b.extend c)).toList := by rw [toList_extend, toList_extend]

/-- A collection is not changed exactly by those that hold no name of their own. -/
theorem extend_eq_left_iff {a b : OrderedNames} :
    a.extend b = a ↔ ∀ name ∈ b.toList, name ∈ a.toList := by
  constructor
  · intro h name hname
    have hmem : name ∈ (a.extend b).toList := mem_extend.2 (.inr hname)
    rwa [h] at hmem
  · exact extend_of_subset

theorem extend_extend_left (a b : OrderedNames) : (a.extend b).extend a = a.extend b :=
  extend_eq_left_iff.2 fun _ h => mem_extend.2 (.inl h)

/-! ## Equality -/

/-- Collections are equal if they list the same names in any order. -/
theorem sameMembers_iff_perm {a b : OrderedNames} :
    a.sameMembers b = true ↔ a.toList.Perm b.toList := by
  have hparts : a.sameMembers b = true ↔
      a.toList.length = b.toList.length ∧ ∀ name ∈ a.toList, name ∈ b.toList := by
    rw [sameMembers, Bool.and_eq_true, decide_eq_true_iff, List.all_eq_true]
    simp only [size, contains, decide_eq_true_iff]
  rw [hparts]
  constructor
  · rintro ⟨hlength, hsubset⟩
    -- no name is there twice, so as many names of the other are all of them
    exact (List.subperm_of_subset a.nodup hsubset).perm_of_length_le
      (Nat.le_of_eq hlength.symm)
  · intro h
    exact ⟨h.length_eq, fun _ hname => h.subset hname⟩

theorem sameMembers_iff {a b : OrderedNames} :
    a.sameMembers b = true ↔ ∀ name, name ∈ a.toList ↔ name ∈ b.toList := by
  rw [sameMembers_iff_perm, List.perm_ext_iff_of_nodup a.nodup b.nodup]

theorem sameMembers_insert {a b : OrderedNames} (h : a.sameMembers b = true) (name : String) :
    (a.insertIsNew name).1 = (b.insertIsNew name).1 ∧
      (a.insertIsNew name).2.sameMembers (b.insertIsNew name).2 = true := by
  have hmem := sameMembers_iff.1 h
  simp only [insertIsNew_eq]
  constructor
  · simp only [contains, hmem]
  · apply sameMembers_iff.2
    intro other
    rw [mem_insert, mem_insert, hmem]

theorem sameMembers_extend {a a' b b' : OrderedNames} (ha : a.sameMembers a' = true)
    (hb : b.sameMembers b' = true) : (a.extend b).sameMembers (a'.extend b') = true := by
  apply sameMembers_iff.2
  intro name
  rw [mem_extend, mem_extend, sameMembers_iff.1 ha, sameMembers_iff.1 hb]

/-! ## Programs -/

/-- One operation of a program that keeps collections under numbers. -/
inductive Operation where
  /-- Makes the collection of a list. -/
  | make (target : Nat) (names : List String)
  | insert (target : Nat) (name : String)
  | extend (target source : Nat)

namespace Operation

/-- The collection that an operation changes. -/
def target : Operation → Nat
  | .make i _ => i
  | .insert i _ => i
  | .extend i _ => i

/-- What an operation makes of its target. -/
def result (kept : Nat → OrderedNames) : Operation → OrderedNames
  | .make _ names => .ofList names
  | .insert i name => ((kept i).insertIsNew name).2
  | .extend i j => (kept i).extend (kept j)

/-- All that the target of an operation was given, repeats included, if `given` is what each
collection was given before. -/
def supply (given : Nat → List String) : Operation → List String
  | .make _ names => names
  | .insert i name => given i ++ [name]
  | .extend i j => given i ++ given j

end Operation

/-- The collections after one operation more. -/
def step (kept : Nat → OrderedNames) (o : Operation) : Nat → OrderedNames :=
  Function.update kept o.target (o.result kept)

/-- What the collections were given after one operation more. -/
def stepSupplied (given : Nat → List String) (o : Operation) : Nat → List String :=
  Function.update given o.target (o.supply given)

/-- The collections after a program. They are empty before it. -/
def run (program : List Operation) : Nat → OrderedNames :=
  program.foldl step fun _ => .empty

/-- What the collections were given in a program. -/
def supplied (program : List Operation) : Nat → List String :=
  program.foldl stepSupplied fun _ => []

/-- Each collection holds the first occurrences of what it was given. -/
def Tracks (kept : Nat → OrderedNames) (given : Nat → List String) : Prop :=
  ∀ i, (kept i).toList = firstOccurrences (given i)

/-- An operation keeps the collections in step with what they were given. -/
theorem Tracks.step {kept : Nat → OrderedNames} {given : Nat → List String}
    (h : Tracks kept given) (o : Operation) :
    Tracks (step kept o) (stepSupplied given o) := by
  -- repeats may go at once or at the end, also where both operands of a union are one collection
  have htarget : (o.result kept).toList = firstOccurrences (o.supply given) := by
    cases o with
    | make i names => exact toList_ofList names
    | insert i name =>
      rw [Operation.result, Operation.supply, insertIsNew_eq, toList_insert_eq, h i,
        firstOccurrences_append, List.foldl_cons, List.foldl_nil]
    | extend i j =>
      rw [Operation.result, Operation.supply, toList_extend, h i, h j,
        firstOccurrences_append_left, firstOccurrences_append_right]
  intro i
  by_cases hi : i = o.target
  · subst hi
    rwa [OrderedNames.step, stepSupplied, Function.update_self, Function.update_self]
  · rw [OrderedNames.step, stepSupplied, Function.update_of_ne hi, Function.update_of_ne hi, h i]

theorem Tracks.run {kept : Nat → OrderedNames} {given : Nat → List String}
    (h : Tracks kept given) (program : List Operation) :
    Tracks (program.foldl OrderedNames.step kept) (program.foldl stepSupplied given) := by
  -- over the rest of the program, from whatever the first operation left
  induction program generalizing kept given with
  | nil => exact h
  | cons o rest ih => exact ih (h.step o)

theorem tracks_run (program : List Operation) : Tracks (run program) (supplied program) :=
  Tracks.run (fun _ => rfl) program

/-- A collection lists what it was given without the repeats, and what it tells about its
names agrees with the list. -/
structure Lists (names : OrderedNames) (given : List String) : Prop where
  toList_eq : names.toList = given.eraseDups
  mem_iff : ∀ name, name ∈ names.toList ↔ name ∈ given
  contains_iff : ∀ name, names.contains name = true ↔ name ∈ names.toList
  size_eq : names.size = names.toList.length
  isEmpty_iff : names.isEmpty = true ↔ names.toList = []

theorem lists_of_toList_eq {names : OrderedNames} {given : List String}
    (h : names.toList = firstOccurrences given) : Lists names given where
  toList_eq := by rw [h, firstOccurrences_eq_eraseDups]
  mem_iff name := by rw [h, mem_firstOccurrences]
  contains_iff _ := decide_eq_true_iff
  size_eq := rfl
  isEmpty_iff := List.isEmpty_iff

/-- **The operations on collections obey their laws.** After any program each collection
lists the names it was given, each where it was given first. Adding a name tells whether it
is new, and changes nothing if it is not. Adding a collection is associative, the empty one
changes nothing on either side, and neither does one whose names are all there. Two
collections are equal if they list the same names in any order, and the operations keep equal
collections equal. -/
theorem operations_obey_laws :
    (∀ program i, Lists (run program i) (supplied program i)) ∧
      (∀ names name, Inserts names name (names.insertIsNew name).1 (names.insertIsNew name).2) ∧
      (∀ a b c : OrderedNames, (a.extend b).extend c = a.extend (b.extend c)) ∧
      (∀ a : OrderedNames, empty.extend a = a ∧ a.extend empty = a) ∧
      (∀ a b : OrderedNames, a.extend b = a ↔ ∀ name ∈ b.toList, name ∈ a.toList) ∧
      (∀ a b : OrderedNames, (a.extend b).extend a = a.extend b) ∧
      (∀ a b : OrderedNames, a.sameMembers b = true ↔ a.toList.Perm b.toList) ∧
      (∀ (a b : OrderedNames) (name : String), a.sameMembers b = true →
        (a.insertIsNew name).1 = (b.insertIsNew name).1 ∧
          (a.insertIsNew name).2.sameMembers (b.insertIsNew name).2 = true) ∧
      ∀ a a' b b' : OrderedNames, a.sameMembers a' = true → b.sameMembers b' = true →
        (a.extend b).sameMembers (a'.extend b') = true := by
  refine ⟨fun program i => lists_of_toList_eq (tracks_run program i), inserts_insertIsNew,
    extend_assoc, fun a => ⟨empty_extend a, extend_empty a⟩, fun _ _ => extend_eq_left_iff,
    extend_extend_left, fun _ _ => sameMembers_iff_perm, fun _ _ name h => ?_, ?_⟩
  · exact sameMembers_insert h name
  · intro a a' b b' ha hb
    exact sameMembers_extend ha hb

/-- A program with two collections: the second grows by the first, and the first by the
second. -/
def exchange : List Operation :=
  [.make 0 ["b", "a", "b"], .insert 1 "c", .insert 1 "a", .extend 1 0, .extend 0 1]

theorem exchange_obeys_laws :
    (run exchange 0).toList = ["b", "a", "c"] ∧ (run exchange 1).toList = ["c", "a", "b"] ∧
      (run exchange 0).sameMembers (run exchange 1) = true ∧
      ((run exchange 0).insertIsNew "d").2.sameMembers ((run exchange 1).insertIsNew "d").2 = true ∧
      ((run exchange 0).extend (run exchange 1)).sameMembers
        ((run exchange 1).extend (run exchange 0)) = true := by
  obtain ⟨hlists, -, -, -, -, -, hsame, hinsert, hextend⟩ := operations_obey_laws
  have hfirst : (run exchange 0).toList = ["b", "a", "c"] :=
    (hlists exchange 0).toList_eq.trans (by decide)
  have hsecond : (run exchange 1).toList = ["c", "a", "b"] :=
    (hlists exchange 1).toList_eq.trans (by decide)
  have hequal : (run exchange 0).sameMembers (run exchange 1) = true := by
    rw [hsame, hfirst, hsecond]
    decide
  have hequal' : (run exchange 1).sameMembers (run exchange 0) = true := by
    rw [hsame, hfirst, hsecond]
    decide
  exact ⟨hfirst, hsecond, hequal, (hinsert _ _ "d" hequal).2, hextend _ _ _ _ hequal hequal'⟩

end ScriptInventory.OrderedNames
