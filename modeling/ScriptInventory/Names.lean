/-!
# Names without repetition

`OrderedNames` is a list of names in which each name occurs once, at the place
where it was first added. `firstOccurrences` is what adding all names of a list
gives: the list without the later copies of each name.
-/

namespace ScriptInventory

/-- The names of a list, each where it first occurs. -/
def firstOccurrences (names : List String) : List String :=
  names.foldl (fun seen name => if name ∈ seen then seen else seen ++ [name]) []

/-- Names in the order in which they were first added. That none is there twice belongs to the
type, so that no report has to look for repetitions. -/
structure OrderedNames where
  toList : List String
  nodup : toList.Nodup

namespace OrderedNames

def empty : OrderedNames := ⟨[], List.nodup_nil⟩

instance : Inhabited OrderedNames := ⟨empty⟩

instance : Repr OrderedNames := ⟨fun names n => reprPrec names.toList n⟩

def contains (names : OrderedNames) (name : String) : Bool := decide (name ∈ names.toList)

def size (names : OrderedNames) : Nat := names.toList.length

def isEmpty (names : OrderedNames) : Bool := names.toList.isEmpty

/-- Adds a name at the end, unless it is there. -/
def insert (names : OrderedNames) (name : String) : OrderedNames :=
  if h : name ∈ names.toList then names
  else ⟨names.toList ++ [name], List.nodup_append.2 ⟨names.nodup, by simp, by
    intro a ha b hb hab
    simp at hb
    exact h (hb ▸ hab ▸ ha)⟩⟩

/-- Adds a name as `insert` does, and tells whether it was new. -/
def insertIsNew (names : OrderedNames) (name : String) : Bool × OrderedNames :=
  if name ∈ names.toList then (false, names) else (true, names.insert name)

/-- Adds the names of a list, one after the other. -/
def insertAll (names : OrderedNames) (more : List String) : OrderedNames :=
  more.foldl insert names

def ofList (names : List String) : OrderedNames := empty.insertAll names

/-- Adds the names of another collection. -/
def extend (names more : OrderedNames) : OrderedNames := names.insertAll more.toList

/-- Whether two collections hold the same names, in whatever order. -/
def sameMembers (a b : OrderedNames) : Bool :=
  a.size = b.size && a.toList.all b.contains

@[simp] theorem toList_empty : empty.toList = [] := rfl

theorem toList_insert (names : OrderedNames) (name : String) :
    (names.insert name).toList =
      if name ∈ names.toList then names.toList else names.toList ++ [name] := by
  unfold insert
  split <;> simp [*]

theorem insertIsNew_eq (names : OrderedNames) (name : String) :
    names.insertIsNew name = (!names.contains name, names.insert name) := by
  by_cases h : name ∈ names.toList <;> simp [insertIsNew, insert, contains, h]

@[simp] theorem insertAll_nil (names : OrderedNames) : names.insertAll [] = names := rfl

@[simp] theorem insertAll_cons (names : OrderedNames) (name : String) (more : List String) :
    names.insertAll (name :: more) = (names.insert name).insertAll more := rfl

end OrderedNames

end ScriptInventory
