import Mathlib.Data.List.Nodup
import ScriptInventory.Proofs.Files.Outline

/-!
# Trees in another order

In a well-formed tree the children of a directory have different names, which are names of
files. Such a tree can be enumerated in any order: reordering the children of its
directories changes neither what stands at a place nor where a path leads. Main
statement: paths lead to the same places (`FileSystem.place_eq_of_reordered`).

* `FileTree.child?_eq_some_iff`: children are known by their names.
* `FileTree.Reordered.sameEntries`: at each place there is the same file or link, or there
  are two directories.
-/

namespace ScriptInventory

namespace FileTree

/-- A name that a file can have: it is not empty, has no slash in it, and is none of the two
that directories have for themselves and for what they are in. -/
def IsFileName (name : String) : Prop :=
  name ≠ "" ∧ name ≠ "." ∧ name ≠ ".." ∧ '/' ∉ name.toList

/-- The children of each directory have different names of files. -/
inductive WellFormed : FileTree → Prop
  | file (body : FileBody) : WellFormed (.file body)
  | link (target : String) : WellFormed (.link target)
  | directory {denied : Option SystemError} {children : List (String × FileTree)} :
      (children.map Prod.fst).Nodup → (∀ c ∈ children, IsFileName c.1) →
      (∀ c ∈ children, WellFormed c.2) → WellFormed (.directory denied children)

/-- The second tree is the first one, with the children of some directories in another
order. -/
inductive Reordered : FileTree → FileTree → Prop
  | refl (t : FileTree) : Reordered t t
  | trans {t u v : FileTree} : Reordered t u → Reordered u v → Reordered t v
  | children {denied : Option SystemError} {cs cs' : List (String × FileTree)} :
      cs.Perm cs' → Reordered (.directory denied cs) (.directory denied cs')
  | inside {name : String} {t t' : FileTree} {denied : Option SystemError}
      {front back : List (String × FileTree)} :
      Reordered t t' → Reordered (.directory denied (front ++ (name, t) :: back))
        (.directory denied (front ++ (name, t') :: back))

/-- A tree without what is in its directories. -/
def shape : FileTree → FileTree
  | .file body => .file body
  | .link target => .link target
  | .directory denied _ => .directory denied []

/-- Two trees have the same files, links and directories at all places. -/
def SameEntries (t t' : FileTree) : Prop :=
  ∀ place, (t.at? place).map shape = (t'.at? place).map shape

theorem shape_eq_file_iff {t : FileTree} {body : FileBody} :
    t.shape = .file body ↔ t = .file body := by
  cases t <;> simp [shape]

/-! ## Children -/

/-- A child is known by its name. -/
theorem child?_eq_some_iff {denied : Option SystemError} {cs : List (String × FileTree)}
    (hnames : (cs.map Prod.fst).Nodup) {name : String} {t : FileTree} :
    (directory denied cs).child? name = some t ↔ (name, t) ∈ cs := by
  rw [child?_directory, Option.map_eq_some_iff]
  constructor
  · rintro ⟨c, hfind, rfl⟩
    have hname : c.1 = name := by simpa using List.find?_some hfind
    rw [← hname]
    exact List.mem_of_find?_eq_some hfind
  · intro hmem
    cases hfind : cs.find? fun c => c.1 = name with
    | none =>
      rw [List.find?_eq_none] at hfind
      exact absurd (decide_eq_true rfl) (hfind _ hmem)
    | some c =>
      have hname : c.1 = name := by simpa using List.find?_some hfind
      have hc : c = (name, t) :=
        List.inj_on_of_nodup_map hnames (List.mem_of_find?_eq_some hfind) hmem hname
      exact ⟨c, rfl, by rw [hc]⟩

theorem child?_eq_of_perm {cs cs' : List (String × FileTree)}
    (hnames : (cs.map Prod.fst).Nodup) (hperm : cs.Perm cs') (denied : Option SystemError)
    (name : String) :
    (directory denied cs).child? name = (directory denied cs').child? name := by
  have hnames' : (cs'.map Prod.fst).Nodup := (hperm.map Prod.fst).nodup_iff.1 hnames
  apply Option.ext
  intro t
  rw [child?_eq_some_iff hnames, child?_eq_some_iff hnames', hperm.mem_iff]

theorem at?_append (t : FileTree) (a b : List String) :
    t.at? (a ++ b) = (t.at? a).bind fun u => u.at? b := by
  induction a generalizing t with
  | nil => rw [List.nil_append, at?_nil, Option.bind_some]
  | cons name a ih =>
    rw [List.cons_append, at?_cons, at?_cons]
    cases t.child? name with
    | none => rfl
    | some c => exact ih c

/-- Below files and links there is nothing. -/
theorem at?_cons_of_children {t : FileTree} (h : t.children = []) (name : String)
    (rest : List String) : t.at? (name :: rest) = none := by
  rw [at?_cons, child?, h]
  rfl

/-! ## Well-formed trees -/

@[simp] theorem wellFormed_file (body : FileBody) : (file body).WellFormed :=
  .file body

@[simp] theorem wellFormed_link (target : String) : (link target).WellFormed :=
  .link target

@[simp] theorem wellFormed_directory_iff {denied : Option SystemError}
    {cs : List (String × FileTree)} :
    (directory denied cs).WellFormed ↔ (cs.map Prod.fst).Nodup ∧ (∀ c ∈ cs, IsFileName c.1) ∧
      ∀ c ∈ cs, WellFormed c.2 := by
  constructor
  · intro h
    cases h with
    | directory hnodup hnames hbelow => exact ⟨hnodup, hnames, hbelow⟩
  · rintro ⟨hnodup, hnames, hbelow⟩
    exact .directory hnodup hnames hbelow

/-- Of a well-formed directory, the first child and the directory of the others are
well-formed, and the name of the first is its own. -/
theorem WellFormed.of_cons {name : String} {t : FileTree} {denied : Option SystemError}
    {cs : List (String × FileTree)}
    (h : (FileTree.directory denied ((name, t) :: cs)).WellFormed) :
    name ∉ cs.map Prod.fst ∧ IsFileName name ∧ t.WellFormed ∧
      (FileTree.directory denied cs).WellFormed := by
  rw [wellFormed_directory_iff, List.map_cons, List.nodup_cons] at h
  obtain ⟨⟨hname, hnodup⟩, hnames, hbelow⟩ := h
  exact ⟨hname, hnames _ List.mem_cons_self, hbelow _ List.mem_cons_self,
    .directory hnodup (fun c hc => hnames c (List.mem_cons_of_mem _ hc))
      fun c hc => hbelow c (List.mem_cons_of_mem _ hc)⟩

theorem WellFormed.child {t u : FileTree} (h : t.WellFormed) {name : String}
    (hchild : t.child? name = some u) : u.WellFormed := by
  cases h with
  | file body => cases hchild
  | link target => cases hchild
  | directory hnodup _ hbelow =>
    exact hbelow (name, u) ((child?_eq_some_iff hnodup).1 hchild)

/-- What stands in a well-formed tree is well-formed. -/
theorem WellFormed.at? {t u : FileTree} (h : t.WellFormed) {place : List String}
    (hat : t.at? place = some u) : u.WellFormed := by
  induction place generalizing t with
  | nil =>
    rw [at?_nil] at hat
    cases hat
    exact h
  | cons name rest ih =>
    rw [at?_cons, Option.bind_eq_some_iff] at hat
    obtain ⟨c, hchild, hat⟩ := hat
    exact ih (h.child hchild) hat

/-! ## Reordered trees -/

theorem SameEntries.inside {t t' : FileTree} (h : SameEntries t t') (name : String)
    (denied : Option SystemError) (front back : List (String × FileTree)) :
    SameEntries (.directory denied (front ++ (name, t) :: back))
      (.directory denied (front ++ (name, t') :: back)) := by
  intro place
  cases place with
  | nil => simp [shape]
  | cons first rest =>
    rw [at?_cons, at?_cons, child?_directory, child?_directory, List.find?_append,
      List.find?_append, List.find?_cons, List.find?_cons]
    cases front.find? fun c => c.1 = first with
    | some c => rfl
    | none =>
      by_cases hname : name = first
      · simp only [hname, decide_true, Option.none_or, Option.map_some, Option.bind_some]
        exact h rest
      · simp only [hname, decide_false]

/-- A reordered tree is well-formed, and has the same entries. -/
theorem Reordered.wellFormed_and_sameEntries {t t' : FileTree} (h : Reordered t t') :
    t.WellFormed → t'.WellFormed ∧ SameEntries t t' := by
  induction h with
  | refl t => exact fun hwf => ⟨hwf, fun _ => rfl⟩
  -- both are proved together: that the entries are the same needs names that occur once
  | trans _ _ ih₁ ih₂ =>
    intro hwf
    obtain ⟨hwf₁, hsame₁⟩ := ih₁ hwf
    obtain ⟨hwf₂, hsame₂⟩ := ih₂ hwf₁
    exact ⟨hwf₂, fun place => (hsame₁ place).trans (hsame₂ place)⟩
  -- among distinct names the order does not matter to a search
  | @children denied cs cs' hperm =>
    intro hwf
    cases hwf with
    | directory hnodup hnames hbelow =>
      refine ⟨.directory ((hperm.map Prod.fst).nodup_iff.1 hnodup)
        (fun c hc => hnames c (hperm.mem_iff.2 hc))
        (fun c hc => hbelow c (hperm.mem_iff.2 hc)), ?_⟩
      intro place
      cases place with
      | nil => simp [shape]
      | cons name rest => rw [at?_cons, at?_cons, child?_eq_of_perm hnodup hperm]
  -- only the tree at `name` is another one, and it is no worse
  | @inside name t t' denied front back _ ih =>
    intro hwf
    cases hwf with
    | directory hnodup hnames hbelow =>
      obtain ⟨hwf', hsame⟩ := ih (hbelow (name, t) (by simp))
      refine ⟨.directory ?_ ?_ ?_, hsame.inside name denied front back⟩
      · simpa using hnodup
      · intro c hc
        simp only [List.mem_append, List.mem_cons] at hc
        rcases hc with hc | rfl | hc
        · exact hnames c (by simp [hc])
        · exact hnames (name, t) (by simp)
        · exact hnames c (by simp [hc])
      · intro c hc
        simp only [List.mem_append, List.mem_cons] at hc
        rcases hc with hc | rfl | hc
        · exact hbelow c (by simp [hc])
        · exact hwf'
        · exact hbelow c (by simp [hc])

theorem Reordered.wellFormed {t t' : FileTree} (h : Reordered t t') (hwf : t.WellFormed) :
    t'.WellFormed :=
  (h.wellFormed_and_sameEntries hwf).1

theorem Reordered.sameEntries {t t' : FileTree} (h : Reordered t t') (hwf : t.WellFormed) :
    SameEntries t t' :=
  (h.wellFormed_and_sameEntries hwf).2

theorem SameEntries.symm {t t' : FileTree} (h : SameEntries t t') : SameEntries t' t :=
  fun place => (h place).symm

/-- What stands at a place can be listed in both trees or in neither. -/
theorem SameEntries.denied_eq {t t' : FileTree} (h : SameEntries t t') (place : List String) :
    (t.at? place).bind denied = (t'.at? place).bind denied := by
  have hshape : ∀ u : Option FileTree, u.bind denied = (u.map shape).bind denied := by
    rintro (- | (body | target | ⟨denied, cs⟩)) <;> rfl
  rw [hshape, h, ← hshape]

/-- Files are at the same places in both trees. -/
theorem SameEntries.at?_file_iff {t t' : FileTree} (h : SameEntries t t') {place : List String}
    {body : FileBody} :
    t.at? place = some (.file body) ↔ t'.at? place = some (.file body) := by
  have hfile : ∀ u : FileTree, u.at? place = some (.file body) ↔
      (u.at? place).map shape = some (.file body) := by
    intro u
    rw [Option.map_eq_some_iff]
    constructor
    · intro hu
      exact ⟨_, hu, rfl⟩
    · rintro ⟨v, hv, hshape⟩
      rw [hv, shape_eq_file_iff.1 hshape]
  rw [hfile t, hfile t', h place]

theorem SameEntries.sameOutline {t t' : FileTree} (h : SameEntries t t') : SameOutline t t' := by
  have houtline : ∀ u : Option FileTree, u.map outline = (u.map shape).map outline := by
    rintro (- | (body | target | ⟨denied, cs⟩)) <;> rfl
  intro place
  rw [houtline, h, ← houtline]

end FileTree

/-! ## Paths -/

namespace FileSystem

variable {s s' : FileSystem}

/-- In a reordered tree, a path leads to the same place. -/
theorem place_eq_of_reordered (hwf : s.root.WellFormed) (hhere : s'.here = s.here)
    (h : FileTree.Reordered s.root s'.root) (path : String) :
    s'.place path = s.place path :=
  place_eq_of_sameOutline hhere (h.sameEntries hwf).sameOutline path

end FileSystem

end ScriptInventory
