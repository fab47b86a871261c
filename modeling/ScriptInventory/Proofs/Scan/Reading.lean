import ScriptInventory.Proofs.Scan.Order
import ScriptInventory.Proofs.Scan.Spelling

/-!
# What a scan reads

A scan lists the sources of a directory first and reads each of them later, by a path that
starts with that of the directory. Main statement: there stands what was listed, whatever is
excluded and whatever ignore files say (`FileSystem.bodyFrom_pathFrom`).

* `Walk.at?_of_mem_entries`: a walk finds only files that are there, each at its own place.
* `FileSystem.follow_split`, `FileSystem.follow_append`: a path can be followed in two parts.
* `FileSystem.follow_names`: below a directory, names lead to what stands in the tree.
-/

namespace ScriptInventory

/-! ## Walks -/

namespace Walk

variable {w : Walk}

mutual

/-- A file that a walk finds in an entry stands there. -/
theorem at?_of_mem_entry :
    ∀ (t : FileTree) (levels : List Ignore.Level) (place path : List String) (name : String),
      t.WellFormed → ∀ f ∈ w.entry levels place path name t,
        ∃ rest, f.path = path ++ name :: rest ∧ t.at? rest = some (.file f.body) ∧
          ∀ n ∈ rest, FileTree.IsFileName n
  | .file body, levels, place, path, name, _, f, hf => by
    rw [entry] at hf
    split at hf
    · rw [List.mem_singleton.1 hf]
      exact ⟨[], rfl, FileTree.at?_nil _, by simp⟩
    · cases hf
  | .link target, levels, place, path, name, _, f, hf => by
    rw [entry] at hf
    cases hf
  | .directory (some error) children, levels, place, path, name, _, f, hf => by
    rw [entry] at hf
    cases hf
  | .directory none children, levels, place, path, name, hwf, f, hf => by
    rw [entry] at hf
    split at hf
    · cases hf
    · obtain ⟨rest, hpath, hat, hnames⟩ := at?_of_mem_entries children _ _ _ hwf f hf
      exact ⟨rest, by rw [hpath, List.append_assoc, List.singleton_append], hat, hnames⟩

/-- A file that a walk finds in a directory stands there. -/
theorem at?_of_mem_entries :
    ∀ (cs : List (String × FileTree)) (levels : List Ignore.Level) (place path : List String),
      (FileTree.directory none cs).WellFormed → ∀ f ∈ w.entries levels place path cs,
        ∃ rest, f.path = path ++ rest ∧
          (FileTree.directory none cs).at? rest = some (.file f.body) ∧
          ∀ n ∈ rest, FileTree.IsFileName n
  | [], levels, place, path, _, f, hf => by
    rw [entries] at hf
    cases hf
  | (name, t) :: others, levels, place, path, hwf, f, hf => by
    obtain ⟨hname, hfile, hfirst, hothers⟩ := hwf.of_cons
    rw [entries] at hf
    rcases List.mem_append.1 hf with hf | hf
    · obtain ⟨rest, hpath, hat, hnames⟩ := at?_of_mem_entry t _ _ _ _ hfirst f hf
      refine ⟨name :: rest, hpath, ?_, List.forall_mem_cons.2 ⟨hfile, hnames⟩⟩
      rw [FileTree.at?_cons, FileTree.child?_cons_self, Option.bind_some, hat]
    · obtain ⟨rest, hpath, hat, hnames⟩ := at?_of_mem_entries others _ _ _ hothers f hf
      refine ⟨rest, hpath, ?_, hnames⟩
      -- the way starts with the name of another child than the first one
      cases rest with
      | nil => cases (FileTree.at?_nil _).symm.trans hat
      | cons first rest =>
        have hne : first ∉ [(name, t)].map Prod.fst := by
          rintro hmem
          obtain rfl : first = name := by simpa using hmem
          rw [FileTree.at?_cons, FileTree.child?_directory,
            FileTree.find?_eq_none_of_not_mem hname] at hat
          cases hat
        rw [← hat, FileTree.at?_cons, FileTree.at?_cons]
        exact congrArg (Option.bind · _) (FileTree.child?_append hne none others)

end

end Walk

/-! ## Paths -/

namespace FileSystem

variable {s : FileSystem}

/-- A path that leads somewhere leads somewhere as far as any of its parts. -/
theorem follow_split (links : Nat) (a b place : List String) {r : List String}
    (h : s.follow links place (a ++ b) = .ok r) :
    ∃ q links', s.follow links place a = .ok q ∧ s.follow links' q b = .ok r := by
  -- a link starts over with one link less and with more parts, all other hops with one part less
  induction links using Nat.strongRecOn generalizing a place with
  | _ links ihlinks =>
    induction a generalizing place with
    | nil => exact ⟨place, links, follow_nil _ _ _, h⟩
    | cons part a iha =>
      rw [List.cons_append, follow_cons] at h
      rw [follow_cons]
      cases hhop : s.hop place part with
      | fails e =>
        rw [hhop] at h
        cases h
      | stays | up | on =>
        rw [hhop] at h
        exact iha _ h
      | link target =>
        rw [hhop] at h
        cases links with
        | zero => cases h
        | succ links =>
          simp only [← List.append_assoc] at h
          exact ihlinks links (Nat.lt_succ_self _) _ _ h

/-- Where the first part of a path leads, the second goes on, however many links have been
followed. -/
theorem follow_append (links : Nat) (a b place : List String) {q r : List String}
    (ha : s.follow links place a = .ok q) (hb : ∀ links', s.follow links' q b = .ok r) :
    s.follow links place (a ++ b) = .ok r := by
  -- the induction of `follow_split`
  induction links using Nat.strongRecOn generalizing a place with
  | _ links ihlinks =>
    induction a generalizing place with
    | nil =>
      rw [follow_nil] at ha
      cases ha
      exact hb links
    | cons part a iha =>
      rw [follow_cons] at ha
      rw [List.cons_append, follow_cons]
      cases hhop : s.hop place part with
      | fails e =>
        rw [hhop] at ha
        cases ha
      | stays | up | on =>
        rw [hhop] at ha
        exact iha _ ha
      | link target =>
        rw [hhop] at ha
        cases links with
        | zero => cases ha
        | succ links =>
          have hmore := ihlinks links (Nat.lt_succ_self _) _ _ ha
          rwa [List.append_assoc] at hmore

/-- Names lead from a place to the file that stands below it. -/
theorem follow_names (links : Nat) :
    ∀ (names place : List String) {t : FileTree} {body : FileBody},
      s.root.at? place = some t → t.at? names = some (.file body) →
      (∀ n ∈ names, FileTree.IsFileName n) →
      s.follow links place names = .ok (place ++ names)
  | [], place, _, _, _, _, _ => by rw [follow_nil, List.append_nil]
  | name :: rest, place, t, body, ht, hat, hnames => by
    obtain ⟨⟨hempty, hdot, hup, -⟩, hrest⟩ := List.forall_mem_cons.1 hnames
    rw [FileTree.at?_cons, Option.bind_eq_some_iff] at hat
    obtain ⟨u, hu, hbelow⟩ := hat
    have hplace : s.root.at? (place ++ [name]) = some u := by
      rw [at?_append_singleton, ht, Option.bind_some, hu]
    have hhop : s.hop place name = .on := by
      cases t with
      | file body => cases hu
      | link target => cases hu
      | directory denied children =>
        simp only [hop, ht, hplace, if_neg (not_or_intro hempty hdot), if_neg hup]
        cases u with
        | file body => rfl
        | directory denied children => rfl
        | link target =>
          -- nothing stands below a link
          cases rest with
          | nil => cases (FileTree.at?_nil _).symm.trans hbelow
          | cons next rest =>
            rw [FileTree.at?_cons_of_children rfl] at hbelow
            cases hbelow
    rw [follow_cons, hhop]
    simpa using follow_names links rest (place ++ [name]) hplace hbelow hrest

/-- Behind a directory, a path starts where that of the directory does. -/
theorem startsWith_joinPath {root : String} (hroot : root ≠ "") (path : String) :
    (joinPath root path).startsWith "/" = root.startsWith "/" := by
  obtain ⟨c, cs, hcs⟩ : ∃ c cs, root.toList = c :: cs :=
    List.exists_cons_of_ne_nil fun hnil => hroot (String.toList_eq_nil_iff.1 hnil)
  obtain ⟨rest, hrest⟩ := exists_joined root.toList path.toList
  rw [Bool.eq_iff_iff, String.startsWith_string_iff, String.startsWith_string_iff,
    toList_joinPath, hrest, hcs]
  simp [List.cons_prefix_cons]

theorem joinPath_ne_empty {root : String} (hroot : root ≠ "") (path : String) :
    joinPath root path ≠ "" := by
  intro hempty
  obtain ⟨rest, hrest⟩ := exists_joined root.toList path.toList
  have hnil := congrArg String.toList hempty
  rw [toList_joinPath, hrest, String.toList_empty, List.append_eq_nil_iff] at hnil
  exact hroot (String.toList_eq_nil_iff.1 hnil.1)

/-- The path of a file below a directory leads to it. -/
theorem placeFrom_joinPath {base : List String} {root : String} {top names : List String}
    {body : FileBody} (htop : s.placeFrom base root = .ok top)
    (hat : s.root.at? (top ++ names) = some (.file body)) (hne : names ≠ [])
    (hnames : ∀ n ∈ names, FileTree.IsFileName n) :
    s.placeFrom base (joinPath root ("/".intercalate names)) = .ok (top ++ names) := by
  have hroot : root ≠ "" := by
    rintro rfl
    cases htop
  obtain ⟨t, ht, hbelow⟩ : ∃ t, s.root.at? top = some t ∧ t.at? names = some (.file body) := by
    rwa [FileTree.at?_append, Option.bind_eq_some_iff] at hat
  have hparts := pathParts_intercalate hne fun n hn => (hnames n hn).2.2.2
  obtain ⟨front, hboth, hfront⟩ := exists_pathParts_joinPath root ("/".intercalate names)
  rw [placeFrom, if_neg hroot, start] at htop
  rw [placeFrom, if_neg (joinPath_ne_empty hroot _), start, startsWith_joinPath hroot]
  rw [hboth, hparts]
  have hfollow : ∀ place, s.follow mostLinks place (pathParts root) = .ok top →
      s.follow mostLinks place (front ++ names) = .ok (top ++ names) := by
    intro place hplace
    refine follow_append _ _ _ _ ?_ fun links => follow_names links names top ht hbelow hnames
    rcases hfront with hfront | hfront
    · rwa [hfront] at hplace
    · -- the empty part behind the last slash stays where it is
      rw [hfront] at hplace
      obtain ⟨q, links, hq, hlast⟩ := follow_split _ _ _ _ hplace
      have hstays : s.hop q "" = .stays ∨ ∃ e, s.hop q "" = .fails e := by
        unfold hop
        split <;> simp
      rw [follow_cons] at hlast
      rcases hstays with hstays | ⟨e, hfails⟩
      · rw [hstays, follow_nil] at hlast
        rw [hq, Except.ok.inj hlast]
      · rw [hfails] at hlast
        cases hlast
  by_cases habsolute : root.startsWith "/" = true
  · rw [if_pos habsolute] at htop ⊢
    exact hfollow _ htop
  · rw [if_neg habsolute] at htop ⊢
    exact hfollow _ htop

/-- **What is read is what was listed.** The path of each source of a directory leads to the
file that the walk has found, whatever is excluded and whatever ignore files say. -/
theorem bodyFrom_pathFrom {root : String} {config : ScanConfig} {sources : List SourceFile}
    (hwf : s.root.WellFormed) (hsources : s.sources root config = .ok sources) {f : SourceFile}
    (hf : f ∈ sources) : s.bodyFrom s.here (f.pathFrom root) = .ok f.body := by
  obtain ⟨top, children, excluded, htop, hat, -, rfl⟩ := sources_eq_ok_iff.1 hsources
  rw [List.mem_mergeSort, found] at hf
  split at hf
  · cases hf
  · obtain ⟨rest, hpath, hbelow, hnames⟩ :=
      Walk.at?_of_mem_entries children _ _ _ (hwf.at? hat) f hf
    rw [List.nil_append] at hpath
    have hfile : s.root.at? (top ++ rest) = some (.file f.body) := by
      rw [FileTree.at?_append, hat, Option.bind_some, hbelow]
    have hne : rest ≠ [] := by
      rintro rfl
      cases (FileTree.at?_nil _).symm.trans hbelow
    rw [bodyFrom, SourceFile.pathFrom, SourceFile.relativePath, hpath,
      placeFrom_joinPath htop hfile hne hnames]
    simp only [bind, Except.bind, hfile]
    rfl

end FileSystem

end ScriptInventory
