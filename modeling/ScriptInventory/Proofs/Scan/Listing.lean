import Mathlib.Data.List.TakeWhile
import ScriptInventory.Proofs.Files.Reordered
import ScriptInventory.Proofs.Scan.Order
import ScriptInventory.Proofs.Scan.Spelling

/-!
# Which sources a directory has

Where ignore files do not count and the excluded names are literal, the sources of a
directory can be told from the tree alone. Main statement: a scan lists the files with
the extension of a script on whose way no name is excluded and every directory can be
listed, in strict order of their paths, and in whatever order the directories are
enumerated (`FileSystem.sources_are_listed`).

* `hasExtension_iff`: when a name has an extension.
* `Walk.mem_entries_iff`: what a walk finds below a directory.
* `Walk.nodup_paths_entries`: a walk finds no path twice.
* `FileSystem.sources_of_isStandardInput`, `FileSystem.sources_of_excluded_front`: two
  spellings of a directory for which it has no sources.
-/

namespace ScriptInventory

/-! ## Extensions -/

theorem ne_dot_of_mem_reverse {cs : List Char} (h : '.' ∉ cs) :
    ∀ c ∈ cs.reverse, (c != '.') = true := by
  intro c hc
  rw [bne_iff_ne]
  rintro rfl
  exact h (List.mem_reverse.1 hc)

/-- In a name without a dot there is no extension. -/
theorem extension?_of_not_mem {name : List Char} (h : '.' ∉ name) : extension? name = none := by
  rw [extension?, List.takeWhile_eq_self_iff.2 (ne_dot_of_mem_reverse h)]
  simp

/-- Behind the last dot of a name stands its extension, unless the dot is at the start. -/
theorem extension?_append {stem extension : List Char} (h : '.' ∉ extension) :
    extension? (stem ++ '.' :: extension) = if stem.isEmpty then none else some extension := by
  have hreverse : (stem ++ '.' :: extension).reverse =
      extension.reverse ++ '.' :: stem.reverse := by
    simp
  have htake : (extension.reverse ++ '.' :: stem.reverse).takeWhile (· != '.') =
      extension.reverse := by
    rw [List.takeWhile_append_of_pos (ne_dot_of_mem_reverse h)]
    simp
  rw [extension?, hreverse, htake, ← List.drop_drop, List.drop_left]
  simp

/-- A name with a dot has a last one. -/
theorem exists_last_dot {name : List Char} (h : '.' ∈ name) :
    ∃ stem extension, name = stem ++ '.' :: extension ∧ '.' ∉ extension := by
  obtain ⟨behind, front, hname, hbehind⟩ :=
    List.eq_append_cons_of_mem (List.mem_reverse.2 h)
  refine ⟨front.reverse, behind.reverse, ?_, fun hmem => hbehind (List.mem_reverse.1 hmem)⟩
  rw [← List.reverse_reverse name, hname]
  simp

/-- The extension of a name is what stands behind its last dot. In front of the dot there
is something. -/
theorem extension?_eq_some_iff {name extension : List Char} :
    extension? name = some extension ↔
      ∃ stem, name = stem ++ '.' :: extension ∧ stem ≠ [] ∧ '.' ∉ extension := by
  constructor
  · intro h
    by_cases hname : '.' ∈ name
    · obtain ⟨stem, behind, rfl, hbehind⟩ := exists_last_dot hname
      rw [extension?_append hbehind] at h
      split at h
      · cases h
      · next hstem =>
        cases h
        exact ⟨stem, rfl, fun hnil => hstem (List.isEmpty_iff.2 hnil), hbehind⟩
    · rw [extension?_of_not_mem hname] at h
      cases h
  · rintro ⟨stem, rfl, hstem, hdot⟩
    rw [extension?_append hdot, if_neg fun hnil => hstem (List.isEmpty_iff.1 hnil)]

/-- A name has one of some extensions: what is behind its last dot is not empty in small
letters, and, up to the case of ASCII letters, it is one of the extensions without the
dots in front. If the only dot is at the start, there is no extension. -/
def HasSourceExtension (extensions : List String) (name : String) : Prop :=
  ∃ stem extension : List Char, name.toList = stem ++ '.' :: extension ∧ stem ≠ [] ∧
    '.' ∉ extension ∧ Text.lowercase extension ≠ [] ∧
    ∃ e ∈ extensions, (e.toList.dropWhile (· = '.')).map Text.asciiLower =
      (Text.lowercase extension).map Text.asciiLower

theorem hasExtension_iff {extensions : List String} {name : String} :
    hasExtension extensions name = true ↔ HasSourceExtension extensions name := by
  unfold hasExtension HasSourceExtension
  cases hext : extension? name.toList with
  | none =>
    constructor
    · intro h
      simp [Text.lowercase, Text.lowercaseFrom] at h
    · rintro ⟨stem, extension, hname, hstem, hdot, -⟩
      rw [extension?_eq_some_iff.2 ⟨stem, hname, hstem, hdot⟩] at hext
      cases hext
  | some extension =>
    obtain ⟨stem, hname, hstem, hdot⟩ := extension?_eq_some_iff.1 hext
    simp only [Option.getD_some, Bool.and_eq_true, Bool.not_eq_true',
      List.isEmpty_eq_false_iff, List.any_eq_true, Text.sameUpToAsciiCase, decide_eq_true_eq]
    constructor
    · rintro ⟨hne, e, he, heq⟩
      exact ⟨stem, extension, hname, hstem, hdot, hne, e, he, heq⟩
    · rintro ⟨stem', extension', hname', hstem', hdot', hne, e, he, heq⟩
      have hsame := extension?_eq_some_iff.2 ⟨stem', hname', hstem', hdot'⟩
      rw [hext] at hsame
      injection hsame with hsame
      rw [hsame]
      exact ⟨hne, e, he, heq⟩

/-! ## Files of a tree -/

/-- Every directory on the way along a path can be listed. -/
def FileTree.IsOpen (t : FileTree) (path : List String) : Prop :=
  ∀ place, place <+: path → (t.at? place).bind FileTree.denied = none

/-- A file below a directory that a scan looks at: it is there, its name has an extension
of scripts, and no name on the way to it, nor its own, is excluded. The way to it is open;
what is in directories that cannot be listed is passed over. -/
structure FileTree.IsSource (t : FileTree) (config : ScanConfig) (f : SourceFile) : Prop where
  isFile : t.at? f.path = some (.file f.body)
  isOpen : t.IsOpen f.path
  hasExtension : ∃ name, f.path.getLast? = some name ∧
    HasSourceExtension config.extensions name
  notExcluded : ∀ name ∈ f.path, ¬ Excludes config.excluded name

/-- A file that a scan looks at, in a tree that stands at some path itself. -/
def FileTree.Lists (t : FileTree) (config : ScanConfig) (path : List String)
    (f : SourceFile) : Prop :=
  ∃ rest, f.path = path ++ rest ∧ t.at? rest = some (.file f.body) ∧ t.IsOpen rest ∧
    (∃ name, f.path.getLast? = some name ∧ HasSourceExtension config.extensions name) ∧
    ∀ name ∈ rest, ¬ Excludes config.excluded name

section Trees

open FileTree

variable {config : ScanConfig} {f : SourceFile} {path : List String}

theorem FileTree.isOpen_nil_iff {t : FileTree} : t.IsOpen [] ↔ t.denied = none := by
  constructor
  · intro h
    exact h [] List.prefix_rfl
  · intro h place hplace
    rwa [List.prefix_nil.1 hplace, at?_nil, Option.bind_some]

theorem FileTree.isOpen_cons_iff {t : FileTree} {name : String} {rest : List String} :
    t.IsOpen (name :: rest) ↔
      t.denied = none ∧ ∀ u, t.child? name = some u → u.IsOpen rest := by
  constructor
  · intro h
    refine ⟨h [] List.nil_prefix, fun u hu place hplace => ?_⟩
    have hbelow := h (name :: place) (List.cons_prefix_cons.2 ⟨rfl, hplace⟩)
    rwa [at?_cons, hu] at hbelow
  · rintro ⟨htop, hbelow⟩ place hplace
    rcases List.prefix_cons_iff.1 hplace with rfl | ⟨front, rfl, hfront⟩
    · exact htop
    · rw [at?_cons]
      cases hchild : t.child? name with
      | none => rfl
      | some u => exact hbelow u hchild front hfront

/-- Trees with the same entries have the same sources. -/
theorem FileTree.SameEntries.isSource {t t' : FileTree} (h : t.SameEntries t')
    (hsource : t.IsSource config f) : t'.IsSource config f where
  isFile := h.at?_file_iff.1 hsource.isFile
  isOpen := fun place hplace => (h.denied_eq place).symm.trans (hsource.isOpen place hplace)
  hasExtension := hsource.hasExtension
  notExcluded := hsource.notExcluded

theorem FileTree.lists_nil_iff {t : FileTree} : t.Lists config [] f ↔ t.IsSource config f := by
  constructor
  · rintro ⟨rest, hpath, hat, hopen, hext, hnames⟩
    rw [List.nil_append] at hpath
    exact ⟨hpath ▸ hat, hpath ▸ hopen, hext, hpath ▸ hnames⟩
  · rintro ⟨hat, hopen, hext, hnames⟩
    exact ⟨f.path, rfl, hat, hopen, hext, hnames⟩

theorem FileTree.lists_file_iff {body : FileBody} {name : String} :
    (FileTree.file body).Lists config (path ++ [name]) f ↔
      f = ⟨path ++ [name], body⟩ ∧ HasSourceExtension config.extensions name := by
  constructor
  · rintro ⟨rest, hpath, hat, -, ⟨last, hlast, hext⟩, -⟩
    cases rest with
    | nil =>
      rw [List.append_nil] at hpath
      rw [hpath, List.getLast?_concat] at hlast
      injection hlast with hlast
      rw [at?_nil] at hat
      injection hat with hat
      injection hat with hat
      refine ⟨?_, hlast ▸ hext⟩
      cases f
      cases hpath
      cases hat
      rfl
    | cons next rest =>
      rw [at?_cons_of_children rfl] at hat
      cases hat
  · rintro ⟨rfl, hext⟩
    exact ⟨[], by simp, at?_nil _, isOpen_nil_iff.2 rfl, ⟨name, by simp, hext⟩, by simp⟩

theorem FileTree.not_lists_link {target : String} :
    ¬ (FileTree.link target).Lists config path f := by
  rintro ⟨rest, -, hat, -⟩
  cases rest with
  | nil =>
    rw [at?_nil] at hat
    cases hat
  | cons next rest =>
    rw [at?_cons_of_children rfl] at hat
    cases hat

theorem FileTree.not_lists_denied {error : SystemError} {cs : List (String × FileTree)} :
    ¬ (FileTree.directory (some error) cs).Lists config path f := by
  rintro ⟨rest, -, -, hopen, -⟩
  cases hopen [] List.nil_prefix

theorem FileTree.not_lists_empty : ¬ (FileTree.directory none []).Lists config path f := by
  rintro ⟨rest, -, hat, -⟩
  cases rest with
  | nil =>
    rw [at?_nil] at hat
    cases hat
  | cons next rest =>
    rw [at?_cons_of_children rfl] at hat
    cases hat

/-- The files in a directory are those in its first child and those in the others. -/
theorem FileTree.lists_cons_iff {name : String} {t : FileTree}
    {cs : List (String × FileTree)} (hname : name ∉ cs.map Prod.fst) :
    (FileTree.directory none ((name, t) :: cs)).Lists config path f ↔
      (¬ Excludes config.excluded name ∧ t.Lists config (path ++ [name]) f) ∨
        (FileTree.directory none cs).Lists config path f := by
  have hother : ∀ first, first ≠ name →
      (directory none ((name, t) :: cs)).child? first = (directory none cs).child? first := by
    intro first hfirst
    have hne : first ∉ [(name, t)].map Prod.fst := by simpa using hfirst
    exact child?_append hne none cs
  -- whether the first name on the way is that of the first child
  have hrest : ∀ first rest, first ≠ name →
      ((directory none ((name, t) :: cs)).IsOpen (first :: rest) ↔
        (directory none cs).IsOpen (first :: rest)) := by
    intro first rest hfirst
    rw [isOpen_cons_iff, isOpen_cons_iff, hother first hfirst]
    rfl
  have hfirst : ∀ rest, (directory none ((name, t) :: cs)).IsOpen (name :: rest) ↔
      t.IsOpen rest := by
    intro rest
    rw [isOpen_cons_iff, child?_cons_self]
    simp [denied]
  constructor
  · rintro ⟨rest, hpath, hat, hopen, hext, hnames⟩
    cases rest with
    | nil =>
      rw [at?_nil] at hat
      cases hat
    | cons first rest =>
      rw [at?_cons] at hat
      by_cases hsame : first = name
      · subst hsame
        rw [child?_cons_self, Option.bind_some] at hat
        exact .inl ⟨hnames first List.mem_cons_self, rest, by simpa using hpath, hat,
          (hfirst rest).1 hopen, hext, fun n hn => hnames n (List.mem_cons_of_mem _ hn)⟩
      · rw [hother first hsame, ← at?_cons] at hat
        exact .inr ⟨first :: rest, hpath, hat, (hrest first rest hsame).1 hopen, hext, hnames⟩
  · rintro (⟨hkept, rest, hpath, hat, hopen, hext, hnames⟩ |
      ⟨rest, hpath, hat, hopen, hext, hnames⟩)
    · refine ⟨name :: rest, by simpa using hpath, ?_, (hfirst rest).2 hopen, hext, ?_⟩
      · rw [at?_cons, child?_cons_self, Option.bind_some, hat]
      · intro n hn
        rcases List.mem_cons.1 hn with rfl | hn
        · exact hkept
        · exact hnames n hn
    · cases rest with
      | nil =>
        rw [at?_nil] at hat
        cases hat
      | cons first rest =>
        have hdiffers : first ≠ name := by
          rintro rfl
          have hnone : (directory none cs).child? first = none := by
            rw [child?_directory, find?_eq_none_of_not_mem hname]
            rfl
          rw [at?_cons, hnone] at hat
          cases hat
        refine ⟨first :: rest, hpath, ?_, (hrest first rest hdiffers).2 hopen, hext, hnames⟩
        rw [at?_cons, hother first hdiffers, ← at?_cons, hat]

end Trees

/-! ## Walks -/

namespace Walk

variable {w : Walk}

/-- A walk for which ignore files do not count and literal names are left out. -/
structure IsLiteral (w : Walk) : Prop where
  root : w.root ≠ ""
  respects : w.config.respectsIgnoreFiles = false
  names : ∀ name ∈ w.config.excluded, ScriptInventory.IsLiteral name
  rules : w.excluded = w.config.excluded.flatMap rulesOfName

/-- No name that is looked at in front of the walk is excluded. -/
def KeepsFront (w : Walk) : Prop :=
  ∀ name ∈ Ignore.namesInFront w.root, ¬ Excludes w.config.excluded name

/-- The names behind the root of a walk: they are names of files, and none is excluded. -/
structure IsKept (w : Walk) (path : List String) : Prop where
  isFileName : ∀ n ∈ path, FileTree.IsFileName n
  notExcluded : ∀ n ∈ path, ¬ Excludes w.config.excluded n

theorem isKept_nil (w : Walk) : w.IsKept [] := ⟨by simp, by simp⟩

theorem IsKept.concat {path : List String} {name : String} (h : w.IsKept path)
    (hname : FileTree.IsFileName name) (hkept : ¬ Excludes w.config.excluded name) :
    w.IsKept (path ++ [name]) := by
  constructor
  · intro n hn
    rcases List.mem_append.1 hn with hn | hn
    · exact h.isFileName n hn
    · rwa [List.mem_singleton.1 hn]
  · intro n hn
    rcases List.mem_append.1 hn with hn | hn
    · exact h.notExcluded n hn
    · rwa [List.mem_singleton.1 hn]

/-- Such a walk leaves out the entries on whose path a name is excluded, be it in front of
the walk or behind. -/
theorem IsLiteral.skips_iff (hw : w.IsLiteral) (levels : List Ignore.Level)
    (place : List String) {path : List String} (hne : path ≠ [])
    (hpath : ∀ n ∈ path, FileTree.IsFileName n) (name : String) (isDirectory : Bool) :
    w.skips levels place path name isDirectory = true ↔
      (∃ n ∈ Ignore.namesInFront w.root, Excludes w.config.excluded n) ∨
        ∃ n ∈ path, Excludes w.config.excluded n := by
  rw [skips, hw.respects, Bool.false_and, Bool.or_false, hw.rules, spelled,
    if_neg (by simpa using hne),
    Ignore.verdict?_seenFrom_isSome_iff hw.names hw.root hne hpath]

/-- A directory or file is left out if its own name is excluded, where no name in front
of it is. -/
theorem IsLiteral.skips_concat_iff (hw : w.IsLiteral) (hfront : w.KeepsFront)
    (levels : List Ignore.Level) (place : List String) {path : List String} {name : String}
    (hpath : w.IsKept path) (hname : FileTree.IsFileName name) (isDirectory : Bool) :
    w.skips levels place (path ++ [name]) name isDirectory = true ↔
      Excludes w.config.excluded name := by
  have hnames : ∀ n ∈ path ++ [name], FileTree.IsFileName n := by
    intro n hn
    rcases List.mem_append.1 hn with hn | hn
    · exact hpath.isFileName n hn
    · rwa [List.mem_singleton.1 hn]
  rw [hw.skips_iff levels place (by simp) hnames]
  constructor
  · rintro (⟨n, hn, hexcluded⟩ | ⟨n, hn, hexcluded⟩)
    · exact absurd hexcluded (hfront n hn)
    · rcases List.mem_append.1 hn with hn | hn
      · exact absurd hexcluded (hpath.notExcluded n hn)
      · rwa [← List.mem_singleton.1 hn]
  · intro hexcluded
    exact .inr ⟨name, by simp, hexcluded⟩

mutual

/-- What a walk finds in an entry. -/
theorem mem_entry_iff (hw : w.IsLiteral) (hfront : w.KeepsFront) :
    ∀ (t : FileTree) (levels : List Ignore.Level) (place path : List String) (name : String),
      t.WellFormed → w.IsKept path → FileTree.IsFileName name → ∀ f,
        f ∈ w.entry levels place path name t ↔
          ¬ Excludes w.config.excluded name ∧ t.Lists w.config (path ++ [name]) f
  -- the walk keeps a file by two tests, which are those of `Lists`
  | .file body, levels, place, path, name, _, hpath, hname, f => by
    have hskips := hw.skips_concat_iff hfront levels (place ++ [name]) hpath hname false
    rw [entry, FileTree.lists_file_iff, ← hskips, ← hasExtension_iff]
    cases w.skips levels (place ++ [name]) (path ++ [name]) name false <;>
      cases hasExtension w.config.extensions name <;> simp
  -- what is no file and no directory that can be listed has no sources on either side
  | .link target, levels, place, path, name, _, _, _, f => by
    rw [entry]
    constructor
    · intro h
      cases h
    · rintro ⟨-, h⟩
      exact absurd h FileTree.not_lists_link
  | .directory (some error) children, levels, place, path, name, _, _, _, f => by
    rw [entry]
    constructor
    · intro h
      cases h
    · rintro ⟨-, h⟩
      exact absurd h FileTree.not_lists_denied
  | .directory none children, levels, place, path, name, hwf, hpath, hname, f => by
    have hskips := hw.skips_concat_iff hfront levels (place ++ [name]) hpath hname true
    rw [entry]
    -- a walk does not go down into what is excluded, and `Lists` has no way through it
    by_cases hexcluded : Excludes w.config.excluded name
    · rw [if_pos (hskips.2 hexcluded)]
      constructor
      · intro h
        cases h
      · rintro ⟨h, -⟩
        exact absurd hexcluded h
    · rw [if_neg (fun h => hexcluded (hskips.1 h))]
      simp only [hexcluded, not_false_eq_true, true_and]
      exact mem_entries_iff hw hfront children _ _ _ hwf (hpath.concat hname hexcluded) f

/-- What a walk finds in the entries of a directory. -/
theorem mem_entries_iff (hw : w.IsLiteral) (hfront : w.KeepsFront) :
    ∀ (cs : List (String × FileTree)) (levels : List Ignore.Level) (place path : List String),
      (FileTree.directory none cs).WellFormed → w.IsKept path → ∀ f,
        f ∈ w.entries levels place path cs ↔
          (FileTree.directory none cs).Lists w.config path f
  | [], levels, place, path, _, _, f => by
    rw [entries_nil]
    constructor
    · intro h
      cases h
    · intro h
      exact absurd h FileTree.not_lists_empty
  | (name, t) :: rest, levels, place, path, hwf, hpath, f => by
    obtain ⟨hname, hfile, hfirst, hrest⟩ := hwf.of_cons
    rw [entries, List.mem_append, FileTree.lists_cons_iff hname,
      mem_entry_iff hw hfront t levels place path name hfirst hpath hfile,
      mem_entries_iff hw hfront rest levels place path hrest hpath]

end

/-- If a name in front of the walk is excluded, nothing is found. -/
theorem entries_eq_nil_of_excluded_front (hw : w.IsLiteral)
    (hfront : ∃ n ∈ Ignore.namesInFront w.root, Excludes w.config.excluded n)
    (levels : List Ignore.Level) (place : List String) {cs : List (String × FileTree)}
    (hnames : ∀ c ∈ cs, FileTree.IsFileName c.1) : w.entries levels place [] cs = [] := by
  have hskips : ∀ name, FileTree.IsFileName name → ∀ isDirectory,
      w.skips levels (place ++ [name]) ([] ++ [name]) name isDirectory = true := by
    intro name hname isDirectory
    exact (hw.skips_iff levels _ (by simp) (by simpa using hname) name isDirectory).2
      (.inl hfront)
  induction cs with
  | nil => rw [entries_nil]
  | cons c rest ih =>
    obtain ⟨name, t⟩ := c
    have hname : FileTree.IsFileName name := hnames _ List.mem_cons_self
    have hnone : w.entry levels place [] name t = [] := by
      rcases t with body | target | ⟨_ | error, children⟩
      · rw [entry, hskips name hname]
        simp
      · rw [entry]
      · rw [entry]
        simp only [hskips name hname, if_true]
      · rw [entry]
    rw [entries, hnone, List.nil_append, ih fun c hc => hnames c (List.mem_cons_of_mem _ hc)]

mutual

/-- A walk finds no path twice in an entry, and the paths go through the entry. -/
theorem nodup_paths_entry (w : Walk) :
    ∀ (t : FileTree) (levels : List Ignore.Level) (place path : List String) (name : String),
      t.WellFormed → ((w.entry levels place path name t).map SourceFile.path).Nodup ∧
        ∀ f ∈ w.entry levels place path name t, path ++ [name] <+: f.path
  | .file body, levels, place, path, name, _ => by
    rw [entry]
    split <;> simp
  | .link target, levels, place, path, name, _ => by
    rw [entry]
    simp
  | .directory (some error) children, levels, place, path, name, _ => by
    rw [entry]
    simp
  | .directory none children, levels, place, path, name, hwf => by
    rw [entry]
    split
    · simp
    · obtain ⟨hnodup, hpaths⟩ := nodup_paths_entries w children _ _ (path ++ [name]) hwf
      refine ⟨hnodup, ?_⟩
      intro f hf
      obtain ⟨child, -, hprefix⟩ := hpaths f hf
      exact (List.prefix_append _ _).trans hprefix

/-- A walk finds no path twice in a directory, and the paths go through its children. -/
theorem nodup_paths_entries (w : Walk) :
    ∀ (cs : List (String × FileTree)) (levels : List Ignore.Level) (place path : List String),
      (FileTree.directory none cs).WellFormed →
        ((w.entries levels place path cs).map SourceFile.path).Nodup ∧
        ∀ f ∈ w.entries levels place path cs, ∃ name ∈ cs.map Prod.fst,
          path ++ [name] <+: f.path
  | [], levels, place, path, _ => by simp
  | (name, t) :: rest, levels, place, path, hwf => by
    obtain ⟨hname, -, hfirstWf, hrestWf⟩ := hwf.of_cons
    obtain ⟨hfirst, hfirstPaths⟩ := nodup_paths_entry w t levels place path name hfirstWf
    obtain ⟨hothers, hotherPaths⟩ := nodup_paths_entries w rest levels place path hrestWf
    rw [entries]
    constructor
    · rw [List.map_append, List.nodup_append]
      refine ⟨hfirst, hothers, ?_⟩
      -- a path that went through two children would give them one name
      rintro p hp q hq rfl
      obtain ⟨f, hf, rfl⟩ := List.mem_map.1 hp
      obtain ⟨g, hg, hgf⟩ := List.mem_map.1 hq
      obtain ⟨other, hother, hprefix⟩ := hotherPaths g hg
      rw [hgf] at hprefix
      have hsame := List.prefix_of_prefix_length_le (hfirstPaths f hf) hprefix (by simp)
      have heq : path ++ [name] = path ++ [other] := hsame.eq_of_length (by simp)
      have hnameEq : name = other := by simpa using heq
      exact hname (hnameEq ▸ hother)
    · intro f hf
      rcases List.mem_append.1 hf with hf | hf
      · exact ⟨name, by simp, hfirstPaths f hf⟩
      · obtain ⟨other, hother, hprefix⟩ := hotherPaths f hf
        exact ⟨other, by simp [hother], hprefix⟩

end

end Walk

/-! ## Sources -/

namespace FileSystem

variable {s : FileSystem} {root : String} {config : ScanConfig} {top : List String}
  {children : List (String × FileTree)}

theorem ne_empty_of_place (h : s.place root = .ok top) : root ≠ "" := by
  rintro rfl
  cases h

/-- The walk of a scan for which ignore files do not count and literal names are left out. -/
theorem isLiteral_walk (htop : s.place root = .ok top)
    (hrespects : config.respectsIgnoreFiles = false)
    (hliteral : ∀ name ∈ config.excluded, IsLiteral name) :
    (s.walk root config (config.excluded.flatMap rulesOfName)).IsLiteral :=
  ⟨ne_empty_of_place htop, hrespects, hliteral, rfl⟩

/-- The sources of a directory are the files that the tree lists, in strict order. -/
theorem sources_eq_listed (hwf : s.root.WellFormed) (htop : s.place root = .ok top)
    (hat : s.root.at? top = some (.directory none children))
    (hinput : isStandardInput root = false)
    (hfront : ∀ name ∈ Ignore.namesInFront root, ¬ Excludes config.excluded name)
    (hrespects : config.respectsIgnoreFiles = false)
    (hliteral : ∀ name ∈ config.excluded, IsLiteral name) :
    ∃ sources, s.sources root config = .ok sources ∧
      (∀ f, f ∈ sources ↔ (FileTree.directory none children).IsSource config f) ∧
      sources.Pairwise fun f g => f.path < g.path := by
  have hdirectory : (FileTree.directory none children).WellFormed := hwf.at? hat
  have hwalk := isLiteral_walk htop hrespects hliteral
  refine ⟨_, sources_eq_ok_iff.2 ⟨top, children, _, htop, hat,
    exclusions_of_literal root hliteral, rfl⟩, ?_, ?_⟩
  · intro f
    rw [List.mem_mergeSort, found, if_neg (by simp [hinput]), ← FileTree.lists_nil_iff]
    exact Walk.mem_entries_iff hwalk hfront children _ _ _ hdirectory (Walk.isKept_nil _) f
  · rw [found, if_neg (by simp [hinput])]
    exact SourceFile.pairwise_lt_mergeSort
      (Walk.nodup_paths_entries _ children _ _ _ hdirectory).1

/-- **A scan lists the sources of a directory.** Where ignore files do not count and the
excluded names are literal, the sources of a directory that can be listed are the files in
it, to any depth and not through links, that have an extension of scripts and no excluded
name on their path, their own included. They stand in strict order of their paths, name by
name. And it does not matter in which order directories are enumerated. The path of the
directory must not be that of standard input, and if two single dots are in front of it, no
name of its own may be excluded. -/
theorem sources_are_listed (hwf : s.root.WellFormed) (htop : s.place root = .ok top)
    (hat : s.root.at? top = some (.directory none children))
    (hinput : isStandardInput root = false)
    (hfront : ∀ name ∈ Ignore.namesInFront root, ¬ Excludes config.excluded name)
    (hrespects : config.respectsIgnoreFiles = false)
    (hliteral : ∀ name ∈ config.excluded, IsLiteral name) :
    ∃ sources, s.sources root config = .ok sources ∧
      (∀ f, f ∈ sources ↔ (FileTree.directory none children).IsSource config f) ∧
      (sources.Pairwise fun f g => f.path < g.path) ∧
      ∀ s' : FileSystem, s'.here = s.here → FileTree.Reordered s.root s'.root →
        s'.sources root config = .ok sources := by
  obtain ⟨sources, hsources, hmem, hsorted⟩ :=
    sources_eq_listed hwf htop hat hinput hfront hrespects hliteral
  refine ⟨sources, hsources, hmem, hsorted, ?_⟩
  intro s' hhere hreordered
  have hsame := hreordered.sameEntries hwf
  have htop' : s'.place root = .ok top :=
    (place_eq_of_reordered hwf hhere hreordered root).trans htop
  obtain ⟨children', hat'⟩ := hsame.sameOutline.at?_directory hat
  obtain ⟨sources', hsources', hmem', hsorted'⟩ :=
    sources_eq_listed (hreordered.wellFormed hwf) htop' hat' hinput hfront hrespects hliteral
  -- both lists have the files that are at the same places of the two trees
  have hbelow : FileTree.SameEntries (.directory none children) (.directory none children') := by
    intro place
    have hplace := hsame (top ++ place)
    rwa [FileTree.at?_append, FileTree.at?_append, hat, hat', Option.bind_some,
      Option.bind_some] at hplace
  have heq : sources' = sources := by
    refine SourceFile.eq_of_mem_iff hsorted' hsorted fun f => ?_
    rw [hmem', hmem]
    exact ⟨hbelow.symm.isSource, hbelow.isSource⟩
  rw [hsources', heq]

def permissionDenied : SystemError := ⟨13, "Permission denied"⟩

/-- A directory with a link, a hidden script, and three directories with a script each: one
cannot be read, and one is in a directory that cannot be listed. -/
def shelf : FileSystem where
  root := .directory none [("lib", .directory none [("c.js", .file (.readable .empty))]),
    ("app", .directory none [("link.js", .link "b.js"),
      ("b.js", .file (.refused 7 permissionDenied))]),
    ("tmp", .directory (some permissionDenied) [("d.js", .file (.readable .empty))]),
    (".a.JS", .file (.readable .empty))]
  here := []

/-- All but one of the directories of the shelf count. -/
def withoutLib : ScanConfig := { excluded := [" lib/ ", "/"] }

theorem shelf_wellFormed : shelf.root.WellFormed := by
  simp [shelf, FileTree.IsFileName]

theorem bareName_withoutLib : bareName " lib/ " = "lib".toList ∧ bareName "/" = [] := by
  decide

theorem isLiteral_withoutLib : ∀ name ∈ withoutLib.excluded, IsLiteral name := by
  intro name hname
  simp only [withoutLib, List.mem_cons, List.not_mem_nil, or_false] at hname
  rcases hname with rfl | rfl
  · have hblank : Text.isWhiteSpace 'b' = false := by decide
    constructor <;> simp [bareName_withoutLib.1, Glob.special, hblank]
  · constructor <;> simp [bareName_withoutLib.2]

theorem excludes_withoutLib_iff {name : String} :
    Excludes withoutLib.excluded name ↔ name = "lib" := by
  rw [← String.toList_inj]
  simp [Excludes, withoutLib, bareName_withoutLib]

theorem namesInFront_dot : Ignore.namesInFront "." = [""] := by
  simp [Ignore.namesInFront, Ignore.seenOfRoot, pathParts]

/-- The script on the shelf that cannot be read is a source nevertheless, unless a name on its
path is excluded. -/
theorem shelf_isSource {config : ScanConfig}
    (hext : hasExtension config.extensions "b.js")
    (hkept : ∀ n ∈ ["app", "b.js"], ¬ Excludes config.excluded n) :
    shelf.root.IsSource config ⟨["app", "b.js"], .refused 7 permissionDenied⟩ := by
  refine ⟨?_, ?_, ⟨"b.js", rfl, hasExtension_iff.1 hext⟩, hkept⟩
  · simp [shelf, FileTree.at?_cons, FileTree.child?_directory]
  · simp [shelf, FileTree.isOpen_cons_iff, FileTree.isOpen_nil_iff, FileTree.child?_directory,
      FileTree.denied]

/-- The shelf has two sources, whichever of its directories is enumerated first, and one of
them cannot be read. The link and what is in the excluded directory are none, and neither is
what cannot be listed. -/
theorem sources_of_shelf :
    ∃ sources, shelf.sources "." withoutLib = .ok sources ∧
      (sources.Pairwise fun f g => f.path < g.path) ∧
      ⟨[".a.JS"], .readable .empty⟩ ∈ sources ∧
      ⟨["app", "b.js"], .refused 7 permissionDenied⟩ ∈ sources ∧
      (∀ f ∈ sources, f.path ≠ ["app", "link.js"] ∧ f.path ≠ ["lib", "c.js"] ∧
        f.path ≠ ["tmp", "d.js"]) ∧
      FileSystem.sources ⟨.directory none shelf.root.children.reverse, [], none⟩ "."
        withoutLib = .ok sources := by
  obtain ⟨sources, hsources, hmem, hsorted, hreordered⟩ :=
    sources_are_listed shelf_wellFormed (place_dot (FileTree.at?_nil shelf.root))
      (FileTree.at?_nil shelf.root) isStandardInput_dot
      (by simp [namesInFront_dot, excludes_withoutLib_iff]) rfl isLiteral_withoutLib
  have hext : hasExtension withoutLib.extensions ".a.JS" ∧
      hasExtension withoutLib.extensions "b.js" := by decide
  refine ⟨sources, hsources, hsorted, (hmem _).2 ⟨?_, ?_, ?_, ?_⟩,
    (hmem _).2 (shelf_isSource hext.2 (by simp [excludes_withoutLib_iff])), ?_,
    hreordered _ rfl (.children (List.reverse_perm _).symm)⟩
  · simp [FileTree.at?_cons, FileTree.child?_directory]
  · simp [FileTree.isOpen_cons_iff, FileTree.isOpen_nil_iff, FileTree.child?_directory,
      FileTree.denied]
  · exact ⟨".a.JS", rfl, hasExtension_iff.1 hext.1⟩
  · simp [excludes_withoutLib_iff]
  · intro f hf
    obtain ⟨hfile, hopen, -, hkept⟩ := (hmem f).1 hf
    refine ⟨?_, ?_, ?_⟩
    · -- a link is no file
      intro hpath
      simp [hpath, FileTree.at?_cons, FileTree.child?_directory] at hfile
    · -- `lib` is excluded
      intro hpath
      simp [hpath, excludes_withoutLib_iff] at hkept
    · -- `tmp` cannot be listed
      intro hpath
      simp [hpath, FileTree.isOpen_cons_iff, FileTree.child?_directory, FileTree.denied] at hopen

/-! ## Standard input -/

/-- The path of standard input has no sources, whatever is in the directory to which it
leads. -/
theorem sources_of_isStandardInput (htop : s.place root = .ok top)
    (hat : s.root.at? top = some (.directory none children))
    (hinput : isStandardInput root = true) (hliteral : ∀ name ∈ config.excluded, IsLiteral name) :
    s.sources root config = .ok [] := by
  refine sources_eq_ok_iff.2 ⟨top, children, _, htop, hat,
    exclusions_of_literal root hliteral, ?_⟩
  rw [found, if_pos hinput, List.mergeSort_nil]

/-- Files with a single directory, which has a script in it. -/
def inDirectory (name : String) : FileSystem where
  root := .directory none
    [(name, .directory none [("a.js", .file (.readable "class A {}".toUTF8))])]
  here := []

def loneScript : SourceFile := ⟨["a.js"], .readable "class A {}".toUTF8⟩

theorem inDirectory_wellFormed {name : String} (h : FileTree.IsFileName name) :
    (inDirectory name).root.WellFormed := by
  simpa [inDirectory, FileTree.IsFileName] using h

theorem inDirectory_at (name : String) :
    (inDirectory name).root.at? [name] =
      some (.directory none [("a.js", .file loneScript.body)]) := by
  simp [inDirectory, loneScript, FileTree.at?_cons, FileTree.child?_directory]

/-- The script is the source of its directory. -/
theorem loneScript_isSource_iff {config : ScanConfig}
    (hext : HasSourceExtension config.extensions "a.js")
    (hkept : ¬ Excludes config.excluded "a.js") (f : SourceFile) :
    (FileTree.directory none [("a.js", .file loneScript.body)]).IsSource config f ↔
      f = loneScript := by
  rw [← FileTree.lists_nil_iff, FileTree.lists_cons_iff (by simp), FileTree.lists_file_iff]
  simp [FileTree.not_lists_empty, hext, hkept, loneScript]

theorem hasSourceExtension_js : HasSourceExtension ({} : ScanConfig).extensions "a.js" := by
  rw [← hasExtension_iff]
  decide

theorem dashed_place : (inDirectory "-").place "-" = .ok ["-"] := by
  rw [place, placeFrom, if_neg (by decide), start_of_slash_not_mem _ (by simp)]
  simp [follow_cons, hop, inDirectory, FileTree.at?_cons, FileTree.child?_directory, Hop.into]

theorem dashed_sources : (inDirectory "-").sources "-" {} = .ok [] :=
  sources_of_isStandardInput dashed_place (inDirectory_at "-")
    (by simp [isStandardInput, isPathOf, pathParts, List.splitOn_eq_singleton]) (by simp)

/-- A directory with the name of standard input is there, and so is the script in it, but
no source is found. -/
theorem standard_input_has_no_sources :
    (inDirectory "-").root.WellFormed ∧ (inDirectory "-").place "-" = .ok ["-"] ∧
      (inDirectory "-").root.at? ["-"] =
        some (.directory none [("a.js", .file loneScript.body)]) ∧
      (FileTree.directory none [("a.js", .file loneScript.body)]).IsSource {} loneScript ∧
      (inDirectory "-").sources "-" {} = .ok [] :=
  ⟨inDirectory_wellFormed (by simp [FileTree.IsFileName]), dashed_place, inDirectory_at "-",
    (loneScript_isSource_iff hasSourceExtension_js (not_excludes_nil _) _).2 rfl, dashed_sources⟩

/-! ## Two single dots in front -/

/-- A path with two single dots in front has no sources if one of its own names is excluded,
though none may be on the way from the directory to a file. -/
theorem sources_of_excluded_front (hwf : s.root.WellFormed) (htop : s.place root = .ok top)
    (hat : s.root.at? top = some (.directory none children))
    (hfront : ∃ name ∈ Ignore.namesInFront root, Excludes config.excluded name)
    (hrespects : config.respectsIgnoreFiles = false)
    (hliteral : ∀ name ∈ config.excluded, IsLiteral name) :
    s.sources root config = .ok [] := by
  have hdirectory : (FileTree.directory none children).WellFormed := hwf.at? hat
  have hnames := (FileTree.wellFormed_directory_iff.1 hdirectory).2.1
  refine sources_eq_ok_iff.2 ⟨top, children, _, htop, hat,
    exclusions_of_literal root hliteral, ?_⟩
  rw [found]
  split
  · rw [List.mergeSort_nil]
  · rw [Walk.entries_eq_nil_of_excluded_front (isLiteral_walk htop hrespects hliteral) hfront _ _
      hnames, List.mergeSort_nil]

/-- The name of the directory itself is excluded. -/
def withoutSrc : ScanConfig := { excluded := ["src"] }

theorem bareName_src : bareName "src" = "src".toList := by
  decide

theorem excludes_withoutSrc_iff {name : String} :
    Excludes withoutSrc.excluded name ↔ name = "src" := by
  rw [← String.toList_inj]
  simp [Excludes, withoutSrc, bareName_src]

theorem isLiteral_withoutSrc : ∀ name ∈ withoutSrc.excluded, IsLiteral name := by
  have hblank : Text.isWhiteSpace 'c' = false := by decide
  intro name hname
  obtain rfl : name = "src" := by simpa [withoutSrc] using hname
  constructor <;> simp [bareName_src, Glob.special, hblank]

theorem dotted_place : (inDirectory "src").place "././src" = .ok ["src"] := by
  have hstart : start [] "././src" = ([], [".", ".", "src"]) := by
    simp [start, String.startsWith_string_iff, pathParts, List.splitOn_cons_eq_if_modifyHead]
  rw [place, placeFrom, if_neg (by decide), show (inDirectory "src").here = [] from rfl, hstart]
  simp [follow_cons, hop, inDirectory, FileTree.at?_cons, FileTree.child?_directory, Hop.into]

/-- The script below the directory has no excluded name on its path, but no source is found
where the directory has two single dots in front. -/
theorem doubled_dots_have_no_sources :
    (FileTree.directory none [("a.js", .file loneScript.body)]).IsSource withoutSrc
        loneScript ∧
      (inDirectory "src").root.at? ["src"] =
        some (.directory none [("a.js", .file loneScript.body)]) ∧
      (inDirectory "src").place "././src" = .ok ["src"] ∧
      (inDirectory "src").sources "././src" withoutSrc = .ok [] := by
  have hext : HasSourceExtension withoutSrc.extensions "a.js" := hasSourceExtension_js
  have hkept : ¬ Excludes withoutSrc.excluded "a.js" := by
    rw [excludes_withoutSrc_iff]
    decide
  have hfront : "src" ∈ Ignore.namesInFront "././src" := by
    simp [Ignore.namesInFront, Ignore.seenOfRoot, pathParts, List.splitOn_cons_eq_if_modifyHead]
  exact ⟨(loneScript_isSource_iff hext hkept _).2 rfl, inDirectory_at "src", dotted_place,
    sources_of_excluded_front (inDirectory_wellFormed (by simp [FileTree.IsFileName]))
      dotted_place (inDirectory_at "src") ⟨"src", hfront, excludes_withoutSrc_iff.2 rfl⟩ rfl
      isLiteral_withoutSrc⟩

end FileSystem

end ScriptInventory
