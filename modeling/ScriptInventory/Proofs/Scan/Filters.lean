import ScriptInventory.Proofs.Scan.Listing

/-!
# Filters

The settings of a scan only take sources away. Main statement: what a scan finds is a
sublist of what it finds with more extensions, with fewer excluded names, whatever globs
they are, or without ignore files, and the limit of sizes has no influence on it
(`FileSystem.sources_sublist`).

The rules for excluded names make this so. The last rule that holds for an entry counts,
and in general one rule can take back what an earlier one says; but all rules for excluded
names say the same (`Ignore.verdict?_exclusions`), and they are asked before the ignore
files, so that it only matters whether some rule holds.
-/

namespace ScriptInventory

/-! ## Rules for excluded names -/

namespace Ignore

theorem lineBody_cons {c : Char} (hc : Text.isWhiteSpace c = false) (rest : List Char) :
    ∃ body, lineBody (c :: rest) = c :: body := by
  unfold lineBody
  split
  · exact ⟨rest, rfl⟩
  · refine ⟨trimEnd rest, ?_⟩
    rw [trimEnd, trimEnd, List.reverse_cons, List.dropWhile_append]
    split
    · rename_i hblank
      rw [List.dropWhile_cons_of_neg (by simp [hc]), List.isEmpty_iff.1 hblank]
      rfl
    · rw [List.reverse_append]
      rfl

theorem ruleHead_exclamation (body : List Char) : (ruleHead ('!' :: body)).1 = .kept := by
  unfold ruleHead
  cases body with
  | nil => rfl
  | cons c rest =>
    by_cases hslash : c = '/'
    · subst hslash
      rfl
    · simp [hslash]

/-- What stands behind an exclamation mark is a rule with the second verdict. -/
theorem verdict_of_parse {lenient : Bool} {rest : List Char} {r : Rule}
    (h : Rule.parse lenient ('!' :: rest) = .ok (some r)) : r.verdict = .kept := by
  obtain ⟨body, hbody⟩ := lineBody_cons (by decide : Text.isWhiteSpace '!' = false) rest
  rw [Rule.parse, if_neg (by simp), hbody] at h
  simp only [bind, Except.bind, pure, Except.pure] at h
  split at h
  · cases h
  · injection h with h
    injection h with h
    rw [← h]
    exact ruleHead_exclamation body

end Ignore

/-- The line of a rule for an excluded name begins with an exclamation mark. -/
theorem exists_exclamation {name line : String} (h : line ∈ exclusionRules name) :
    ∃ rest, line.toList = '!' :: rest := by
  rw [exclusionRules_eq] at h
  split at h
  · cases h
  · simp only [List.mem_cons, List.not_mem_nil, or_false] at h
    rcases h with rfl | rfl <;> simp

/-- All rules for excluded names have the second verdict. -/
theorem verdict_of_mem_exclusions {root : String} {names : List String}
    {rules : List Ignore.Rule} (h : exclusions root names = .ok rules) {r : Ignore.Rule}
    (hr : r ∈ rules) : r.verdict = .kept := by
  obtain ⟨line, hline, hread⟩ := (mem_exclusions_iff h).1 hr
  obtain ⟨name, -, hmem⟩ := List.mem_flatMap.1 hline
  obtain ⟨rest, hrest⟩ := exists_exclamation hmem
  rw [readExclusion, hrest] at hread
  cases hparse : Ignore.Rule.parse false ('!' :: rest) with
  | error e =>
    rw [hparse] at hread
    cases hread
  | ok parsed =>
    rw [hparse] at hread
    cases hread
    exact Ignore.verdict_of_parse hparse

/-- Whichever rule for excluded names is the last one that holds for a path, it stands behind
an exclamation mark, and that is how these rules leave something out. -/
theorem Ignore.verdict?_exclusions {root : String} {names : List String} {rules : List Rule}
    (h : exclusions root names = .ok rules) (path : List Char) (isDirectory : Bool) :
    verdict? rules path isDirectory ≠ some .ignored := by
  intro hverdict
  unfold verdict? at hverdict
  obtain ⟨r, hfind, hr⟩ := Option.map_eq_some_iff.1 hverdict
  have hmem : r ∈ rules := List.mem_reverse.1 (List.mem_of_find?_eq_some hfind)
  rw [verdict_of_mem_exclusions h hmem] at hr
  cases hr

/-! ## Narrower settings -/

theorem hasExtension_mono {few many : List String} (h : few ⊆ many) {name : String}
    (hname : hasExtension few name = true) : hasExtension many name = true := by
  rw [hasExtension_iff] at hname ⊢
  obtain ⟨stem, extension, hstem, hne, hdot, hlower, e, he, hsame⟩ := hname
  exact ⟨stem, extension, hstem, hne, hdot, hlower, e, h he, hsame⟩

/-- Settings that look at no more files than others: they have no further extensions,
exclude no fewer names and respect ignore files if the others do. -/
structure ScanConfig.IsNarrower (narrow wide : ScanConfig) : Prop where
  extensions : narrow.extensions ⊆ wide.extensions
  excluded : wide.excluded ⊆ narrow.excluded
  ignoreFiles : wide.respectsIgnoreFiles = true → narrow.respectsIgnoreFiles = true

namespace Walk

/-- A walk of the same files under narrower settings, with no fewer rules for what is left
out. -/
structure IsNarrower (narrow wide : Walk) : Prop where
  files : narrow.files = wide.files
  root : narrow.root = wide.root
  user : narrow.user = wide.user
  config : narrow.config.IsNarrower wide.config
  excluded : wide.excluded ⊆ narrow.excluded

/-- The ignore files on the way to an entry are the same for both walks, as far as they
matter to the wider one. -/
def SameLevels (wide : Walk) (levels levels' : List Ignore.Level) : Prop :=
  wide.config.respectsIgnoreFiles = true → levels = levels'

variable {narrow wide : Walk} {levels levels' : List Ignore.Level}

theorem IsNarrower.spelled (h : narrow.IsNarrower wide) (path : List String) :
    narrow.spelled path = wide.spelled path := by
  rw [Walk.spelled, Walk.spelled, h.root]

/-- What the wider walk leaves out, the narrower one leaves out too. -/
theorem IsNarrower.skips (h : narrow.IsNarrower wide) (hlevels : wide.SameLevels levels levels')
    {place path : List String} {name : String} {isDirectory : Bool}
    (hskips : wide.skips levels' place path name isDirectory = true) :
    narrow.skips levels place path name isDirectory = true := by
  rw [Walk.skips, Bool.or_eq_true, Bool.and_eq_true] at hskips ⊢
  rw [h.root, h.spelled, h.user]
  rcases hskips with hrules | ⟨hrespects, hjudged⟩
  · left
    obtain ⟨r, hr, hmatch⟩ := (verdict?_isSome _ _ _).1 hrules
    exact (verdict?_isSome _ _ _).2 ⟨r, h.excluded hr, hmatch⟩
  · right
    rw [hlevels hrespects]
    exact ⟨h.config.ignoreFiles hrespects, hjudged⟩

/-- So do the ignore files on the way to the entries of a directory. -/
theorem IsNarrower.push (h : narrow.IsNarrower wide) (hlevels : wide.SameLevels levels levels')
    (place path : List String) :
    wide.SameLevels (narrow.push place path levels) (wide.push place path levels') := by
  intro hrespects
  rw [Walk.push, Walk.push, if_pos hrespects, if_pos (h.config.ignoreFiles hrespects), h.files,
    h.spelled, hlevels hrespects]

/-- And so do those with which the walks start. -/
theorem IsNarrower.start (h : narrow.IsNarrower wide) (place : List String) :
    wide.SameLevels (narrow.start place) (wide.start place) := by
  refine h.push (fun hrespects => ?_) place []
  rw [if_pos hrespects, if_pos (h.config.ignoreFiles hrespects), h.files]

mutual

/-- What the narrower walk finds in an entry, the wider one finds in the same order. -/
theorem entry_sublist (h : narrow.IsNarrower wide) :
    ∀ (t : FileTree) (levels levels' : List Ignore.Level) (place path : List String)
      (name : String), wide.SameLevels levels levels' →
        (narrow.entry levels place path name t).Sublist (wide.entry levels' place path name t)
  -- a file that the narrower walk keeps is kept by the wider one
  | .file body, levels, levels', place, path, name, hlevels => by
    rw [entry, entry]
    by_cases hkept : hasExtension narrow.config.extensions name = true ∧
        narrow.skips levels (place ++ [name]) (path ++ [name]) name false = false
    · have hext := hasExtension_mono h.config.extensions hkept.1
      have hkept' : wide.skips levels' (place ++ [name]) (path ++ [name]) name false = false := by
        rw [Bool.eq_false_iff]
        intro hskips
        rw [h.skips hlevels hskips] at hkept
        cases hkept.2
      rw [if_pos (by simp [hkept]), if_pos (by simp [hext, hkept'])]
    · rw [if_neg (by simpa using hkept)]
      exact List.nil_sublist _
  | .link target, levels, levels', place, path, name, _ => by
    rw [entry]
    exact List.nil_sublist _
  | .directory (some error) children, levels, levels', place, path, name, _ => by
    rw [entry]
    exact List.nil_sublist _
  | .directory none children, levels, levels', place, path, name, hlevels => by
    rw [entry, entry]
    -- a directory that the wider walk skips, the narrower one skips too
    by_cases hskips : wide.skips levels' (place ++ [name]) (path ++ [name]) name true = true
    · rw [if_pos hskips, if_pos (h.skips hlevels hskips)]
    · rw [if_neg hskips]
      split
      · exact List.nil_sublist _
      · exact entries_sublist h children _ _ _ _ (h.push hlevels _ _)

/-- What the narrower walk finds in a directory, the wider one finds in the same order. -/
theorem entries_sublist (h : narrow.IsNarrower wide) :
    ∀ (cs : List (String × FileTree)) (levels levels' : List Ignore.Level)
      (place path : List String), wide.SameLevels levels levels' →
        (narrow.entries levels place path cs).Sublist (wide.entries levels' place path cs)
  | [], levels, levels', place, path, _ => by
    rw [entries]
    exact List.nil_sublist _
  | (name, t) :: rest, levels, levels', place, path, hlevels => by
    rw [entries, entries]
    exact (entry_sublist h t levels levels' place path name hlevels).append
      (entries_sublist h rest levels levels' place path hlevels)

end

end Walk

/-! ## Sources under narrower settings -/

namespace FileSystem

variable {s : FileSystem} {root : String}

theorem found_sublist {narrow wide : ScanConfig} (h : narrow.IsNarrower wide)
    {excluded fewer : List Ignore.Rule} (hfewer : fewer ⊆ excluded) (top : List String)
    (children : List (String × FileTree)) :
    (s.found root narrow excluded top children).Sublist
      (s.found root wide fewer top children) := by
  unfold found
  split
  · exact List.Sublist.refl _
  · have hwalk : (s.walk root narrow excluded).IsNarrower (s.walk root wide fewer) :=
      ⟨rfl, rfl, rfl, h, hfewer⟩
    exact Walk.entries_sublist hwalk children _ _ _ _ (hwalk.start top)

/-- The limit of sizes does not matter to what is found. -/
theorem sources_of_limit (s : FileSystem) (root : String) (config : ScanConfig) (limit : Nat) :
    s.sources root { config with maxFileBytes := limit } = s.sources root config := by
  have hfound : ∀ excluded top children,
      s.found root { config with maxFileBytes := limit } excluded top children =
        s.found root config excluded top children := by
    intro excluded top children
    -- settings that differ in the limit are narrower than each other
    have hforth : ({ config with maxFileBytes := limit } : ScanConfig).IsNarrower config :=
      ⟨List.Subset.refl _, List.Subset.refl _, id⟩
    have hback : config.IsNarrower { config with maxFileBytes := limit } :=
      ⟨List.Subset.refl _, List.Subset.refl _, id⟩
    exact (found_sublist hforth (List.Subset.refl _) top children).antisymm
      (found_sublist hback (List.Subset.refl _) top children)
  unfold FileSystem.sources
  cases htop : s.place root with
  | error e => rfl
  | ok top =>
    cases hat : s.root.at? top with
    | none => simp only [hat]
    | some t =>
      cases t with
      | file body => simp only [hat]
      | link target => simp only [hat]
      | directory denied children =>
        cases denied with
        | some error => simp only [hat]
        | none =>
          cases exclusions root config.excluded with
          | error e => simp only [hat, bind, Except.bind]
          | ok excluded =>
            simp only [hat, bind, Except.bind, pure, Except.pure]
            exact congrArg (fun l => Except.ok (l.mergeSort SourceFile.isInOrder))
              (hfound excluded top children)

/-- **Filters only take sources away.** A scan that succeeds under some settings succeeds
under wider ones, which have all their extensions, exclude no further names, whatever globs
they are, and respect ignore files only if the former do; and it finds there all that it
found, in the same order. The limit of sizes has no influence. And no rule for an excluded
name takes back what another one says. -/
theorem sources_sublist (s : FileSystem) (root : String) (narrow wide : ScanConfig) :
    (narrow.IsNarrower wide → ∀ sources, s.sources root narrow = .ok sources →
      ∃ more, s.sources root wide = .ok more ∧ sources.Sublist more) ∧
    (∀ limit, s.sources root { narrow with maxFileBytes := limit } = s.sources root narrow) ∧
    ∀ rules, exclusions root narrow.excluded = .ok rules → ∀ path isDirectory,
      Ignore.verdict? rules path isDirectory ≠ some .ignored := by
  refine ⟨?_, sources_of_limit s root narrow, fun rules => Ignore.verdict?_exclusions⟩
  intro h sources hsources
  obtain ⟨top, children, excluded, htop, hat, hex, rfl⟩ := sources_eq_ok_iff.1 hsources
  obtain ⟨fewer, hfewer, hsubset⟩ := exclusions_subset h.excluded hex
  refine ⟨_, sources_eq_ok_iff.2 ⟨top, children, fewer, htop, hat, hfewer, rfl⟩, ?_⟩
  exact (found_sublist h hsubset top children).mergeSort SourceFile.isInOrder_trans
    SourceFile.isInOrder_total

/-- Settings that are narrower than the default ones. -/
def scriptsButLib : ScanConfig := { withoutLib with extensions := ["js"] }

theorem scriptsButLib_isNarrower : scriptsButLib.IsNarrower {} := by
  constructor <;> simp [scriptsButLib, withoutLib]

/-- Under the default settings, the shelf has the sources that it has under narrower ones,
and the one below the directory that is excluded there. -/
theorem sources_of_shelf_grow :
    ∃ sources more, shelf.sources "." scriptsButLib = .ok sources ∧
      shelf.sources "." {} = .ok more ∧ sources.Sublist more ∧
      ⟨["app", "b.js"], .refused 7 permissionDenied⟩ ∈ sources ∧
      ⟨["lib", "c.js"], .readable .empty⟩ ∉ sources ∧
      ⟨["lib", "c.js"], .readable .empty⟩ ∈ more ∧
      shelf.sources "." { scriptsButLib with maxFileBytes := 0 } = .ok sources ∧
      ∃ rules, exclusions "." scriptsButLib.excluded = .ok rules ∧
        ∀ path isDirectory, Ignore.verdict? rules path isDirectory ≠ some .ignored := by
  have hplace := place_dot (FileTree.at?_nil shelf.root)
  -- both listings are known entry by entry; the sublist between them is what the theorem adds
  obtain ⟨sources, hsources, hmem, -⟩ := sources_eq_listed shelf_wellFormed hplace
    (FileTree.at?_nil shelf.root) isStandardInput_dot
    (by simp [namesInFront_dot, scriptsButLib, excludes_withoutLib_iff])
    (rfl : scriptsButLib.respectsIgnoreFiles = false) isLiteral_withoutLib
  obtain ⟨all, hall, hmemAll, -⟩ := sources_eq_listed shelf_wellFormed hplace
    (FileTree.at?_nil shelf.root) isStandardInput_dot (fun _ _ => not_excludes_nil _)
    (rfl : ({} : ScanConfig).respectsIgnoreFiles = false) (by simp)
  have hfilters := sources_sublist shelf "." scriptsButLib {}
  obtain ⟨more, hmore, hsublist⟩ := hfilters.1 scriptsButLib_isNarrower sources hsources
  have heq : all = more := by
    rw [hall] at hmore
    injection hmore
  refine ⟨sources, more, hsources, hmore, hsublist,
    (hmem _).2 (shelf_isSource (by decide) (by simp [scriptsButLib, excludes_withoutLib_iff])), ?_,
    heq ▸ (hmemAll _).2 ⟨?_, ?_, ?_, ?_⟩, (hfilters.2.1 0).trans hsources, _,
    exclusions_of_literal "." isLiteral_withoutLib,
    hfilters.2.2 _ (exclusions_of_literal "." isLiteral_withoutLib)⟩
  · intro hlib
    have hkept := ((hmem _).1 hlib).notExcluded
    simp [scriptsButLib, excludes_withoutLib_iff] at hkept
  · simp [FileTree.at?_cons, FileTree.child?_directory]
  · simp [FileTree.isOpen_cons_iff, FileTree.isOpen_nil_iff, FileTree.child?_directory,
      FileTree.denied]
  · exact ⟨"c.js", rfl, hasExtension_iff.1 (by decide)⟩
  · simp [not_excludes_nil]

end FileSystem

end ScriptInventory
