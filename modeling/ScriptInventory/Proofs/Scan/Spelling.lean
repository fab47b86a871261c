import ScriptInventory.Proofs.Files.Reordered
import ScriptInventory.Proofs.Scan.Exclusion

/-!
# How excluded names are looked for in paths

The rules for excluded names are asked about paths as a walk spells them, with the root in
front. Before that, single dots in front are taken away, two from the path and one from the
root: a root that starts with two of them is not found in its paths, and stays there. Main
statement: literal names are looked for behind the root, and in such a root
(`Ignore.verdict?_seenFrom_isSome_iff`).

* `Ignore.seenFrom_joinPath`: what is left of a path below the root.
* `Ignore.isPathOf_dot_of_isPrefixOf`: a directory with a dot in front is no prefix of what is
  below it without the dot, unless it is made of dots alone.
-/

namespace List

/-- What a list is split at is not in the parts. -/
theorem not_mem_of_mem_splitOn {α : Type} [BEq α] [LawfulBEq α] {a : α} {l part : List α}
    (h : part ∈ l.splitOn a) : a ∉ part := by
  induction l generalizing part with
  | nil =>
    rw [splitOn_nil, mem_singleton] at h
    simp [h]
  | cons b l ih =>
    rw [splitOn_cons_eq_if_modifyHead] at h
    split at h
    · rcases mem_cons.1 h with rfl | h
      · exact not_mem_nil
      · exact ih h
    · next hne =>
      cases hparts : l.splitOn a with
      | nil => exact absurd hparts (splitOn_ne_nil a l)
      | cons first rest =>
        rw [hparts] at ih h
        rw [modifyHead_cons] at h
        rcases mem_cons.1 h with rfl | h
        · rw [mem_cons, not_or]
          exact ⟨fun heq => hne (by simp [heq]), ih mem_cons_self⟩
        · exact ih (mem_cons_of_mem _ h)

end List

namespace ScriptInventory

/-! ## Parts of paths -/

theorem pathParts_ne_nil (path : String) : pathParts path ≠ [] := by
  unfold pathParts
  simp [List.splitOn_ne_nil]

theorem intercalate_pathParts (path : String) : "/".intercalate (pathParts path) = path := by
  rw [← String.toList_inj, String.toList_intercalate, pathParts, List.map_map]
  simp [Function.comp_def, List.intercalate_splitOn]

theorem slash_not_mem_of_mem_pathParts {path name : String} (h : name ∈ pathParts path) :
    '/' ∉ name.toList := by
  obtain ⟨part, hpart, rfl⟩ := List.mem_map.1 h
  rw [String.toList_ofList]
  exact List.not_mem_of_mem_splitOn hpart

/-- Names without slashes are found again in the path that they make. -/
theorem pathParts_intercalate {path : List String} (hne : path ≠ [])
    (h : ∀ name ∈ path, '/' ∉ name.toList) : pathParts ("/".intercalate path) = path := by
  have hparts : ∀ part ∈ path.map String.toList, '/' ∉ part := by
    intro part hpart
    obtain ⟨name, hname, rfl⟩ := List.mem_map.1 hpart
    exact h name hname
  rw [pathParts, String.toList_intercalate]
  show (List.splitOn '/' (['/'].intercalate _)).map _ = _
  rw [List.splitOn_intercalate '/' hparts (by simpa using hne), List.map_map]
  simp [Function.comp_def]

/-- The parts of a path behind a directory are those of both, but for an empty one where the
directory ends with a slash. -/
theorem exists_pathParts_joinPath (directory path : String) :
    ∃ front, pathParts (joinPath directory path) = front ++ pathParts path ∧
      (pathParts directory = front ∨ pathParts directory = front ++ [""]) := by
  have hslash : ∀ (front : List Char) (behind : String),
      pathParts (String.ofList (front ++ '/' :: behind.toList)) =
        pathParts (String.ofList front) ++ pathParts behind := by
    intro front behind
    simp [pathParts, List.splitOn_append_cons_self]
  have hnil : pathParts "" = [""] := by simp [pathParts]
  unfold joinPath
  split
  · -- no slash is put between them, since the directory is empty or ends with one
    next hlast =>
    rcases List.eq_nil_or_concat directory.toList with hempty | ⟨front, c, hdirectory⟩
    · rw [String.toList_eq_nil_iff.1 hempty]
      exact ⟨[], by simp, .inr hnil⟩
    · rw [List.concat_eq_append] at hdirectory
      rw [hdirectory, List.getLast?_concat, Option.all_some, decide_eq_true_eq] at hlast
      subst hlast
      have hends : directory = String.ofList (front ++ '/' :: "".toList) := by
        rw [← String.toList_inj, hdirectory]
        simp
      have hboth : directory ++ path = String.ofList (front ++ '/' :: path.toList) := by
        rw [← String.toList_inj, String.toList_append, hdirectory]
        simp
      exact ⟨_, by rw [hboth, hslash], .inr (by rw [hends, hslash, hnil])⟩
  · have hboth : directory ++ "/" ++ path =
        String.ofList (directory.toList ++ '/' :: path.toList) := by
      rw [← String.toList_inj]
      simp
    exact ⟨_, by rw [hboth, hslash, String.ofList_toList], .inl rfl⟩

theorem mem_pathParts_joinPath_iff {directory path name : String} (hname : name ≠ "") :
    name ∈ pathParts (joinPath directory path) ↔
      name ∈ pathParts directory ∨ name ∈ pathParts path := by
  obtain ⟨front, hboth, hfront | hfront⟩ := exists_pathParts_joinPath directory path <;>
    simp [hboth, hfront, hname]

/-! ## Joined paths -/

/-- A path from somewhere: it neither starts at the top nor with a single dot. -/
structure IsRelative (path : List Char) : Prop where
  noSlash : path.head? ≠ some '/'
  noDot : ∀ rest, path ≠ '.' :: '/' :: rest

/-- A path behind that of a directory. -/
def joined (front path : List Char) : List Char :=
  if front.getLast?.all (· = '/') then front ++ path else front ++ '/' :: path

theorem toList_joinPath (directory path : String) :
    (joinPath directory path).toList = joined directory.toList path.toList := by
  unfold joinPath joined
  split <;> simp

@[simp] theorem joined_nil (path : List Char) : joined [] path = path := rfl

/-- What is in front of a directory stays in front. -/
theorem joined_append (front : List Char) {directory : List Char} (h : directory ≠ [])
    (path : List Char) :
    joined (front ++ directory) path = front ++ joined directory path := by
  have hlast : (front ++ directory).getLast? = directory.getLast? := by
    rw [List.getLast?_append, List.getLast?_eq_some_getLast h, Option.some_or]
  unfold joined
  rw [hlast]
  split <;> simp

theorem exists_joined (front path : List Char) : ∃ rest, joined front path = front ++ rest := by
  unfold joined
  split
  · exact ⟨path, rfl⟩
  · exact ⟨'/' :: path, rfl⟩

theorem slash_mem_joined {front : List Char} (h : front ≠ []) (path : List Char) :
    '/' ∈ joined front path := by
  unfold joined
  split
  · next hlast =>
    rw [List.getLast?_eq_some_getLast h, Option.all_some, decide_eq_true_eq] at hlast
    exact List.mem_append_left _ (hlast ▸ List.getLast_mem h)
  · simp

/-- The names of files, one behind the other. -/
theorem isRelative_intercalate {path : List String} (h : ∀ name ∈ path, FileTree.IsFileName name) :
    IsRelative ("/".intercalate path).toList := by
  cases path with
  | nil => constructor <;> simp
  | cons name rest =>
    obtain ⟨hempty, hdot, -, hslash⟩ := h name List.mem_cons_self
    -- the first name reaches up to the first slash
    have hpath : ∃ more, ("/".intercalate (name :: rest)).toList = name.toList ++ more ∧
        more.head?.all (· = '/') := by
      cases rest with
      | nil => exact ⟨[], by simp, rfl⟩
      | cons next rest =>
        refine ⟨'/' :: ("/".intercalate (next :: rest)).toList, ?_, by simp⟩
        simp [String.toList_intercalate]
    obtain ⟨more, hmore, hhead⟩ := hpath
    obtain ⟨c, cs, hname⟩ : ∃ c cs, name.toList = c :: cs := by
      cases hlist : name.toList with
      | nil => exact absurd (String.toList_eq_nil_iff.1 hlist) hempty
      | cons c cs => exact ⟨c, cs, rfl⟩
    rw [hname] at hslash hmore
    constructor
    · rw [hmore]
      rintro ⟨⟩
      exact hslash List.mem_cons_self
    · rintro rest heq
      rw [hmore, List.cons_append, List.cons.injEq] at heq
      obtain ⟨rfl, heq⟩ := heq
      cases cs with
      | nil => exact hdot (String.toList_inj.1 hname)
      | cons d ds =>
        rw [List.cons_append, List.cons.injEq] at heq
        exact hslash (by simp [heq.1])

namespace Ignore

/-! ## The directory where paths start -/

theorem isPathOf_dot : isPathOf "." (String.ofList ['.']) := by
  simp [isPathOf, pathParts, List.splitOn_cons_eq_if_modifyHead]

theorem isPathOf_dot_cons (directory : List Char) (h : isPathOf "." (String.ofList directory)) :
    isPathOf "." (String.ofList ('.' :: '/' :: directory)) := by
  have hsplit : ('.' :: '/' :: directory).splitOn '/' = ['.'] :: directory.splitOn '/' :=
    List.splitOn_append_cons_self_of_not_mem (by decide : '/' ∉ ['.']) directory
  unfold isPathOf pathParts at h ⊢
  rw [String.toList_ofList] at h ⊢
  rw [hsplit]
  cases hparts : directory.splitOn '/' with
  | nil => simp [hparts] at h
  | cons first rest =>
    simp only [hparts, List.map_cons, Bool.and_eq_true, decide_eq_true_eq] at h
    simp only [List.map_cons, List.all_cons, h.1, h.2, decide_true, Bool.or_true, Bool.and_true]

/-- Such a directory is spelled as a single dot, or with one in front. -/
theorem eq_dot_of_isPathOf {directory : List Char} (h : isPathOf "." (String.ofList directory)) :
    directory = ['.'] ∨ ∃ rest, directory = '.' :: '/' :: rest := by
  unfold isPathOf pathParts at h
  rw [String.toList_ofList] at h
  cases hparts : directory.splitOn '/' with
  | nil => simp [hparts] at h
  | cons first rest =>
    simp only [hparts, List.map_cons, Bool.and_eq_true, decide_eq_true_eq] at h
    have hfirst : first = ['.'] := by simpa using congrArg String.toList h.1
    have hjoin : ['/'].intercalate (directory.splitOn '/') = directory :=
      List.intercalate_splitOn '/'
    rw [hparts, hfirst] at hjoin
    cases rest with
    | nil => exact .inl (by simpa using hjoin.symm)
    | cons next rest =>
      rw [List.intercalate_cons_cons] at hjoin
      exact .inr ⟨_, hjoin.symm⟩

/-- A directory with a single dot in front is not found in front of a path below it without
the dot, unless it is made of single dots. -/
theorem isPathOf_dot_of_isPrefixOf :
    ∀ (directory rest : List Char), '.' :: '/' :: directory <+: directory ++ rest →
      isPathOf "." (String.ofList ('.' :: '/' :: directory))
  | [], rest, _ => by simp [isPathOf, pathParts, List.splitOn_cons_eq_if_modifyHead]
  | [c], rest, h => by
    rw [List.singleton_append, List.cons_prefix_cons] at h
    rw [← h.1]
    exact isPathOf_dot_cons _ isPathOf_dot
  | c :: d :: directory, rest, h => by
    rw [List.cons_append, List.cons_append, List.cons_prefix_cons, List.cons_prefix_cons] at h
    obtain ⟨rfl, rfl, h⟩ := h
    exact isPathOf_dot_cons _ (isPathOf_dot_of_isPrefixOf directory rest h)

/-! ## Paths behind a directory -/

theorem behind_of_isPathOf {front : List Char} (h : isPathOf "." (String.ofList front))
    (path : List Char) : behind front path = path := by
  rw [behind, if_pos (by simp [h])]

theorem withoutSlashInFront_of_isRelative {path : List Char} (h : IsRelative path) :
    withoutSlashInFront path = path := by
  unfold withoutSlashInFront
  split
  · exact absurd rfl h.noSlash
  · rfl

theorem behind_nil {path : List Char} (h : IsRelative path) : behind [] path = path := by
  unfold behind
  split
  · rfl
  · rw [if_pos (by simp), List.length_nil, List.drop_zero, withoutSlashInFront_of_isRelative h]

/-- Behind a directory that is spelled in the same way, the path from it is found. -/
theorem behind_joined {front path : List Char} (hne : front ≠ [])
    (hdot : ¬ isPathOf "." (String.ofList front)) (h : IsRelative path) :
    behind front (joined front path) = path := by
  have hslash := slash_mem_joined hne path
  have hprefix : front.isPrefixOf (joined front path) := by
    obtain ⟨rest, hrest⟩ := exists_joined front path
    rw [List.isPrefixOf_iff_prefix, hrest]
    exact List.prefix_append _ _
  rw [behind, if_neg (by simp [hdot, hslash]), if_pos hprefix, joined]
  split
  · rw [List.drop_left, withoutSlashInFront_of_isRelative h]
  · rw [List.drop_left]
    rfl

/-- A path below a directory with two single dots in front is seen with the directory. -/
theorem behind_two_dots (directory path : List Char) :
    behind ('.' :: '/' :: directory) (joined directory path) = joined directory path := by
  by_cases hdot : isPathOf "." (String.ofList ('.' :: '/' :: directory))
  · exact behind_of_isPathOf hdot _
  · have hprefix : ¬ ('.' :: '/' :: directory).isPrefixOf (joined directory path) := by
      obtain ⟨rest, hrest⟩ := exists_joined directory path
      rw [List.isPrefixOf_iff_prefix, hrest]
      exact fun h => hdot (isPathOf_dot_of_isPrefixOf directory rest h)
    unfold behind
    rw [if_neg hprefix, ite_self]

/-! ## Single dots in front -/

theorem withoutDot_of_isRelative {path : List Char} (h : IsRelative path) :
    withoutDot path = path := by
  unfold withoutDot
  split
  · exact absurd rfl (h.noDot _)
  · rfl

theorem withoutDot_joined_dot (path : List Char) : withoutDot (joined ['.'] path) = path := rfl

theorem withoutDot_joined_cons (directory path : List Char) :
    withoutDot (joined ('.' :: '/' :: directory) path) = joined directory path := by
  by_cases hempty : directory = []
  · rw [hempty]
    rfl
  · rw [show '.' :: '/' :: directory = ['.', '/'] ++ directory from rfl,
      joined_append _ hempty]
    rfl

/-- A directory that is spelled with another beginning keeps it. -/
theorem withoutDot_joined {directory : List Char} (hempty : directory ≠ [])
    (hdot : directory ≠ ['.']) (hdots : ∀ rest, directory ≠ '.' :: '/' :: rest)
    (path : List Char) : withoutDot (joined directory path) = joined directory path := by
  obtain ⟨rest, hrest⟩ := exists_joined directory path
  rw [hrest]
  match directory, hempty, hdot, hdots with
  | [c], _, hdot, _ =>
    unfold withoutDot
    split
    · next heq =>
      rw [List.singleton_append, List.cons.injEq] at heq
      exact absurd (by rw [heq.1]) hdot
    · rfl
  | c :: d :: directory, _, _, hdots =>
    unfold withoutDot
    split
    · next heq =>
      rw [List.cons_append, List.cons_append, List.cons.injEq, List.cons.injEq] at heq
      exact absurd (by rw [heq.1, heq.2.1]) (hdots directory)
    · rfl

/-! ## Paths below a root -/

/-- What rules see of a root in front of the paths below it: nothing, unless two single dots
are in front of it. -/
def seenOfRoot (root : String) : String :=
  match root.toList with
  | '.' :: '/' :: '.' :: '/' :: rest => String.ofList rest
  | _ => ""

theorem seenOfRoot_of_two_dots {root : String} {rest : List Char}
    (h : root.toList = '.' :: '/' :: '.' :: '/' :: rest) :
    seenOfRoot root = String.ofList rest := by
  unfold seenOfRoot
  rw [h]
  rfl

theorem seenOfRoot_of_no_two_dots {root : String}
    (h : ∀ rest, root.toList ≠ '.' :: '/' :: '.' :: '/' :: rest) : seenOfRoot root = "" := by
  unfold seenOfRoot
  split
  · next heq => exact absurd heq (h _)
  · rfl

/-- A root that has no single dot in front is taken off the paths below it. -/
theorem behind_of_no_dot {directory path : List Char} (hempty : directory ≠ [])
    (hdots : ∀ rest, directory ≠ '.' :: '/' :: rest) (h : IsRelative path) :
    behind directory (withoutDot (joined directory path)) = path := by
  by_cases hdot : directory = ['.']
  · rw [hdot, withoutDot_joined_dot]
    exact behind_of_isPathOf isPathOf_dot path
  · rw [withoutDot_joined hempty hdot hdots]
    refine behind_joined hempty (fun hpath => ?_) h
    rcases eq_dot_of_isPathOf hpath with heq | ⟨rest, heq⟩
    · exact hdot heq
    · exact hdots rest heq

/-- **What rules see of a path below a root.** -/
theorem seenFrom_joinPath {root path : String} (hroot : root ≠ "") (h : IsRelative path.toList) :
    seenFrom root (joinPath root path) = (joinPath (seenOfRoot root) path).toList := by
  have hempty : root.toList ≠ [] := fun hnil => hroot (String.toList_eq_nil_iff.1 hnil)
  unfold seenFrom
  rw [toList_joinPath, toList_joinPath]
  by_cases hone : ∃ directory, root.toList = '.' :: '/' :: directory
  · obtain ⟨directory, hdirectory⟩ := hone
    rw [hdirectory, withoutDot_joined_cons]
    by_cases htwo : ∃ rest, directory = '.' :: '/' :: rest
    · obtain ⟨rest, rfl⟩ := htwo
      rw [withoutDot_joined_cons, seenOfRoot_of_two_dots hdirectory, String.toList_ofList]
      exact behind_two_dots rest _
    · have hdots : ∀ rest, directory ≠ '.' :: '/' :: rest := fun rest heq => htwo ⟨rest, heq⟩
      have hnone : seenOfRoot root = "" := by
        refine seenOfRoot_of_no_two_dots fun rest heq => hdots rest ?_
        simpa [hdirectory] using heq
      rw [hnone, String.toList_empty, joined_nil]
      -- the one dot is taken off on both sides
      by_cases hnil : directory = []
      · rw [hnil, joined_nil, withoutDot_of_isRelative h]
        exact behind_nil h
      · exact behind_of_no_dot hnil hdots h
  · have hdots : ∀ rest, root.toList ≠ '.' :: '/' :: rest := fun rest heq => hone ⟨rest, heq⟩
    have hkept : withoutDot root.toList = root.toList := by
      unfold withoutDot
      split
      · next heq => exact absurd heq (hdots _)
      · rfl
    rw [hkept, seenOfRoot_of_no_two_dots fun rest => hdots _, String.toList_empty, joined_nil]
    by_cases hdot : root.toList = ['.']
    · rw [hdot, withoutDot_joined_dot, withoutDot_of_isRelative h]
      exact behind_of_isPathOf isPathOf_dot _
    · rw [withoutDot_joined hempty hdot hdots]
      exact behind_of_no_dot hempty hdots h

/-! ## Excluded names -/

/-- The names of a root that are looked at together with those behind it. -/
def namesInFront (root : String) : List String := pathParts (seenOfRoot root)

/-- **Literal names are looked for behind the root**, and in a root that has two single dots
in front. -/
theorem verdict?_seenFrom_isSome_iff {excluded : List String}
    (h : ∀ name ∈ excluded, IsLiteral name) {root : String} (hroot : root ≠ "")
    {path : List String} (hne : path ≠ []) (hpath : ∀ n ∈ path, FileTree.IsFileName n)
    (isDirectory : Bool) :
    (verdict? (excluded.flatMap rulesOfName)
        (seenFrom root (joinPath root ("/".intercalate path))) isDirectory).isSome ↔
      (∃ n ∈ namesInFront root, Excludes excluded n) ∨ ∃ n ∈ path, Excludes excluded n := by
  have hslash : ∀ n ∈ path, '/' ∉ n.toList := fun n hn => (hpath n hn).2.2.2
  rw [seenFrom_joinPath hroot (isRelative_intercalate hpath),
    ← intercalate_pathParts (joinPath _ _),
    verdict?_isSome_iff h (pathParts_ne_nil _) (fun n hn => slash_not_mem_of_mem_pathParts hn)]
  -- an empty name is never excluded, so that it does not matter where slashes are put
  have hmem : ∀ n, Excludes excluded n →
      (n ∈ pathParts (joinPath (seenOfRoot root) ("/".intercalate path)) ↔
        n ∈ namesInFront root ∨ n ∈ path) := by
    intro n hn
    rw [mem_pathParts_joinPath_iff hn.ne_empty, pathParts_intercalate hne hslash, namesInFront]
  constructor
  · rintro ⟨n, hn, hexcluded⟩
    rcases (hmem n hexcluded).1 hn with hn | hn
    · exact .inl ⟨n, hn, hexcluded⟩
    · exact .inr ⟨n, hn, hexcluded⟩
  · rintro (⟨n, hn, hexcluded⟩ | ⟨n, hn, hexcluded⟩)
    · exact ⟨n, (hmem n hexcluded).2 (.inl hn), hexcluded⟩
    · exact ⟨n, (hmem n hexcluded).2 (.inr hn), hexcluded⟩

end Ignore

end ScriptInventory
