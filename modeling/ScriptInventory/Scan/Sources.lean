import ScriptInventory.Config
import ScriptInventory.Ignore.Level
import ScriptInventory.Text.Lowercase

/-!
# The sources below a directory

The sources of a directory are the files below it, to any depth, whose extension is
that of a script, in the order of their paths. Links are not followed, but for the
directory itself, and directories that cannot be listed are passed over. Names that are
excluded are left out, and, where ignore files are respected, hidden names and those that
the ignore files name.
-/

namespace ScriptInventory

/-- Why a directory cannot be scanned. -/
inductive ScanError where
  | rootMissing (root : String)
  | rootNotDirectory (root : String)
  | cannotList (root : String) (error : SystemError)
  /-- What is excluded is no glob. -/
  | badGlob (root : String) (rule : String) (error : Glob.GlobError)
deriving DecidableEq, Repr, Inhabited

namespace ScanError

/-- The message about a rule that is no glob. -/
def globMessage (rule : String) (error : Glob.GlobError) : String :=
  "error parsing glob '" ++ rule ++ "': " ++ error.message

def message : ScanError → String
  | .rootMissing root => "scan root does not exist: " ++ root
  | .rootNotDirectory root => "scan root is not a directory: " ++ root
  | .cannotList root error => "cannot enumerate " ++ root ++ ": " ++ error.message
  | .badGlob root rule error => "cannot enumerate " ++ root ++ ": " ++ globMessage rule error

end ScanError

/-- A source below a directory. -/
structure SourceFile where
  /-- The names on the way to the file. -/
  path : List String
  body : FileBody
deriving Inhabited

namespace SourceFile

/-- The path of a source from the directory. -/
def relativePath (f : SourceFile) : String := "/".intercalate f.path

/-- The path of a source, given that of the directory. -/
def pathFrom (root : String) (f : SourceFile) : String := joinPath root f.relativePath

def bytes (f : SourceFile) : Nat := f.body.bytes

/-- Whether two sources are in the order of their paths, in which the first names that differ
decide. As one text `a/b` would be behind `a.b`, since a slash is behind a dot. -/
def isInOrder (a b : SourceFile) : Bool :=
  !List.lex b.path a.path fun x y => decide (x < y)

end SourceFile

/-! ## Extensions -/

/-- The extension of a name: what stands behind its last dot, unless that is at its
start. -/
def extension? (name : List Char) : Option (List Char) :=
  let behind := name.reverse.takeWhile (· != '.')
  let front := name.reverse.drop (behind.length + 1)
  if front.isEmpty then none else some behind.reverse

/-- Whether a file name is that of a script. Its extension is turned into small letters of any
script, and those to compare it with only of the ASCII ones; a dot in front of these does not
count. -/
def hasExtension (extensions : List String) (name : String) : Bool :=
  let found := Text.lowercase ((extension? name.toList).getD [])
  !found.isEmpty && extensions.any fun e =>
    Text.sameUpToAsciiCase (e.toList.dropWhile (· = '.')) found

/-! ## Excluded names -/

/-- The rules for an excluded name, wherever it stands. A walk does not go down into a
directory that the first rule leaves out; the second one says the same of all paths below it,
so that a path can be judged without those above. -/
def exclusionRules (name : String) : List String :=
  let isSlash (c : Char) : Bool := c = '/'
  let trimmed := ((Text.trim name.toList).dropWhile isSlash).reverse.dropWhile isSlash
  if trimmed.isEmpty then []
  else
    let body := trimmed.reverse
    [String.ofList ("!**/".toList ++ body), String.ofList ("!**/".toList ++ body ++ "/**".toList)]

/-- The rules for excluded names. They all start with an exclamation mark, which in rules of
this sort stands for leaving out: what none of them names is kept. -/
def exclusions (root : String) (names : List String) : Except ScanError (List Ignore.Rule) := do
  let rules ← (names.flatMap exclusionRules).mapM fun rule =>
    match Ignore.Rule.parse false rule.toList with
    | .ok r => .ok r
    | .error e => .error (.badGlob root (String.ofList (Ignore.lineBody rule.toList)) e)
  pure (rules.filterMap id)

/-! ## Walking -/

/-- What decides which entries of a directory are left out. -/
structure Walk where
  files : FileSystem
  /-- The path of the directory, as it was given. -/
  root : String
  config : ScanConfig
  excluded : List Ignore.Rule
  user : Ignore.UserRules

namespace Walk

/-- A path in the walk as it is spelled; `path` has the names behind the root. -/
def spelled (w : Walk) (path : List String) : String :=
  if path.isEmpty then w.root else joinPath w.root ("/".intercalate path)

/-- The ignore files of a directory in front of those on the way to it, if they count. -/
def push (w : Walk) (place path : List String) (levels : List Ignore.Level) :
    List Ignore.Level :=
  if w.config.respectsIgnoreFiles then
    Ignore.Level.at w.files (w.spelled path) false place :: levels
  else levels

/-- Whether an entry at a place is left out; `path` is its path from the directory that is
scanned, and `levels` has the ignore files on the way to it. Excluded names are asked about
first, so that no ignore file brings them back. -/
def skips (w : Walk) (levels : List Ignore.Level) (place path : List String) (name : String)
    (isDirectory : Bool) : Bool :=
  let e : Ignore.Entry := ⟨w.spelled path, absolutePath place, isDirectory⟩
  (Ignore.verdict? w.excluded (Ignore.seenFrom w.root e.path) isDirectory).isSome ||
    (w.config.respectsIgnoreFiles &&
      match Ignore.judge levels w.user e with
      | some .ignored => true
      | some .kept => false
      | none => name.startsWith ".")

mutual

/-- The sources in an entry of a directory at a place. -/
def entry (w : Walk) (levels : List Ignore.Level) (place path : List String) (name : String) :
    FileTree → List SourceFile
  | .file body =>
    if hasExtension w.config.extensions name &&
        !w.skips levels (place ++ [name]) (path ++ [name]) name false then
      [⟨path ++ [name], body⟩]
    else []
  | .link _ => []
  | .directory (some _) _ => []
  | .directory none children =>
    let place := place ++ [name]
    let path := path ++ [name]
    if w.skips levels place path name true then []
    else w.entries (w.push place path levels) place path children

/-- The sources in the entries of a directory at a place. -/
def entries (w : Walk) (levels : List Ignore.Level) (place path : List String) :
    List (String × FileTree) → List SourceFile
  | [] => []
  | (name, t) :: rest => w.entry levels place path name t ++ w.entries levels place path rest

end

@[simp] theorem entries_nil (w : Walk) (levels : List Ignore.Level)
    (place path : List String) : w.entries levels place path [] = [] := by
  rw [entries]

/-- The ignore files with which a walk over the directory at a place starts. -/
def start (w : Walk) (place : List String) : List Ignore.Level :=
  w.push place []
    (if w.config.respectsIgnoreFiles then Ignore.levelsAbove w.files place.length place else [])

end Walk

/-- Whether a path stands for standard input. A walk takes this path for one entry that is no
file, whatever it leads to, and so never lists a directory of that name. -/
def isStandardInput (root : String) : Bool := isPathOf "-" root

theorem isStandardInput_dot : isStandardInput "." = false := by
  simp [isStandardInput, isPathOf, pathParts, List.splitOn_eq_singleton]

/-- The walk over a directory with some rules for what is excluded. -/
def FileSystem.walk (s : FileSystem) (root : String) (config : ScanConfig)
    (excluded : List Ignore.Rule) : Walk :=
  ⟨s, root, config, excluded, .of s⟩

/-- The sources below a directory. Whether the directory can be listed is seen before what
is excluded is looked at. Standard input has no sources. -/
def FileSystem.sources (s : FileSystem) (root : String) (config : ScanConfig) :
    Except ScanError (List SourceFile) := do
  match s.place root with
  | .error _ => .error (.rootMissing root)
  | .ok place =>
    match s.root.at? place with
    | none => .error (.rootMissing root)
    | some (.directory (some error) _) => .error (.cannotList root error)
    | some (.directory none children) =>
      let w := s.walk root config (← exclusions root config.excluded)
      let found :=
        if isStandardInput root then [] else w.entries (w.start place) place [] children
      pure (found.mergeSort SourceFile.isInOrder)
    | some _ => .error (.rootNotDirectory root)

end ScriptInventory
