import ScriptInventory.Files.Tree
import ScriptInventory.Ignore.Rule

/-!
# Ignore files on the way to a file

The directories from the one that holds a file up to the top may each have ignore
files of three sorts. For each sort the nearest directory whose rules say something
about a path decides, and of the sorts the first one that decides counts. The rules
of version control hold only inside a repository, and only up to its top. Behind them
all come the rules that a user has for every repository.

Rules are asked about paths as they are spelled. Behind the spelling of its own
directory each set of rules finds the path that it is about; where the spellings do not
fit together, it is asked about the whole path.
-/

namespace ScriptInventory.Ignore

/-! ## Paths as rules see them -/

/-- A path without a single dot in front. -/
def withoutDot : List Char → List Char
  | '.' :: '/' :: rest => rest
  | path => path

def withoutSlashInFront : List Char → List Char
  | '/' :: rest => rest
  | path => path

/-- What is behind the spelling of a directory in a path: all of it if the directory is
spelled as the one where paths start, if there is no other name in the path, or if the path
is spelled in another way. -/
def behind (front path : List Char) : List Char :=
  if isPathOf "." (String.ofList front) || !path.contains '/' then path
  else if front.isPrefixOf path then withoutSlashInFront (path.drop front.length)
  else path

/-- A path as the rules of a directory see it. Single dots in front are taken away twice
from the path, but only once from the directory, so that a directory with two of them in
front is not found. -/
def seenFrom (directory path : String) : List Char :=
  behind (withoutDot directory.toList) (withoutDot (withoutDot path.toList))

/-- An entry that rules are asked about: its path as a walk spells it, and the one from
the top. -/
structure Entry where
  path : String
  fromTop : String
  isDirectory : Bool

/-! ## Levels -/

/-- The ignore files of a directory. -/
structure Level where
  /-- The path of the directory as a walk spells it, or from the top. -/
  directory : String
  /-- Whether the directory is above the walk, where paths start at the top. -/
  isAbove : Bool
  /-- The rules of the general ignore file. -/
  general : List Rule
  /-- The rules that are under version control themselves. -/
  shared : List Rule
  /-- The rules of one repository. -/
  ofRepository : List Rule
  /-- Whether the directory is the top of a repository. -/
  isRepository : Bool

/-- The rules in a file, if it can be read. -/
def rulesAt (s : FileSystem) (base : List String) (path : String) : List Rule :=
  match s.content? base path with
  | some content => rulesOf content
  | none => []

/-- The directory that a file names which stands for the data of a repository. -/
def dataDirectory? (content : ByteArray) : Option String :=
  match fileLines content with
  | first :: _ =>
    if "gitdir: ".toList.isPrefixOf first then some (String.ofList (first.drop 8)) else none
  | [] => none

/-- The directory for the data that repositories share, which a file among the data of one
of them names. -/
def commonDirectory? (directory : String) (content : ByteArray) : Option String :=
  match fileLines content with
  | first :: _ =>
    let named := String.ofList first
    some (if first.head? = some '.' then joinPath directory named else named)
  | [] => none

/-- The rules of the repository at a place. Its data may be elsewhere; the paths to them
start where all paths start, and not at the place. -/
def repositoryRules (s : FileSystem) (place : List String) : List Rule :=
  match (s.bodyFrom place ".git").toOption with
  | none => rulesAt s place ".git/info/exclude"
  | some body =>
    match body.content.toOption.bind dataDirectory? with
    | none => []
    | some directory =>
      match (s.content? s.here (joinPath directory "commondir")).bind
          (commonDirectory? directory) with
      | none => []
      | some common => rulesAt s s.here (joinPath common "info/exclude")

/-- The ignore files of the directory at a place, which has a path in a walk or from the
top. -/
def Level.at (s : FileSystem) (directory : String) (isAbove : Bool) (place : List String) :
    Level where
  directory := directory
  isAbove := isAbove
  general := rulesAt s place ".ignore"
  shared := rulesAt s place ".gitignore"
  ofRepository := repositoryRules s place
  isRepository :=
    match s.placeFrom place ".git" with
    | .ok _ => true
    | .error _ => false

/-- The ignore files above a place, nearest first. -/
def levelsAbove (s : FileSystem) : Nat → List String → List Level
  | 0, _ => []
  | depth + 1, place =>
    let parent := place.take depth
    Level.at s (absolutePath parent) true parent :: levelsAbove s depth parent

/-! ## Verdicts -/

/-- What the nearest rules of each sort say. -/
structure Verdicts where
  general : Option Verdict
  shared : Option Verdict
  ofRepository : Option Verdict

/-- What some rules of a directory say about an entry. -/
def Level.ask (level : Level) (e : Entry) (rules : List Rule) : Option Verdict :=
  verdict? rules (seenFrom level.directory (if level.isAbove then e.fromTop else e.path))
    e.isDirectory

/-- What the levels say about an entry, nearest first. A repository inside of another one has
rules of its own: above it only the general rules count. -/
def verdictsOf (e : Entry) (inRepository : Bool) : List Level → Verdicts
  | [] => ⟨none, none, none⟩
  | level :: above =>
    let further := verdictsOf e (inRepository && !level.isRepository) above
    ⟨(level.ask e level.general).or further.general,
      if inRepository then (level.ask e level.shared).or further.shared else none,
      if inRepository then (level.ask e level.ofRepository).or further.ofRepository else none⟩

/-- The rules that a user has for all repositories. They belong to no directory of a walk, so
their paths start where the program runs. -/
structure UserRules where
  directory : String
  rules : List Rule

def UserRules.of (s : FileSystem) : UserRules :=
  ⟨absolutePath s.here, (s.userRules.map (rulesAt s s.here)).getD []⟩

/-- What the levels, nearest first, and the rules of a user say about an entry. The first sort
of rules that says anything decides. The rules of a user are asked last, and like all rules for
repositories only inside of one. -/
def judge (levels : List Level) (user : UserRules) (e : Entry) : Option Verdict :=
  let inRepository := levels.any Level.isRepository
  let v := verdictsOf e inRepository levels
  let last :=
    if inRepository then verdict? user.rules (seenFrom user.directory e.path) e.isDirectory
    else none
  v.general.or (v.shared.or (v.ofRepository.or last))

end ScriptInventory.Ignore
