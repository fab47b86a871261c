/-!
# Trees of files

A tree holds files, links and directories; the children of a directory have names.
`FileSystem` is such a tree with a directory to start from. Paths are followed through
links, and fail for the usual reasons.

The system may refuse to read a file, and then only its size is known; and it may refuse
to list a directory, which can still be entered. A directory that can be listed but not
entered has files in it that are refused and directories that are denied. Names are
texts, and there are no files of other sorts (pipes, sockets, devices).
-/

namespace ScriptInventory

/-- An error that the system reports, with the number that it has there. -/
structure SystemError where
  number : Nat
  description : String
deriving DecidableEq, Repr, Inhabited

def SystemError.message (e : SystemError) : String :=
  s!"{e.description} (os error {e.number})"

/-- What reading a file comes to. -/
inductive FileBody where
  | readable (content : ByteArray)
  /-- The size of a file does not depend on whether it can be read. -/
  | refused (bytes : Nat) (error : SystemError)
deriving Inhabited

/-- A file, a link or a directory. -/
inductive FileTree where
  | file (body : FileBody)
  /-- A link to another path. -/
  | link (target : String)
  /-- A directory with its children; `denied` is why they cannot be listed. -/
  | directory (denied : Option SystemError) (children : List (String × FileTree))
deriving Inhabited

namespace FileTree

def children : FileTree → List (String × FileTree)
  | .directory _ children => children
  | _ => []

/-- Why a directory cannot be listed. -/
def denied : FileTree → Option SystemError
  | .directory denied _ => denied
  | _ => none

def child? (t : FileTree) (name : String) : Option FileTree :=
  (t.children.find? fun c => c.1 = name).map Prod.snd

/-- What stands at a place, which is a list of names from the top. -/
def at? (t : FileTree) : List String → Option FileTree
  | [] => some t
  | name :: rest => (t.child? name).bind fun c => c.at? rest

/-- Sets a child among the children of a directory. -/
def setChild (children : List (String × FileTree)) (name : String) (t : FileTree) :
    List (String × FileTree) :=
  if children.any fun c => c.1 = name then
    children.map fun c => if c.1 = name then (name, t) else c
  else children ++ [(name, t)]

/-- Puts something at a place, with directories on the way to it. -/
def put (t : FileTree) (new : FileTree) : List String → FileTree
  | [] => new
  | name :: rest =>
    let below := (t.child? name).getD (.directory none [])
    .directory t.denied (setChild t.children name (below.put new rest))

end FileTree

/-- Why a file cannot be read. -/
inductive FileError where
  | notFound
  | notDirectory
  | isDirectory
  | tooManyLinks
  /-- The file or directory is there, but cannot be read. -/
  | system (error : SystemError)
  /-- The content is not UTF-8. -/
  | notText
deriving DecidableEq, Repr, Inhabited

def FileError.message : FileError → String
  | .notFound => "No such file or directory (os error 2)"
  | .notDirectory => "Not a directory (os error 20)"
  | .isDirectory => "Is a directory (os error 21)"
  | .tooManyLinks => "Too many levels of symbolic links (os error 40)"
  | .system error => error.message
  | .notText => "stream did not contain valid UTF-8"

namespace FileBody

def bytes : FileBody → Nat
  | .readable content => content.size
  | .refused bytes _ => bytes

def content : FileBody → Except FileError ByteArray
  | .readable content => .ok content
  | .refused _ error => .error (.system error)

def text (body : FileBody) : Except FileError String := do
  match String.fromUTF8? (← body.content) with
  | some text => pure text
  | none => .error .notText

end FileBody

/-! ## Paths -/

/-- The parts of a path between its slashes. -/
def pathParts (path : String) : List String :=
  (path.toList.splitOn '/').map String.ofList

/-- Whether a path comes to a name alone: single dots and slashes behind it do not
count. -/
def isPathOf (name path : String) : Bool :=
  match pathParts path with
  | first :: rest => first = name && rest.all fun part => part = "" || part = "."
  | [] => false

/-- A path from a directory, behind the path of the directory. A slash is put between them
unless the latter is empty or ends with one. -/
def joinPath (directory path : String) : String :=
  if directory.toList.getLast?.all (· = '/') then directory ++ path
  else directory ++ "/" ++ path

/-- The path of a place from the top. -/
def absolutePath (place : List String) : String := "/" ++ "/".intercalate place

/-- The number of links that may be followed on the way to a file. Links can lead in a circle,
and then it is this number that ends the way. -/
def mostLinks : Nat := 40

/-- Files, with what the surroundings of a program say about them. -/
structure FileSystem where
  root : FileTree
  /-- The place of the directory that paths start from. -/
  here : List String
  /-- The path of the ignore file that a user has for all repositories. -/
  userRules : Option String := none
deriving Inhabited

namespace FileSystem

/-- Where a path starts, and its parts. -/
def start (base : List String) (path : String) : List String × List String :=
  if path.startsWith "/" then ([], pathParts path) else (base, pathParts path)

/-- Follows the parts of a path from a place; the top is its own parent. -/
def follow (s : FileSystem) (links : Nat) (place : List String) :
    List String → Except FileError (List String)
  | [] => .ok place
  | part :: rest =>
    match s.root.at? place with
    | some (.directory _ children) =>
      if part = "" || part = "." then s.follow links place rest
      else if part = ".." then s.follow links place.dropLast rest
      else
        match (children.find? fun c => c.1 = part).map Prod.snd with
        | none => .error .notFound
        | some (.link target) =>
          match links with
          | 0 => .error .tooManyLinks
          | links + 1 =>
            let (place, parts) := start place target
            s.follow links place (parts ++ rest)
        | some _ => s.follow links (place ++ [part]) rest
    | some _ => .error .notDirectory
    | none => .error .notFound
termination_by parts => (links, parts.length)

/-- The place that a path leads to from another place; an empty path leads nowhere. -/
def placeFrom (s : FileSystem) (base : List String) (path : String) :
    Except FileError (List String) :=
  if path = "" then .error .notFound
  else
    let (place, parts) := start base path
    s.follow mostLinks place parts

def place (s : FileSystem) (path : String) : Except FileError (List String) :=
  s.placeFrom s.here path

def get (s : FileSystem) (path : String) : Except FileError FileTree := do
  match s.root.at? (← s.place path) with
  | some t => pure t
  | none => .error .notFound

/-- The file that a path leads to from a place. A directory cannot be opened unless it can
be listed, and then there is nothing to read in it. -/
def bodyFrom (s : FileSystem) (base : List String) (path : String) :
    Except FileError FileBody := do
  match s.root.at? (← s.placeFrom base path) with
  | some (.file body) => pure body
  | some (.directory (some error) _) => .error (.system error)
  | some (.directory none _) => .error .isDirectory
  | _ => .error .notFound

/-- The content of a file, if there is one that can be read. -/
def content? (s : FileSystem) (base : List String) (path : String) : Option ByteArray :=
  (s.bodyFrom base path).toOption.bind fun body => body.content.toOption

def readText (s : FileSystem) (path : String) : Except FileError String := do
  (← s.bodyFrom s.here path).text

/-- The place at which something is put under the parts of a path: as far as they exist, links
are followed. What does not exist yet is taken as it is spelled. -/
def newPlace (s : FileSystem) (place : List String) : List String → List String
  | [] => place
  | part :: rest =>
    match s.follow mostLinks place [part] with
    | .ok next => s.newPlace next rest
    | .error _ => s.newPlace (place ++ [part]) rest

/-- Puts a file, a link or a directory at a path, with directories on the way to it. -/
def put (s : FileSystem) (path : String) (new : FileTree) : FileSystem :=
  let (place, parts) := start s.here path
  let target := match new with
    | .link _ => s.newPlace place parts.dropLast ++ parts.getLast?.toList
    | _ => s.newPlace place parts
  match new, s.root.at? target with
  | .directory _ _, some (.directory _ _) => s
  | _, _ => { s with root := s.root.put new target }

end FileSystem

end ScriptInventory
