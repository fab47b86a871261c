import ScriptInventory.CommandLine.Run

/-!
# The program

Takes from the disk what a command line asks for, runs the command line on it, and
writes what comes out. All decisions are those of `CommandLine.run`.

The ignore file of a user is looked for in its usual place, whatever other place the
settings of version control may name.
-/

namespace ScriptInventory.Snapshot

/-- The names on the way from the top to an absolute path. -/
def placeOf (path : String) : List String := (pathParts path).filter (· ≠ "")

/-- The absolute path that leads to a place; the top has the empty path. -/
def pathOf (place : List String) : String := String.join (place.map ("/" ++ ·))

def ignoreFiles : List String := [".ignore", ".gitignore", ".git/info/exclude"]

/-- Whether the content of a file matters for a scan. -/
def isRead (config : ScanConfig) (name : String) : Bool :=
  [".ignore", ".gitignore", ".git", "exclude"].contains name ||
    hasExtension config.extensions name

def systemError : IO.Error → SystemError
  | .alreadyExists _ n s | .invalidArgument _ n s | .permissionDenied _ n s
  | .resourceExhausted _ n s | .inappropriateType _ n s | .noSuchThing _ n s
  | .interrupted _ n s | .noFileOrDirectory _ n s | .otherError n s | .resourceBusy n s
  | .resourceVanished n s | .unsupportedOperation n s | .hardwareFault n s
  | .unsatisfiedConstraints n s | .illegalOperation n s | .protocolError n s
  | .timeExpired n s => ⟨n.toNat, s⟩
  | .unexpectedEof => ⟨0, "unexpected end of file"⟩
  | .userError s => ⟨0, s⟩

/-- A path without links in it, if there is something at the path. -/
def realPath? (path : String) : IO (Option String) := do
  match ← (IO.FS.realPath path).toBaseIO with
  | .ok real => return some (if real.toString = "/" then "" else real.toString)
  | .error _ => return none

/-- Whether there is a directory at an absolute path. -/
def isDirectory (path : String) : IO Bool := do
  ((← IO.currentDir) / (path ++ "/")).isDir

/-- A file with its content, or with its size if it cannot be read. A file without a size
counts as empty. -/
def file (path : String) : IO FileTree := do
  match ← (IO.FS.readBinFile path).toBaseIO with
  | .ok content => return .file (.readable content)
  | .error e =>
    match ← ((← IO.currentDir) / path).metadata.toBaseIO with
    | .ok data => return .file (.refused data.byteSize.toNat (systemError e))
    | .error _ => return .file (.refused 0 (systemError e))

/-- What is at an absolute path without links in it, as far as it matters for a scan. -/
partial def tree (config : ScanConfig) (path : String) : IO FileTree := do
  match ← ((← IO.currentDir) / (path ++ "/")).readDir.toBaseIO with
  | .error e => return .directory (systemError e) []
  | .ok entries =>
    let children ← entries.toList.mapM fun entry => do
      let name := entry.fileName
      let below := path ++ "/" ++ name
      let real := (← realPath? below).getD ""
      let child ←
        if real ≠ below && !isRead { config with extensions := [] } name then pure (.link real)
        else if ← isDirectory below then tree config below
        else if isRead config name then file below
        else pure (.file (.readable .empty))
      return (name, child)
    return .directory none children

/-- Adds what the parts of a path lead to from an absolute path, and gives back how far
they lead. -/
def follow (s : FileSystem) (path : String) : List String → IO (FileSystem × String)
  | [] => return (s, path)
  | part :: rest => do
    if part = "" || part = "." then follow s path rest
    else
      let next := path ++ "/" ++ part
      match ← realPath? next with
      | none => return (s, path)
      | some real =>
        let s := if part = ".." || real = next then s else s.put next (.link real)
        let found ← if ← isDirectory real then pure (.directory none []) else file real
        follow (s.put real found) real rest

def add (s : FileSystem) (path : String) : IO (FileSystem × String) :=
  let (place, parts) := FileSystem.start s.here path
  follow s (pathOf place) parts

/-- The contents of the files that stand for the data of a repository. -/
partial def dataFiles : FileTree → List ByteArray
  | .directory _ children => children.flatMap fun (name, t) =>
    match t with
    | .file (.readable content) => if name = ".git" then [content] else []
    | t => dataFiles t
  | _ => []

/-- Adds the rules of a repository whose data is elsewhere. -/
def addData (s : FileSystem) (content : ByteArray) : IO FileSystem := do
  match Ignore.dataDirectory? content with
  | none => return s
  | some directory =>
    let path := joinPath directory "commondir"
    let (s, _) ← add s path
    match (s.content? s.here path).bind (Ignore.commonDirectory? directory) with
    | none => return s
    | some common => return (← add s (joinPath common "info/exclude")).1

/-- Adds the ignore file of the user, which is in the directory for settings. -/
def addUserRules (s : FileSystem) : IO FileSystem := do
  let settings ← match ← IO.getEnv "XDG_CONFIG_HOME", ← IO.getEnv "HOME" with
    | some path, _ => pure (some path)
    | none, some home => pure (some (joinPath home ".config"))
    | none, none => pure none
  match settings with
  | none => return s
  | some settings =>
    let path := joinPath settings "git/ignore"
    return { (← add s path).1 with userRules := path }

/-- Adds the directory of a scan, and the ignore files of the directories above. -/
def addTree (s : FileSystem) (root : String) (config : ScanConfig) : IO FileSystem := do
  let (s, path) ← add s root
  if ← isDirectory path then
    let place := placeOf path
    let s := { s with root := s.root.put (← tree config path) place }
    let above := (List.range place.length).map fun n => pathOf (place.take n)
    let s ← above.foldlM (fun s path => ignoreFiles.foldlM (fun s name => do
      return (← follow s path (pathParts name)).1) s) s
    addUserRules (← (dataFiles s.root).foldlM addData s)
  else return s

def load (arguments : List String) : IO FileSystem := do
  let here := placeOf ((← realPath? ".").getD "")
  let s : FileSystem :=
    { root := FileTree.put (.directory none []) (.directory none []) here, here }
  match CommandLine.request? [] arguments with
  | some (.run config command) =>
    let s ← match config with
      | some path => pure (← add s path).1
      | none => pure s
    match command, CommandLine.loadConfig s config with
    | .scan root _ extensions excluded respectsIgnoreFiles, .ok config =>
      addTree s root
        (CommandLine.effective config.scan extensions excluded respectsIgnoreFiles)
    | .page path _ _, _ | .inspect path _, _ => pure (← add s path).1
    | _, _ => pure s
  | _ => pure s

end ScriptInventory.Snapshot

def main (arguments : List String) : IO UInt32 := do
  let files ← ScriptInventory.Snapshot.load arguments
  let outcome := ScriptInventory.CommandLine.run files arguments
  IO.print outcome.output
  if outcome.errors ≠ "" then IO.eprintln outcome.errors
  return UInt32.ofNat outcome.code
