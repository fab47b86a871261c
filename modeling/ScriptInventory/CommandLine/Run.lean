import ScriptInventory.CommandLine.Arguments
import ScriptInventory.Page.Scan
import ScriptInventory.Report.Render
import ScriptInventory.Scan.Directory

/-!
# Running a command line

A command line gives an exit code and what is written to the two outputs. Something
is written to the first of them only if all goes well. What goes wrong is told with
its causes.
-/

namespace ScriptInventory.CommandLine

/-- Why a command fails. -/
inductive Failure where
  | unreadableConfig (path : String) (error : FileError)
  | badConfig (path : String) (fault : Json.Fault)
  | cannotScan (error : ScanError) (root : String)
  | unreadableManifest (path : String) (error : FileError)
  | badManifest (path : String) (fault : Json.Fault)
  | unreadableFile (path : String) (error : FileError)
  | damagedFile (unit : SourceUnit) (damage : Script.Damage)
  | cannotRender (error : Report.RenderError)

namespace Failure

def message : Failure → String
  | .unreadableConfig path _ => "Failed to read config " ++ path
  | .badConfig path _ => "Failed to parse config " ++ path
  | .cannotScan _ root => "Cannot scan " ++ root
  | .unreadableManifest path _ => "Failed to read manifest " ++ path
  | .badManifest path _ => "Failed to parse manifest " ++ path
  | .unreadableFile path _ => "Failed to read " ++ path
  | .damagedFile unit damage => "failed to parse " ++ unit.display ++ ": " ++ damage.message
  | .cannotRender error => error.message

/-- The causes of a failure, each of them caused by the next one. -/
def causes : Failure → List String
  | .unreadableConfig _ error => [error.message]
  | .badConfig _ fault => [fault.message]
  | .cannotScan (.badGlob root rule error) _ =>
    [(ScanError.badGlob root rule error).message, ScanError.globMessage rule error]
  | .cannotScan (.cannotList root error) _ =>
    [(ScanError.cannotList root error).message, error.message]
  | .cannotScan error _ => [error.message]
  | .unreadableManifest _ error => [error.message]
  | .badManifest _ fault => [fault.message]
  | .unreadableFile _ error => [error.message]
  | .damagedFile _ _ => []
  | .cannotRender _ => []

/-- A cause with an indentation for its further lines. -/
def indented (head margin : String) (cause : String) : String :=
  head ++ ("\n" ++ margin).intercalate ((cause.toList.splitOn '\n').map String.ofList)

/-- The causes of a failure, numbered if there are several. -/
def causeLines : List String → List String
  | [] => []
  | [cause] => ["", "Caused by:", indented "    " "    " cause]
  | causes => "" :: "Caused by:" ::
      causes.zipIdx.map fun (cause, n) => indented s!"    {n}: " "       " cause

/-- All that is told about a failure. -/
def report (f : Failure) : String :=
  "\n".intercalate (("Error: " ++ f.message) :: causeLines f.causes)

end Failure

/-- The settings in a file, or the defaults. -/
def loadConfig (s : FileSystem) : Option String → Except Failure Config
  | none => .ok {}
  | some path =>
    match s.readText path with
    | .error error => .error (.unreadableConfig path error)
    | .ok text =>
      match Config.ofText text with
      | .error fault => .error (.badConfig path fault)
      | .ok config => .ok config

/-- The settings of a scan, changed by the options of its command. Extensions take the place of
those in the settings and excluded names are added to them; ignore files can be turned on, but
not off. -/
def effective (c : ScanConfig) (extensions : Option (List String)) (excluded : List String)
    (respectsIgnoreFiles : Bool) : ScanConfig :=
  { c with
    extensions := extensions.getD c.extensions
    excluded := c.excluded ++ excluded
    respectsIgnoreFiles := c.respectsIgnoreFiles || respectsIgnoreFiles }

/-- Scans a directory and gives the report. -/
def runScan (s : FileSystem) (root : String) (format : Report.Format) (config : ScanConfig) :
    Except Failure String :=
  match s.scan root config with
  | .error error => .error (.cannotScan error root)
  | .ok corpus => .ok (Report.corpus corpus format)

/-- The output for a page: its report, if the format is one for pages. -/
def pageOutput (page : PageScan) (format : Report.Format) : Except Failure String :=
  match Report.page page format with
  | .error error => .error (.cannotRender error)
  | .ok report => .ok (report ++ "\n")

variable {m : Type → Type} [Monad m]

/-- Scans the page of a manifest and gives the report; `fetch` gets the text of an
address, if it can. -/
def runPage (fetch : String → m (Option String)) (s : FileSystem) (path : String)
    (strategy : Strategy) (format : Report.Format) : m (Except Failure String) :=
  match s.readText path with
  | .error error => pure (.error (.unreadableManifest path error))
  | .ok text =>
    match PageManifest.ofText text with
    | .error fault => pure (.error (.badManifest path fault))
    | .ok manifest => return pageOutput (← manifest.scan fetch strategy) format

def runInspect (s : FileSystem) (path : String) (byPattern : Bool) : Except Failure String :=
  match s.readText path with
  | .error error => .error (.unreadableFile path error)
  | .ok text =>
    let unit : SourceUnit := .file path
    if byPattern then .ok (Report.inventoryJson (Pattern.inventory unit text) ++ "\n")
    else
      match Declaration.structural unit text with
      | .error damage => .error (.damagedFile unit damage)
      | .ok inventory => .ok (Report.inventoryJson inventory ++ "\n")

/-- Runs a command with its settings. -/
def runCommand (fetch : String → m (Option String)) (s : FileSystem) (config : Config) :
    Command → m (Except Failure String)
  | .scan root format extensions excluded respectsIgnoreFiles =>
    pure (runScan s root format (effective config.scan extensions excluded respectsIgnoreFiles))
  | .page manifest strategy format =>
    runPage fetch s manifest (strategy.getD config.page.strategy) format
  | .inspect file byPattern => pure (runInspect s file byPattern)

/-- What a run of the program gives. -/
structure Outcome where
  code : Nat
  output : String
  errors : String
deriving DecidableEq, Repr, Inhabited

/-- The name and the version of the program. -/
def versionText : String := "symscan 0.1.0\n"

def usage : String :=
  "Inventory JavaScript declarations: classes, methods, properties, functions, variables\n\n" ++
    "Usage: symscan [OPTIONS] <COMMAND>\n\n" ++
    "Commands:\n  scan ROOT\n  page MANIFEST\n  inspect FILE_PATH\n"

/-- What a run comes to that fails or has an output. -/
def outcomeOf : Except Failure String → Outcome
  | .error failure => ⟨1, "", failure.report⟩
  | .ok output => ⟨0, output, ""⟩

def perform (fetch : String → m (Option String)) (s : FileSystem) : Option Request → m Outcome
  | none => pure ⟨2, "", "error: " ++ usage⟩
  | some .version => pure ⟨0, versionText, ""⟩
  | some .help => pure ⟨0, usage, ""⟩
  | some (.run path command) =>
    match loadConfig s path with
    | .error failure => pure (outcomeOf (.error failure))
    | .ok config => return outcomeOf (← runCommand fetch s config command)

/-- Runs the program; `fetch` gets the text of an address, if it can. -/
def runFetching (fetch : String → m (Option String)) (s : FileSystem) (arguments : List String) :
    m Outcome :=
  perform fetch s (request? [] arguments)

/-- Runs the program where nothing can be fetched. -/
def run (s : FileSystem) (arguments : List String) : Outcome :=
  Id.run (runFetching (fun _ => pure none) s arguments)

end ScriptInventory.CommandLine
