import ScriptInventory.Json.Read

/-!
# Settings

What a scan is told to do. A settings text is a JSON object with a section for
directory scans and one for page scans; what it leaves out keeps its default.
-/

namespace ScriptInventory

/-- How the names of a script are found. -/
inductive Strategy where
  /-- By patterns in the raw text, which works anywhere and is approximate. -/
  | pattern
  /-- From the syntax tree, which is exact and fails on texts that are no scripts. -/
  | structural
deriving DecidableEq, Repr, Inhabited

namespace Strategy

def name : Strategy → String
  | .pattern => "pattern"
  | .structural => "structural"

def named : List (String × Strategy) :=
  [pattern, structural].map fun s => (s.name, s)

def read : Json.Reader Strategy :=
  Json.readVariant (named.map fun (name, s) =>
    ⟨name, fun i => (Json.readNothing i).map fun (_, i) => (s, i), .ok s⟩)

end Strategy

/-- Which files a directory scan looks at. -/
structure ScanConfig where
  /-- The extensions of script files. -/
  extensions : List String := ["js", "mjs", "cjs", "jsx"]
  /-- Globs for the names of directories and files that are left out. -/
  excluded : List String := []
  /-- Whether hidden files and those that ignore files name are left out. -/
  respectsIgnoreFiles : Bool := false
  /-- The size beyond which a file is not looked at. -/
  maxFileBytes : Nat := 2 * 1024 * 1024
deriving DecidableEq, Repr, Inhabited

/-- How pages are scanned. -/
structure PageConfig where
  strategy : Strategy := .pattern
deriving DecidableEq, Repr, Inhabited

/-- All settings. -/
structure Config where
  scan : ScanConfig := {}
  page : PageConfig := {}
deriving DecidableEq, Repr, Inhabited

/-! ## Reading

While settings are read, what has been given is kept apart from the defaults. -/

/-- The settings of a directory scan as far as they are given. To give a field twice is an
error, so what was given has to be told from the defaults while reading. -/
structure ScanConfig.Given where
  extensions : Option (List String) := none
  excluded : Option (List String) := none
  respectsIgnoreFiles : Option Bool := none
  maxFileBytes : Option Nat := none

namespace ScanConfig

/-- Settings with the defaults for what is not given. -/
def Given.config (g : Given) : ScanConfig :=
  let d : ScanConfig := {}
  ⟨g.extensions.getD d.extensions, g.excluded.getD d.excluded,
    g.respectsIgnoreFiles.getD d.respectsIgnoreFiles, g.maxFileBytes.getD d.maxFileBytes⟩

/-- The fields of the settings of a directory scan. -/
def fields : List (Json.Field Given) :=
  [⟨"extensions", fun g => g.extensions.isSome, fun g i =>
      (Json.readList Json.readText i).map fun (v, i) => ({ g with extensions := some v }, i)⟩,
    ⟨"exclude_dir_names", fun g => g.excluded.isSome, fun g i =>
      (Json.readList Json.readText i).map fun (v, i) => ({ g with excluded := some v }, i)⟩,
    ⟨"respect_ignore_files", fun g => g.respectsIgnoreFiles.isSome, fun g i =>
      (Json.readBool i).map fun (v, i) => ({ g with respectsIgnoreFiles := some v }, i)⟩,
    ⟨"max_file_bytes", fun g => g.maxFileBytes.isSome, fun g i =>
      (Json.readNatural i).map fun (v, i) => ({ g with maxFileBytes := some v }, i)⟩]

/-- Reads the settings of a directory scan. -/
def read : Json.Reader ScanConfig := fun i =>
  (Json.readStruct "ScanConfig" fields {} i).map fun (g, i) => (g.config, i)

end ScanConfig

/-- The fields of the settings of a page scan. -/
def PageConfig.fields : List (Json.Field (Option Strategy)) :=
  [⟨"strategy", Option.isSome, fun _ i => (Strategy.read i).map fun (s, i) => (some s, i)⟩]

/-- Reads the settings of a page scan. -/
def PageConfig.read : Json.Reader PageConfig := fun i =>
  (Json.readStruct "PageConfig" fields none i).map fun (s, i) =>
    (⟨s.getD ({} : PageConfig).strategy⟩, i)

/-- The sections of the settings as far as they are given. -/
structure Config.Given where
  scan : Option ScanConfig := none
  page : Option PageConfig := none

namespace Config

def fields : List (Json.Field Given) :=
  [⟨"scan", fun g => g.scan.isSome, fun g i =>
      (ScanConfig.read i).map fun (v, i) => ({ g with scan := some v }, i)⟩,
    ⟨"page", fun g => g.page.isSome, fun g i =>
      (PageConfig.read i).map fun (v, i) => ({ g with page := some v }, i)⟩]

def read : Json.Reader Config := fun i =>
  (Json.readStruct "Config" fields {} i).map fun (g, i) =>
    (⟨g.scan.getD {}, g.page.getD {}⟩, i)

def ofText (text : String) : Except Json.Fault Config := Json.readWhole read text

end Config

end ScriptInventory
