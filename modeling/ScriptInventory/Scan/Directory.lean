import ScriptInventory.Corpus
import ScriptInventory.Declaration.Structural
import ScriptInventory.Scan.Sources

/-!
# Directory scans

A directory scan joins the inventories of all sources below a directory. A source
that is too large, cannot be read, is no text or is no script counts as failed, with the
first of these reasons, and the others are not affected.
-/

namespace ScriptInventory

/-- Why a source gives no inventory. -/
inductive SourceError where
  | tooLarge (bytes limit : Nat)
  | unreadable (error : FileError)
  | damaged (damage : Script.Damage)
deriving DecidableEq, Repr, Inhabited

/-- The message about a source that gives no inventory. -/
def SourceError.message : SourceError → String
  | .tooLarge bytes limit => s!"skipped: {bytes} bytes exceeds max_file_bytes ({limit})"
  | .unreadable error => "failed to read: " ++ error.message
  | .damaged damage => damage.message

namespace SourceFile

def unit (f : SourceFile) : SourceUnit := .file f.relativePath

/-- The inventory of a source, or why there is none. A file that is too large is not opened, so
that it makes no difference whether it could be read. -/
def inventory (f : SourceFile) (maxFileBytes : Nat) : Except SourceError Inventory :=
  if maxFileBytes < f.bytes then .error (.tooLarge f.bytes maxFileBytes)
  else
    match f.body.text with
    | .error error => .error (.unreadable error)
    | .ok text =>
      match Declaration.structural f.unit text with
      | .error damage => .error (.damaged damage)
      | .ok inventory => .ok inventory

end SourceFile

def Corpus.addSource (maxFileBytes : Nat) (c : Corpus) (f : SourceFile) : Corpus :=
  match f.inventory maxFileBytes with
  | .ok inventory => c.merge inventory
  | .error error => c.recordFailure f.unit error.message

def Corpus.ofSources (maxFileBytes : Nat) (sources : List SourceFile) : Corpus :=
  sources.foldl (Corpus.addSource maxFileBytes) .empty

def FileSystem.scan (s : FileSystem) (root : String) (config : ScanConfig) :
    Except ScanError Corpus :=
  (s.sources root config).map (Corpus.ofSources config.maxFileBytes)

end ScriptInventory
