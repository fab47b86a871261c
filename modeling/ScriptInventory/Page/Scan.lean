import ScriptInventory.Config
import ScriptInventory.Declaration.Structural
import ScriptInventory.Page.Manifest
import ScriptInventory.Page.Record

/-!
# Page scans

A page scan looks at the scripts of a page in the order of its manifest, and then at
what the page itself defines. Scripts are fetched one after the other, each when its
turn comes. A script that cannot be fetched, or is no script, gives a record that
says so, and the others are not affected.
-/

namespace ScriptInventory

/-- The record of a script whose text is known. -/
def scriptRecord (strategy : Strategy) (source : SourceUnit) (text : String) : UnitRecord :=
  match strategy with
  | .pattern => .pattern source (Pattern.find text)
  | .structural =>
    match Declaration.structural source text with
    | .ok inventory => .structural inventory
    | .error damage => .failed source damage.message

/-- The record of a script that was to be fetched: there may be no answer. -/
def fetchedRecord (strategy : Strategy) (address : String) : Option String → UnitRecord
  | some text => scriptRecord strategy (.url address) text
  | none => .failed (.url address) "Failed to fetch script"

variable {m : Type → Type} [Monad m]

/-- The record of a script of a page; `fetch` gets the text of an address, if it
can. -/
def ScriptReference.record (fetch : String → m (Option String)) (strategy : Strategy) :
    ScriptReference → m UnitRecord
  | .inline text => pure (scriptRecord strategy .inline text)
  | .url address => do return fetchedRecord strategy address (← fetch address)

/-- The records of the scripts of a page, in their order. -/
def scriptRecords (fetch : String → m (Option String)) (strategy : Strategy) :
    List ScriptReference → m (List UnitRecord)
  | [] => pure []
  | s :: rest => do
    let first ← s.record fetch strategy
    return first :: (← scriptRecords fetch strategy rest)

/-- The record of what a page defines, if that is known. -/
def PageManifest.globalRecords (p : PageManifest) : List UnitRecord :=
  match p.globals with
  | some types => [.globals (.ofBindings types.bindings)]
  | none => []

def PageManifest.scan (p : PageManifest) (fetch : String → m (Option String))
    (strategy : Strategy) : m PageScan := do
  return ⟨(← scriptRecords fetch strategy p.scripts) ++ p.globalRecords⟩

end ScriptInventory
