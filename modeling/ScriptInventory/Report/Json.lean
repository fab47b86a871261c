import ScriptInventory.Corpus
import ScriptInventory.Json.Pretty
import ScriptInventory.Page.Record

/-!
# Reports as JSON

A JSON report holds all that is known: the names in their order, and the label of
each unit, which is `null` for an embedded script. A section that a record does not
have is absent, which differs from an empty one.
-/

namespace ScriptInventory.Report

open Json (Value)

def sourceValue (u : SourceUnit) : Value :=
  match u.label? with
  | some label => .string label
  | none => .null

def namesValue (names : List String) : Value := .array (names.map .string)

def countValue (n : Nat) : Value := .number (.natural n)

def kindMembers (names : SymbolKind → OrderedNames) : List (String × Value) :=
  SymbolKind.all.map fun k => (k.plural, namesValue (names k).toList)

def inventoryValue (i : Inventory) : Value :=
  .object (("source", sourceValue i.source) :: kindMembers i.names)

def failureValue (f : UnitFailure) : Value :=
  .object [("source", sourceValue f.source), ("error", .string f.error)]

def corpusValue (c : Corpus) : Value :=
  .object (kindMembers c.names ++
    [("units_merged", countValue c.unitsMerged),
      ("failures", .array (c.failures.map failureValue))])

/-- What is known of one unit of a page. -/
def recordValue (r : UnitRecord) : Value :=
  .object (("source", sourceValue r.source) ::
    (r.sections.map (fun (s, names) => (s.name, namesValue names)) ++
      (r.error.map fun e => ("error", Value.string e)).toList))

def pageValue (s : PageScan) : Value := .object [("files", .array (s.records.map recordValue))]

def inventoryJson (i : Inventory) : String := (inventoryValue i).pretty

def corpusJson (c : Corpus) : String := (corpusValue c).pretty

def pageJson (s : PageScan) : String := (pageValue s).pretty

end ScriptInventory.Report
