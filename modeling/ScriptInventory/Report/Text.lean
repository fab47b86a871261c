import ScriptInventory.Corpus
import ScriptInventory.Page.Record

/-!
# Reports as plain text

A text report is a list of lines. The report of a corpus has a section for each kind
of names, with their number in its heading, and then a summary of the units. The
report of a page has a block for each unit; sections without names are left out.
-/

namespace ScriptInventory.Report

/-- Lines as a text; each of them is ended. -/
def ofLines (lines : List String) : String := String.join (lines.map (· ++ "\n"))

/-! ## Corpora -/

def heading : SymbolKind → String
  | .class => "Classes"
  | .method => "Class methods"
  | .property => "Class properties"
  | .function => "Functions"
  | .variable => "Variables and constants"

def kindLines (c : Corpus) (kind : SymbolKind) : List String :=
  let names := c.names kind
  (heading kind ++ s!" ({names.size}):") :: (names.toList.map ("  " ++ ·) ++ [""])

/-- The summary of the units. How many there are is a sum of two machine words in the
program, which would wrap around from 2 ^ 64 units on; here it is the sum. -/
def summaryLines (c : Corpus) : List String :=
  let failed := c.failures.length
  let skipped :=
    if c.failures.isEmpty then []
    else s!"Skipped {failed} file(s):" ::
      c.failures.map fun f => "  " ++ f.source.display ++ ": " ++ f.error
  s!"Scanned {c.unitsMerged + failed} file(s)." :: skipped

def corpusText (c : Corpus) : String :=
  ofLines (SymbolKind.all.flatMap (kindLines c) ++ summaryLines c)

/-! ## Pages -/

/-- The lines of a section, if it has names. -/
def sectionLines (s : Section) (names : List String) : List String :=
  if names.isEmpty then [] else ("  " ++ s.title ++ ":") :: names.map ("    " ++ ·)

def recordLines (r : UnitRecord) : List String :=
  r.source.label?.getD "Inline Script" ::
    match r.error with
    | some error => ["  error: " ++ error]
    | none => r.sections.flatMap fun (s, names) => sectionLines s names

def pageText (s : PageScan) : String :=
  if s.records.isEmpty then ofLines ["No JavaScript found."]
  else ofLines (s.records.flatMap recordLines)

end ScriptInventory.Report
