import ScriptInventory.Report.Format
import ScriptInventory.Report.Json
import ScriptInventory.Report.Text
import ScriptInventory.Report.Xml

/-!
# Reports in any format
-/

namespace ScriptInventory.Report

def corpus (c : Corpus) : Format → String
  | .text => corpusText c
  | .json => corpusJson c
  | .xml => corpusXml c

/-- The report of a page, which has no XML form. -/
def page (s : PageScan) : Format → Except RenderError String
  | .text => .ok (pageText s)
  | .json => .ok (pageJson s)
  | .xml => .error .noXmlForPages

end ScriptInventory.Report
