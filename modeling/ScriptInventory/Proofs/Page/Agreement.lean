import ScriptInventory.Proofs.Page.Records
import ScriptInventory.Proofs.Scan.Listing
import ScriptInventory.Proofs.Scan.Outcome
import ScriptInventory.Proofs.Walk

/-!
# Pages and directories agree

The same texts may stand in a page or be the sources of a directory. Main statement: the
corpus of the directory has the names that the records of the page have, counts the
records without an error, and has the errors of the others
(`FileSystem.page_and_directory_agree`).

* `UnitRecord.Reports`: a record and the outcome of a source say the same.
* `scriptRecord_reports`: they do if the source has the text of the record.
* `UnitRecord.reports_of_outcomes`: and so do those of many texts.
* `FileSystem.standard_input_disagrees`: a directory with the name of standard input does
  not agree with a page.
-/

namespace ScriptInventory

/-- The section with the names of a kind. -/
def Section.ofKind : SymbolKind → Section
  | .class => .classes
  | .method => .methods
  | .property => .properties
  | .function => .functions
  | .variable => .variables

/-- The records of a page without an error. -/
def PageScan.sound (p : PageScan) : List UnitRecord := p.records.filter fun r => !r.isError

namespace UnitRecord

/-- The names that several records have in a section, one after the other. -/
def namesIn (s : Section) (records : List UnitRecord) : List String :=
  records.flatMap fun r => (r.names? s).getD []

/-- A record says what comes of a source: the same names of each kind, or the same
message. -/
inductive Reports : UnitRecord → Except String Inventory → Prop
  | sound {i j : Inventory} :
      (∀ k, (i.names k).toList = (j.names k).toList) →
      Reports (.structural i) (.ok j)
  | failed {source : SourceUnit} {message : String} :
      Reports (.failed source message) (.error message)

@[simp] theorem names?_structural (i : Inventory) (k : SymbolKind) :
    (structural i).names? (.ofKind k) = some (i.names k).toList := by
  cases k <;> rfl

@[simp] theorem error_structural (i : Inventory) : (structural i).error = none := rfl

@[simp] theorem error_failed (source : SourceUnit) (message : String) :
    (failed source message).error = some message := rfl

@[simp] theorem isError_structural (i : Inventory) : (structural i).isError = false := rfl

@[simp] theorem isError_failed (source : SourceUnit) (message : String) :
    (failed source message).isError = true := rfl

end UnitRecord

/-! ## One text -/

theorem fromUTF8?_toUTF8 (text : String) : String.fromUTF8? text.toUTF8 = some text := by
  have hvalid : text.toUTF8.IsValidUTF8 := text.isValidUTF8
  unfold String.fromUTF8?
  rw [dif_pos hvalid]
  rfl

/-- The names in a tree do not depend on the unit that it comes from. -/
theorem Declaration.toList_collectTree_empty (root : Script.Node) (source source' : SourceUnit)
    (k : SymbolKind) :
    ((collectTree root (.empty source)).names k).toList =
      ((collectTree root (.empty source')).names k).toList := by
  rw [toList_collectTree, toList_collectTree]
  cases k <;> rfl

/-- The record of a text says what comes of a source with this text, if it has not too many
bytes. -/
theorem scriptRecord_reports {limit : Nat} {f : SourceFile} {r : Except String Inventory}
    {text : String} (hout : f.Outcome limit r) (hbody : f.body = .readable text.toUTF8)
    (hsize : text.toUTF8.size ≤ limit) (source : SourceUnit) :
    (scriptRecord .structural source text).Reports r := by
  have htext : ∀ {content}, f.body = .readable content →
      String.fromUTF8? content = some text := by
    intro content hcontent
    rw [hbody] at hcontent
    cases hcontent
    exact fromUTF8?_toUTF8 text
  cases hout with
  | tooLarge hlarge =>
    rw [SourceFile.bytes, hbody, FileBody.bytes] at hlarge
    omega
  | refused _ hrefused =>
    rw [hbody] at hrefused
    cases hrefused
  | notText _ hcontent hnone =>
    rw [htext hcontent] at hnone
    cases hnone
  | damaged _ hcontent hsome hparse =>
    rw [htext hcontent] at hsome
    cases hsome
    rw [scriptRecord, Declaration.structural, hparse]
    exact .failed
  | sound _ hcontent hsome hparse =>
    rw [htext hcontent] at hsome
    cases hsome
    rw [scriptRecord, Declaration.structural, hparse]
    exact .sound (Declaration.toList_collectTree_empty _ _ _)

/-! ## Many texts -/

namespace UnitRecord

/-- The records of the texts of some sources say what comes of the sources. -/
theorem reports_of_outcomes {limit : Nat} {files : List SourceFile}
    {outcomes : List (Except String Inventory)} {texts : List String}
    (houtcomes : List.Forall₂ (SourceFile.Outcome limit) files outcomes)
    (hcontents : files.map SourceFile.body = texts.map fun t => .readable t.toUTF8)
    (hsizes : ∀ t ∈ texts, t.toUTF8.size ≤ limit) (source : SourceUnit) :
    List.Forall₂ Reports (texts.map (scriptRecord .structural source)) outcomes := by
  induction houtcomes generalizing texts with
  | nil =>
    rw [List.map_nil, List.nil_eq, List.map_eq_nil_iff] at hcontents
    rw [hcontents]
    exact .nil
  | @cons f r files outcomes hout _ ih =>
    cases texts with
    | nil => cases hcontents
    | cons text texts =>
      rw [List.map_cons, List.map_cons, List.cons.injEq] at hcontents
      exact .cons
        (scriptRecord_reports hout hcontents.1 (hsizes text List.mem_cons_self) source)
        (ih hcontents.2 fun t ht => hsizes t (List.mem_cons_of_mem _ ht))

variable {records : List UnitRecord} {outcomes : List (Except String Inventory)}

/-- Records without an error have sections for all kinds. -/
theorem isSome_names?_of_reports (h : List.Forall₂ Reports records outcomes) :
    ∀ r ∈ records.filter (fun r => !r.isError), ∀ k, (r.names? (.ofKind k)).isSome := by
  induction h with
  | nil => simp
  | cons hr _ ih =>
    cases hr with
    | sound _ => simpa using ih
    | failed => simpa using ih

/-- Records have the names of the inventories that they are about. -/
theorem namesIn_of_reports (h : List.Forall₂ Reports records outcomes) (k : SymbolKind) :
    namesIn (.ofKind k) (records.filter fun r => !r.isError) =
      Corpus.namesOf k (outcomes.filterMap Except.toOption) := by
  induction h with
  | nil => rfl
  | cons hr _ ih =>
    rw [namesIn, Corpus.namesOf] at ih ⊢
    cases hr with
    | sound hnames => simp [Except.toOption, hnames k, ih]
    | failed => simp [List.filterMap_cons, Except.toOption, ih]

theorem length_of_reports (h : List.Forall₂ Reports records outcomes) :
    (records.filter fun r => !r.isError).length =
      (outcomes.filterMap Except.toOption).length := by
  induction h with
  | nil => rfl
  | cons hr _ ih =>
    cases hr <;> simp [List.filterMap_cons, Except.toOption, ih]

/-- The messages about sources are the errors of the records. -/
theorem errors_of_reports (h : List.Forall₂ Reports records outcomes)
    {files : List SourceFile} (hlength : files.length = outcomes.length) :
    ((files.zip outcomes).filterMap fun o => o.1.failureOf o.2).map UnitFailure.error =
      records.filterMap error := by
  induction h generalizing files with
  | nil => simp
  | cons hr _ ih =>
    cases files with
    | nil => cases hlength
    | cons f files =>
      have hrest := ih (Nat.succ.inj hlength)
      cases hr <;> simp [List.filterMap_cons, hrest]

end UnitRecord

/-! ## Scans -/

/-- Scripts whose texts stand in the page are not fetched. -/
theorem ScriptReference.Texts.of_inline (texts : List String) :
    Texts (texts.map .inline) [] (texts.map some) := by
  induction texts with
  | nil => exact .nil
  | cons text texts ih => exact .inline ih

theorem PageManifest.scan_inline (texts : List String) (strategy : Strategy) {σ : Type}
    (fetch : String → StateM σ (Option String)) (start : σ) :
    (PageManifest.scan ⟨texts.map .inline, none⟩ fetch strategy).run start =
      (⟨texts.map (scriptRecord strategy .inline)⟩, start) := by
  have hrecords : List.zipWith (ScriptReference.recordOf strategy)
      (texts.map .inline) (texts.map some) = texts.map (scriptRecord strategy .inline) := by
    rw [List.zipWith_map, List.zipWith_self]
    rfl
  rw [scan, StateT.run_bind, scriptRecords_run fetch strategy (.of_inline texts) .nil,
    hrecords]
  show (_, _) = _
  rw [globalRecords, List.append_nil]

namespace FileSystem

variable {s : FileSystem} {root : String} {config : ScanConfig} {top : List String}
  {children : List (String × FileTree)} {texts : List String} {files : List SourceFile}

/-- **Pages and directories agree.** Some texts, each of them not too large, stand in a
page, one after the other, and are the contents of the sources of a directory, in the
order of the paths. Then both scans succeed, and nothing is fetched; of each kind, the
corpus has the first occurrences of the names in the records without an error, which all
have a section for it; these records are as many as the inventories that are merged; and
the failures have the errors of the other records, in the same order. -/
theorem page_and_directory_agree (hwf : s.root.WellFormed) (htop : s.place root = .ok top)
    (hat : s.root.at? top = some (.directory none children))
    (hinput : isStandardInput root = false) (hrespects : config.respectsIgnoreFiles = false)
    (hexcluded : config.excluded = [])
    (hfiles : ∀ f, f ∈ files ↔ (FileTree.directory none children).IsSource config f)
    (hsorted : files.Pairwise fun f g => f.path < g.path)
    (hcontents : files.map SourceFile.body = texts.map fun t => .readable t.toUTF8)
    (hsizes : ∀ t ∈ texts, t.toUTF8.size ≤ config.maxFileBytes)
    {σ : Type} (fetch : String → StateM σ (Option String)) (start : σ) :
    ∃ page corpus,
      (PageManifest.scan ⟨texts.map .inline, none⟩ fetch .structural).run start =
        (page, start) ∧
      s.scan root config = .ok corpus ∧
      page.records.length = texts.length ∧
      (∀ r ∈ page.sound, ∀ k, (r.names? (.ofKind k)).isSome) ∧
      (∀ k, (corpus.names k).toList =
        firstOccurrences (UnitRecord.namesIn (.ofKind k) page.sound)) ∧
      corpus.unitsMerged = page.sound.length ∧
      corpus.failures.map UnitFailure.error = page.records.filterMap UnitRecord.error := by
  obtain ⟨sources, hsources, hmem, hsourcesSorted⟩ :=
    sources_eq_listed hwf htop hat hinput (by simp [hexcluded, not_excludes_nil]) hrespects
      (by simp [hexcluded])
  -- both lists are sorted and have the same sources, so they are the same list
  obtain rfl : sources = files :=
    SourceFile.eq_of_mem_iff hsourcesSorted hsorted fun f => (hmem f).trans (hfiles f).symm
  obtain ⟨outcomes, houtcomes, hunits, hfailures, hnames⟩ :=
    (Corpus.ofSources_accounts config.maxFileBytes sources).outcomes
  -- unit by unit, a record reports what the source comes to
  have hreports := UnitRecord.reports_of_outcomes houtcomes hcontents hsizes .inline
  refine ⟨_, _, PageManifest.scan_inline texts .structural fetch start,
    scan_of_sources hsources, List.length_map _,
    UnitRecord.isSome_names?_of_reports hreports, ?_, ?_, ?_⟩
  · intro k
    rw [hnames k, PageScan.sound, UnitRecord.namesIn_of_reports hreports]
  · rw [hunits, PageScan.sound, UnitRecord.length_of_reports hreports]
  · rw [hfailures, UnitRecord.errors_of_reports hreports houtcomes.length_eq]

/-- Two scripts with a class each, a file that is none, and a directory that cannot be
listed. -/
def twoClasses : FileSystem where
  root := .directory none [("b.js", .file (.readable "class A {}".toUTF8)),
    ("notes.txt", .file (.readable .empty)),
    ("tmp", .directory (some permissionDenied) [("c.js", .file (.readable .empty))]),
    ("a.js", .file (.readable "class B {}".toUTF8))]
  here := []

theorem twoClasses_wellFormed : twoClasses.root.WellFormed := by
  simp [twoClasses, FileTree.IsFileName]

theorem twoClasses_isSource_iff (f : SourceFile) :
    twoClasses.root.IsSource {} f ↔
      f ∈ [⟨["a.js"], .readable "class B {}".toUTF8⟩,
        ⟨["b.js"], .readable "class A {}".toUTF8⟩] := by
  have hext : HasSourceExtension ({} : ScanConfig).extensions "a.js" ∧
      HasSourceExtension ({} : ScanConfig).extensions "b.js" ∧
      ¬ HasSourceExtension ({} : ScanConfig).extensions "notes.txt" := by
    simp only [← hasExtension_iff]
    decide
  rw [← FileTree.lists_nil_iff, twoClasses, FileTree.lists_cons_iff (by simp),
    FileTree.lists_cons_iff (by simp), FileTree.lists_cons_iff (by simp),
    FileTree.lists_cons_iff (by simp)]
  simp only [FileTree.lists_file_iff]
  simp [FileTree.not_lists_empty, FileTree.not_lists_denied, hext, not_excludes_nil, or_comm]

/-- The directory has the classes of the page. -/
theorem twoClasses_agree :
    ∃ corpus, twoClasses.scan "." {} = .ok corpus ∧ corpus.classes.toList = ["B", "A"] ∧
      corpus.unitsMerged = 2 ∧ corpus.failures = [] := by
  obtain ⟨page, corpus, hpage, hscan, -, -, hnames, hunits, hfailures⟩ :=
    @page_and_directory_agree twoClasses "." {} [] _ ["class B {}", "class A {}"] _
      twoClasses_wellFormed (place_dot (FileTree.at?_nil twoClasses.root))
      (FileTree.at?_nil twoClasses.root) isStandardInput_dot rfl rfl
      (fun f => (twoClasses_isSource_iff f).symm) (by simp; decide) rfl (by decide +kernel)
      Unit (fun _ => pure none) ()
  rw [PageManifest.scan_inline] at hpage
  cases hpage
  refine ⟨corpus, hscan, ?_, ?_, ?_⟩
  · rw [show corpus.classes = corpus.names .class from rfl, hnames]
    decide +kernel
  · rw [hunits]
    decide +kernel
  · rw [← List.map_eq_nil_iff, hfailures]
    decide +kernel

/-- The source of a directory with the name of standard input has a class, and so has a
page with its text, but the corpus of the directory has none. -/
theorem standard_input_disagrees :
    (∀ f, (FileTree.directory none [("a.js", .file loneScript.body)]).IsSource {} f ↔
        f = loneScript) ∧
      (inDirectory "-").root.WellFormed ∧ (inDirectory "-").place "-" = .ok ["-"] ∧
      (inDirectory "-").root.at? ["-"] =
        some (.directory none [("a.js", .file loneScript.body)]) ∧
      ∃ page corpus,
        (PageManifest.scan ⟨["class A {}"].map .inline, none⟩
          (fun _ => (pure none : StateM Unit (Option String))) .structural).run () =
            (page, ()) ∧
        (inDirectory "-").scan "-" {} = .ok corpus ∧
        UnitRecord.namesIn .classes page.sound = ["A"] ∧ corpus.classes.toList = [] ∧
        page.sound.length = 1 ∧ corpus.unitsMerged = 0 := by
  refine ⟨loneScript_isSource_iff hasSourceExtension_js (not_excludes_nil _),
    inDirectory_wellFormed (by simp [FileTree.IsFileName]), dashed_place, inDirectory_at "-", _, _,
    PageManifest.scan_inline _ _ _ _, scan_of_sources dashed_sources, ?_, rfl, ?_, rfl⟩
  · decide +kernel
  · decide +kernel

end FileSystem

end ScriptInventory
