import ScriptInventory.CommandLine.Run
import ScriptInventory.Proofs.Files.Outline
import ScriptInventory.Proofs.Scan.Exclusion
import ScriptInventory.Proofs.Scan.Order

/-!
# The exit status of the program

`Command.CanRun` says what a command needs: a directory that can be listed and names that
give globs, a manifest and a format that pages have, a script. Main statement: the program
exits with 0 if and only if its settings load and its command can run, and otherwise it writes
no output (`exit_status`).

* `exists_exclusions_eq_ok_iff`: excluded names are all read, and each of them can fail.
* `FileSystem.exists_scan_eq_ok_iff`: a scan needs its directory and nothing of what is
  below it.
* `exists_runPage_eq_ok_iff`: a page has a report whatever comes of fetching.
* `runFrom_code_eq`: the exit status depends on what the command needs and on nothing else.
-/

namespace ScriptInventory

/-! ## Excluded names -/

/-- The rules of an excluded name are globs. -/
def GivesGlobs (name : String) : Prop :=
  ∀ rule ∈ exclusionRules name, ∃ r, Ignore.Rule.parse false rule.toList = .ok r

theorem readExclusion_eq_ok_iff {root rule : String} {r : Option Ignore.Rule} :
    readExclusion root rule = .ok r ↔ Ignore.Rule.parse false rule.toList = .ok r := by
  unfold readExclusion
  cases Ignore.Rule.parse false rule.toList <;> simp [Except.mapError]

/-- There are rules for excluded names if and only if all of them give globs. -/
theorem exists_exclusions_eq_ok_iff {root : String} {names : List String} :
    (∃ rules, exclusions root names = .ok rules) ↔ ∀ name ∈ names, GivesGlobs name := by
  have hrules : (∃ rules, exclusions root names = .ok rules) ↔
      ∃ rs, (names.flatMap exclusionRules).mapM (readExclusion root) = .ok rs := by
    rw [exclusions_eq]
    cases (names.flatMap exclusionRules).mapM (readExclusion root) <;>
      simp [bind, Except.bind, pure, Except.pure]
  rw [hrules, exists_mapM_eq_ok_iff]
  simp only [readExclusion_eq_ok_iff, List.mem_flatMap, GivesGlobs]
  constructor
  · intro h name hname rule hrule
    exact h rule ⟨name, hname, hrule⟩
  · rintro h rule ⟨name, hname, hrule⟩
    exact h name hname rule hrule

/-! ## Directories -/

namespace FileSystem

variable {s s' : FileSystem}

/-- A path leads to a directory, and the directory can be listed. -/
def CanList (s : FileSystem) (path : String) : Prop :=
  ∃ children, s.get path = .ok (.directory none children)

theorem canList_iff {path : String} :
    s.CanList path ↔
      ∃ top children, s.place path = .ok top ∧
        s.root.at? top = some (.directory none children) := by
  unfold CanList get
  cases s.place path with
  | error e => simp [bind, Except.bind]
  | ok top => cases hat : s.root.at? top <;> simp [hat, bind, Except.bind, pure, Except.pure]

/-- What files hold does not matter. -/
theorem CanList.of_sameOutline {path : String} (hhere : s'.here = s.here)
    (houtline : FileTree.SameOutline s.root s'.root) (h : s.CanList path) :
    s'.CanList path := by
  obtain ⟨top, children, htop, hat⟩ := canList_iff.1 h
  obtain ⟨children', hat'⟩ := houtline.at?_directory hat
  exact canList_iff.2
    ⟨top, children', (place_eq_of_sameOutline hhere houtline path).trans htop, hat'⟩

/-- A scan has a corpus if and only if it has a directory that can be listed and names that
give globs. -/
theorem exists_scan_eq_ok_iff {root : String} {config : ScanConfig} :
    (∃ corpus, s.scan root config = .ok corpus) ↔
      s.CanList root ∧ ∀ name ∈ config.excluded, GivesGlobs name := by
  have hsources : (∃ corpus, s.scan root config = .ok corpus) ↔
      ∃ sources, s.sources root config = .ok sources := by
    unfold scan
    cases s.sources root config <;> simp [Except.map]
  rw [hsources, canList_iff, ← @exists_exclusions_eq_ok_iff root]
  simp only [sources_eq_ok_iff]
  constructor
  · rintro ⟨-, top, children, rules, htop, hat, hrules, -⟩
    exact ⟨⟨top, children, htop, hat⟩, rules, hrules⟩
  · rintro ⟨⟨top, children, htop, hat⟩, rules, hrules⟩
    exact ⟨_, top, children, rules, htop, hat, hrules, rfl⟩

end FileSystem

namespace CommandLine

/-! ## What a run needs -/

/-- The settings that count: the defaults, or those that the settings file gives, which can be
read and parsed. -/
def Loads (s : FileSystem) : Option String → Config → Prop
  | none, config => config = {}
  | some path, config => ∃ text, s.readText path = .ok text ∧ Config.ofText text = .ok config

theorem loadConfig_eq_ok_iff {s : FileSystem} {path : Option String} {config : Config} :
    loadConfig s path = .ok config ↔ Loads s path config := by
  cases path with
  | none => simp [loadConfig, Loads, eq_comm]
  | some path =>
    unfold loadConfig Loads
    cases hread : s.readText path with
    | error e => simp [hread]
    | ok text => cases hparse : Config.ofText text <;> simp [hread, hparse]

/-- A manifest can be read and parsed. -/
def HasManifest (s : FileSystem) (path : String) : Prop :=
  ∃ text page, s.readText path = .ok text ∧ PageManifest.ofText text = .ok page

/-- What a command needs to give a report. -/
def Command.CanRun (s : FileSystem) (config : Config) : Command → Prop
  | .scan root _ _ excluded _ =>
    s.CanList root ∧ ∀ name ∈ config.scan.excluded ++ excluded, GivesGlobs name
  | .page manifest _ format => HasManifest s manifest ∧ format ≠ .xml
  | .inspect file byPattern =>
    ∃ text, s.readText file = .ok text ∧
      (byPattern = false → ∃ root, Script.parse text = .ok root)

/-! ## Commands -/

section Commands

variable {σ : Type} {s : FileSystem}

theorem runScan_eq_ok_iff {root output : String} {format : Report.Format} {config : ScanConfig} :
    runScan s root format config = .ok output ↔
      ∃ corpus, s.scan root config = .ok corpus ∧ Report.corpus corpus format = output := by
  unfold runScan
  cases s.scan root config <;> simp

/-- A page has an output in any format but one, whatever came of its scripts. -/
theorem exists_pageOutput_eq_ok_iff {page : PageScan} {format : Report.Format} :
    (∃ output, pageOutput page format = .ok output) ↔ format ≠ .xml := by
  cases format <;> simp [pageOutput, Report.page]

theorem exists_runPage_eq_ok_iff {path : String} {strategy : Strategy} {format : Report.Format}
    (fetch : String → StateM σ (Option String)) (start : σ) :
    (∃ output, ((runPage fetch s path strategy format).run start).1 = .ok output) ↔
      HasManifest s path ∧ format ≠ .xml := by
  unfold HasManifest
  cases hread : s.readText path with
  | error e => simp [runPage, hread]
  | ok text =>
    cases hparse : PageManifest.ofText text with
    | error fault => simp [runPage, hread, hparse]
    | ok page =>
      have hrun : ((runPage fetch s path strategy format).run start).1 =
          pageOutput ((page.scan fetch strategy).run start).1 format := by
        simp only [runPage, hread, hparse]
        rfl
      rw [hrun, exists_pageOutput_eq_ok_iff]
      simp [hparse]

theorem exists_runInspect_eq_ok_iff {path : String} {byPattern : Bool} :
    (∃ output, runInspect s path byPattern = .ok output) ↔
      ∃ text, s.readText path = .ok text ∧
        (byPattern = false → ∃ root, Script.parse text = .ok root) := by
  unfold runInspect
  cases s.readText path with
  | error e => simp
  | ok text =>
    cases byPattern with
    | true => simp
    | false => cases hparse : Script.parse text <;>
        simp [hparse, Declaration.structural, Except.map]

/-- A command gives an output if and only if it can run. -/
theorem exists_runCommand_eq_ok_iff {config : Config} {command : Command}
    (fetch : String → StateM σ (Option String)) (start : σ) :
    (∃ output, ((runCommand fetch s config command).run start).1 = .ok output) ↔
      command.CanRun s config := by
  cases command with
  | scan root format extensions excluded respectsIgnoreFiles =>
    have hcorpus : (∃ output, runScan s root format
        (effective config.scan extensions excluded respectsIgnoreFiles) = .ok output) ↔
        ∃ corpus, s.scan root
          (effective config.scan extensions excluded respectsIgnoreFiles) = .ok corpus := by
      simp [runScan_eq_ok_iff]
    exact hcorpus.trans FileSystem.exists_scan_eq_ok_iff
  | page manifest strategy format => exact exists_runPage_eq_ok_iff fetch start
  | inspect file byPattern => exact exists_runInspect_eq_ok_iff

end Commands

/-! ## Runs -/

section Runs

variable {σ : Type} {s : FileSystem} {arguments : List String} {path : Option String}
  {command : Command}

/-- What a run gives if fetching starts in a state, which it may change. -/
def runFrom (fetch : String → StateM σ (Option String)) (start : σ) (s : FileSystem)
    (arguments : List String) : Outcome :=
  ((runFetching fetch s arguments).run start).1

theorem outcomeOf_code_eq_zero_iff {r : Except Failure String} :
    (outcomeOf r).code = 0 ↔ ∃ output, r = .ok output := by
  cases r <;> simp [outcomeOf]

theorem outcomeOf_output_of_code_ne_zero {r : Except Failure String}
    (h : (outcomeOf r).code ≠ 0) : (outcomeOf r).output = "" := by
  cases r with
  | error failure => rfl
  | ok output => exact absurd rfl h

/-- Exit codes of commands are equal if both tell of success or none does. -/
theorem outcomeOf_code_eq_of_iff {r r' : Except Failure String}
    (h : (outcomeOf r).code = 0 ↔ (outcomeOf r').code = 0) :
    (outcomeOf r).code = (outcomeOf r').code := by
  cases r <;> cases r' <;> simp_all [outcomeOf]

/-- What a run comes to whose arguments are understood: the settings are loaded first. -/
def resultFrom (fetch : String → StateM σ (Option String)) (start : σ) (s : FileSystem)
    (path : Option String) (command : Command) : Except Failure String :=
  loadConfig s path >>= fun config => ((runCommand fetch s config command).run start).1

theorem runFrom_eq (hrequest : request? [] arguments = some (.run path command))
    (fetch : String → StateM σ (Option String)) (start : σ) (s : FileSystem) :
    runFrom fetch start s arguments = outcomeOf (resultFrom fetch start s path command) := by
  unfold runFrom runFetching resultFrom
  rw [hrequest]
  cases hload : loadConfig s path with
  | error failure =>
    simp only [perform, hload]
    rfl
  | ok config =>
    simp only [perform, hload]
    rfl

theorem runFrom_code_eq_zero_iff (hrequest : request? [] arguments = some (.run path command))
    (fetch : String → StateM σ (Option String)) (start : σ) :
    (runFrom fetch start s arguments).code = 0 ↔
      ∃ config, Loads s path config ∧ command.CanRun s config := by
  rw [runFrom_eq hrequest, outcomeOf_code_eq_zero_iff]
  simp only [← loadConfig_eq_ok_iff, ← exists_runCommand_eq_ok_iff fetch start, resultFrom]
  cases loadConfig s path <;> simp [bind, Except.bind]

/-- If a command has what it needs in two runs or in none, their exit codes are the same. -/
theorem runFrom_code_eq {τ : Type} {s' : FileSystem}
    (hrequest : request? [] arguments = some (.run path command))
    (hload : loadConfig s' path = loadConfig s path)
    (hcan : ∀ config, command.CanRun s' config ↔ command.CanRun s config)
    (fetch : String → StateM σ (Option String)) (start : σ)
    (fetch' : String → StateM τ (Option String)) (start' : τ) :
    (runFrom fetch' start' s' arguments).code = (runFrom fetch start s arguments).code := by
  have hzero : (runFrom fetch' start' s' arguments).code = 0 ↔
      (runFrom fetch start s arguments).code = 0 := by
    rw [runFrom_code_eq_zero_iff hrequest, runFrom_code_eq_zero_iff hrequest]
    simp only [← loadConfig_eq_ok_iff, hload, hcan]
  rw [runFrom_eq hrequest, runFrom_eq hrequest] at hzero ⊢
  exact outcomeOf_code_eq_of_iff hzero

/-- What a scan writes. -/
theorem runFrom_scan_output {root : String} {format : Report.Format}
    {extensions : Option (List String)} {excluded : List String} {respectsIgnoreFiles : Bool}
    (hrequest : request? [] arguments =
      some (.run path (.scan root format extensions excluded respectsIgnoreFiles)))
    (fetch : String → StateM σ (Option String)) (start : σ)
    (hcode : (runFrom fetch start s arguments).code = 0) :
    ∃ config corpus, Loads s path config ∧
      s.scan root (effective config.scan extensions excluded respectsIgnoreFiles) = .ok corpus ∧
      (runFrom fetch start s arguments).output = Report.corpus corpus format := by
  rw [runFrom_eq hrequest] at hcode ⊢
  obtain ⟨output, houtput⟩ := outcomeOf_code_eq_zero_iff.1 hcode
  rw [houtput]
  unfold resultFrom at houtput
  cases hload : loadConfig s path with
  | error failure => simp [hload, bind, Except.bind] at houtput
  | ok config =>
    rw [hload] at houtput
    obtain ⟨corpus, hscan, hreport⟩ := runScan_eq_ok_iff.1 houtput
    exact ⟨config, corpus, loadConfig_eq_ok_iff.1 hload, hscan, hreport.symm⟩

/-- **What the exit status tells.** Of arguments that ask for a command, the exit status is 0
if and only if the settings load and the command has what it needs. If it is another one, no
output is written. It makes no difference to the exit status what fetching comes to; for a
page, which scripts a manifest has; and for a scan, what is in the files, as long as the
settings stay the same. The output of a scan is the report of its corpus, for the settings
with the changes that its options make. -/
theorem exit_status (hrequest : request? [] arguments = some (.run path command))
    (fetch : String → StateM σ (Option String)) (start : σ) (s : FileSystem) :
    ((runFrom fetch start s arguments).code = 0 ↔
      ∃ config, Loads s path config ∧ command.CanRun s config) ∧
    ((runFrom fetch start s arguments).code ≠ 0 →
      (runFrom fetch start s arguments).output = "") ∧
    (∀ {τ : Type} (fetch' : String → StateM τ (Option String)) (start' : τ),
      (runFrom fetch' start' s arguments).code = (runFrom fetch start s arguments).code) ∧
    (∀ manifest strategy format, command = .page manifest strategy format →
      ∀ s', loadConfig s' path = loadConfig s path → HasManifest s manifest →
        HasManifest s' manifest →
        (runFrom fetch start s' arguments).code = (runFrom fetch start s arguments).code) ∧
    (∀ root format extensions excluded respectsIgnoreFiles,
      command = .scan root format extensions excluded respectsIgnoreFiles →
      (∀ s', s'.here = s.here → FileTree.SameOutline s.root s'.root →
        loadConfig s' path = loadConfig s path →
        (runFrom fetch start s' arguments).code = (runFrom fetch start s arguments).code) ∧
      ((runFrom fetch start s arguments).code = 0 →
        ∃ config corpus, Loads s path config ∧
          s.scan root { config.scan with
            extensions := extensions.getD config.scan.extensions
            excluded := config.scan.excluded ++ excluded
            respectsIgnoreFiles :=
              config.scan.respectsIgnoreFiles || respectsIgnoreFiles } = .ok corpus ∧
          (runFrom fetch start s arguments).output = Report.corpus corpus format)) := by
  -- whatever does not change what the command needs does not change the exit status
  refine ⟨runFrom_code_eq_zero_iff hrequest fetch start, ?_, ?_, ?_, ?_⟩
  · rw [runFrom_eq hrequest]
    exact outcomeOf_output_of_code_ne_zero
  · intro τ fetch' start'
    exact runFrom_code_eq hrequest rfl (fun _ => Iff.rfl) fetch start fetch' start'
  · rintro manifest strategy format rfl s' hload hmanifest hmanifest'
    refine runFrom_code_eq hrequest hload (fun config => ?_) fetch start fetch start
    simp only [Command.CanRun, hmanifest, hmanifest']
  · rintro root format extensions excluded respectsIgnoreFiles rfl
    refine ⟨?_, runFrom_scan_output hrequest fetch start⟩
    intro s' hhere houtline hload
    refine runFrom_code_eq hrequest hload (fun config => and_congr_left fun _ => ?_)
      fetch start fetch start
    exact ⟨FileSystem.CanList.of_sameOutline hhere.symm houtline.symm,
      FileSystem.CanList.of_sameOutline hhere houtline⟩

/-- A directory in which nothing can be had: of the files, one is no text and one is not
given out, and the directory next to them cannot be listed. -/
def noText : FileSystem where
  root := .directory none [("a.js", .file (.readable ⟨#[0xFF]⟩)),
    ("b.js", .file (.refused 9 ⟨13, "Permission denied"⟩)),
    ("lib", .directory (some ⟨13, "Permission denied"⟩) [])]
  here := []

theorem isLiteral_lib : IsLiteral "lib" :=
  ⟨by decide, by decide, by decide⟩

theorem givesGlobs_lib : GivesGlobs "lib" := by
  have hrules := @exclusions_of_literal "." ["lib"] (by simp [isLiteral_lib])
  exact exists_exclusions_eq_ok_iff.1 ⟨_, hrules⟩ "lib" List.mem_cons_self

/-- None of the files gives an inventory, but their directory can be scanned. The one below it
cannot be a root. -/
theorem exit_status_noText :
    String.fromUTF8? ⟨#[0xFF]⟩ = none ∧
      request? [] ["scan", ".", "--exclude-dir", "lib"] =
        some (.run none (.scan "." .text none ["lib"] false)) ∧
      (runFrom (fun _ => (pure none : StateM Unit _)) () noText
        ["scan", ".", "--exclude-dir", "lib"]).code = 0 ∧
      ¬ noText.CanList "lib" := by
  have hrequest : request? [] ["scan", ".", "--exclude-dir", "lib"] =
      some (.run none (.scan "." .text none ["lib"] false)) := by decide +kernel
  have hdirectory : noText.CanList "." :=
    FileSystem.canList_iff.2 ⟨_, _, FileSystem.place_dot rfl, rfl⟩
  refine ⟨by decide +kernel, hrequest, (exit_status hrequest _ _ _).1.2
    ⟨{}, rfl, hdirectory, by simp [givesGlobs_lib]⟩, ?_⟩
  have hstart : FileSystem.start [] "lib" = ([], ["lib"]) :=
    FileSystem.start_of_slash_not_mem _ (by simp)
  have hplace : noText.place "lib" = .ok ["lib"] := by
    rw [FileSystem.place, FileSystem.placeFrom, if_neg (by decide),
      show noText.here = [] from rfl, hstart]
    simp [FileSystem.follow_cons, FileSystem.hop, noText, FileTree.at?_cons,
      FileTree.child?_directory, FileSystem.Hop.into]
  rw [FileSystem.canList_iff]
  rintro ⟨top, children, htop, hat⟩
  obtain rfl : ["lib"] = top := by simpa [hplace] using htop
  simp [noText, FileTree.at?_cons, FileTree.child?_directory] at hat

end Runs

end CommandLine

end ScriptInventory
