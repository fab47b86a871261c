import Mathlib.Data.List.Forall2
import ScriptInventory.Proofs.Corpus
import ScriptInventory.Scan.Directory

/-!
# What comes of the sources of a scan

`SourceFile.Outcome` says what comes of a source, with the reasons to fail in the order
in which they are looked at. Main statement: the corpus of a scan accounts for every
source once, as a failure or as an inventory (`Corpus.ofSources_accounts`).

* `SourceFile.outcome_iff`: every source has exactly one outcome.
* `Corpus.foldl_addSource_eq_run`: adding sources is a run of updates.
* `Corpus.foldl_addSource`: what adding sources does to a corpus, whatever it holds.
-/

namespace ScriptInventory

namespace SourceFile

/-- What comes of a source: its inventory, or a message if it fails. The first of the
reasons counts. -/
inductive Outcome (limit : Nat) (f : SourceFile) : Except String Inventory → Prop
  | tooLarge : limit < f.bytes →
      Outcome limit f
        (.error s!"skipped: {f.bytes} bytes exceeds max_file_bytes ({limit})")
  /-- The system does not give the content. -/
  | refused {size : Nat} {error : SystemError} : f.bytes ≤ limit →
      f.body = .refused size error → Outcome limit f (.error ("failed to read: " ++ error.message))
  | notText {content : ByteArray} : f.bytes ≤ limit → f.body = .readable content →
      String.fromUTF8? content = none →
      Outcome limit f (.error "failed to read: stream did not contain valid UTF-8")
  | damaged {content : ByteArray} {text : String} {damage : Script.Damage} : f.bytes ≤ limit →
      f.body = .readable content → String.fromUTF8? content = some text →
      Script.parse text = .error damage → Outcome limit f (.error damage.message)
  | sound {content : ByteArray} {text : String} {root : Script.Node} : f.bytes ≤ limit →
      f.body = .readable content → String.fromUTF8? content = some text →
      Script.parse text = .ok root →
      Outcome limit f
        (.ok (Declaration.collectTree root (.empty (.file f.relativePath))))

/-- The inventory of a source, or the message about it. -/
def result (limit : Nat) (f : SourceFile) : Except String Inventory :=
  (f.inventory limit).mapError SourceError.message

theorem text_readable (content : ByteArray) :
    (FileBody.readable content).text =
      match String.fromUTF8? content with
      | some text => .ok text
      | none => .error .notText := by
  unfold FileBody.text
  simp only [FileBody.content, bind, Except.bind]
  cases String.fromUTF8? content <;> rfl

theorem text_refused (bytes : Nat) (error : SystemError) :
    (FileBody.refused bytes error).text = .error (.system error) := rfl

/-- The result of a source of the right size. -/
theorem result_of_le {limit : Nat} {f : SourceFile} (hsize : f.bytes ≤ limit) :
    f.result limit =
      match f.body.text with
      | .error error => .error ("failed to read: " ++ error.message)
      | .ok text =>
        (Declaration.structural (.file f.relativePath) text).mapError Script.Damage.message := by
  unfold result inventory
  rw [if_neg (by omega)]
  cases f.body.text with
  | error error => rfl
  | ok text =>
    simp only [unit]
    cases Declaration.structural (.file f.relativePath) text <;> rfl

/-- A source has one outcome, which is its result. -/
theorem outcome_iff {limit : Nat} {f : SourceFile} {r : Except String Inventory} :
    f.Outcome limit r ↔ f.result limit = r := by
  constructor
  · intro h
    cases h with
    | tooLarge hlarge =>
      unfold result inventory
      rw [if_pos hlarge]
      rfl
    | refused hsize hbody =>
      rw [result_of_le hsize, hbody, text_refused]
      rfl
    | notText hsize hbody htext =>
      rw [result_of_le hsize, hbody, text_readable, htext]
      rfl
    | damaged hsize hbody htext hparse =>
      rw [result_of_le hsize, hbody, text_readable, htext]
      simp only [Declaration.structural, hparse]
      rfl
    | sound hsize hbody htext hparse =>
      rw [result_of_le hsize, hbody, text_readable, htext]
      simp only [Declaration.structural, hparse]
      rfl
  · -- the conditions exclude each other in the order in which they are asked
    rintro rfl
    by_cases hsize : limit < f.bytes
    · unfold result inventory
      rw [if_pos hsize]
      exact .tooLarge hsize
    · have hle : f.bytes ≤ limit := by omega
      rw [result_of_le hle]
      cases hbody : f.body with
      | refused size error => exact .refused hle hbody
      | readable content =>
        rw [text_readable]
        cases htext : String.fromUTF8? content with
        | none => exact .notText hle hbody htext
        | some text =>
          simp only [Declaration.structural]
          cases hparse : Script.parse text with
          | error damage => exact .damaged hle hbody htext hparse
          | ok root => exact .sound hle hbody htext hparse

/-- The failure that a source with some outcome is. -/
def failureOf (f : SourceFile) : Except String Inventory → Option UnitFailure
  | .error message => some ⟨.file f.relativePath, message⟩
  | .ok _ => none

@[simp] theorem failureOf_error (f : SourceFile) (message : String) :
    f.failureOf (.error message) = some ⟨.file f.relativePath, message⟩ := rfl

@[simp] theorem failureOf_ok (f : SourceFile) (i : Inventory) : f.failureOf (.ok i) = none := rfl

end SourceFile

namespace Corpus

/-- The inventories of the sources that do not fail. -/
def inventories (limit : Nat) (sources : List SourceFile) : List Inventory :=
  sources.filterMap fun f => (f.result limit).toOption

/-- The failures of the sources that do. -/
def failuresOf (limit : Nat) (sources : List SourceFile) : List UnitFailure :=
  sources.filterMap fun f => f.failureOf (f.result limit)

theorem inventories_cons (limit : Nat) (f : SourceFile) (rest : List SourceFile) :
    inventories limit (f :: rest) =
      (f.result limit).toOption.toList ++ inventories limit rest := by
  rw [inventories, List.filterMap_cons, inventories]
  cases (f.result limit).toOption <;> rfl

theorem failuresOf_cons (limit : Nat) (f : SourceFile) (rest : List SourceFile) :
    failuresOf limit (f :: rest) =
      (f.failureOf (f.result limit)).toList ++ failuresOf limit rest := by
  rw [failuresOf, List.filterMap_cons, failuresOf]
  cases f.failureOf (f.result limit) <;> rfl

theorem addSource_of_ok {limit : Nat} (c : Corpus) {f : SourceFile} {i : Inventory}
    (h : f.result limit = .ok i) : c.addSource limit f = c.merge i := by
  unfold SourceFile.result at h
  unfold addSource
  cases hi : f.inventory limit with
  | ok j =>
    rw [hi] at h
    cases h
    rfl
  | error e =>
    rw [hi] at h
    cases h

theorem addSource_of_error {limit : Nat} (c : Corpus) {f : SourceFile} {message : String}
    (h : f.result limit = .error message) :
    c.addSource limit f = c.recordFailure (.file f.relativePath) message := by
  unfold SourceFile.result at h
  unfold addSource
  cases hi : f.inventory limit with
  | ok j =>
    rw [hi] at h
    cases h
  | error e =>
    rw [hi] at h
    cases h
    rfl

/-- The update that a source with some outcome makes. -/
def updateOf (f : SourceFile) : Except String Inventory → Update
  | .ok i => .merge i
  | .error message => .failure ⟨.file f.relativePath, message⟩

def updatesOf (limit : Nat) (sources : List SourceFile) : List Update :=
  sources.map fun f => updateOf f (f.result limit)

theorem addSource_eq_apply (limit : Nat) (c : Corpus) (f : SourceFile) :
    c.addSource limit f = c.apply (updateOf f (f.result limit)) := by
  cases hr : f.result limit with
  | ok i => exact addSource_of_ok c hr
  | error message => exact addSource_of_error c hr

theorem foldl_addSource_eq_run (limit : Nat) (sources : List SourceFile) (c : Corpus) :
    sources.foldl (addSource limit) c = c.run (updatesOf limit sources) := by
  induction sources generalizing c with
  | nil => rfl
  | cons f rest ih =>
    rw [List.foldl_cons, ih, addSource_eq_apply]
    rfl

theorem merged_updatesOf (limit : Nat) (sources : List SourceFile) :
    merged (updatesOf limit sources) = inventories limit sources := by
  rw [merged, updatesOf, List.filterMap_map, inventories]
  apply List.filterMap_congr
  intro f _
  cases hr : f.result limit <;> simp [hr, updateOf, Update.inventory?, Except.toOption]

theorem recorded_updatesOf (limit : Nat) (sources : List SourceFile) :
    recorded (updatesOf limit sources) = failuresOf limit sources := by
  rw [recorded, updatesOf, List.filterMap_map, failuresOf]
  apply List.filterMap_congr
  intro f _
  cases hr : f.result limit <;>
    simp [hr, updateOf, Update.failure?, SourceFile.failureOf]

/-- Adding sources appends their failures, counts their inventories and adds the names
of these. -/
theorem foldl_addSource (limit : Nat) (sources : List SourceFile) (c : Corpus) :
    (sources.foldl (addSource limit) c).unitsMerged =
        c.unitsMerged + (inventories limit sources).length ∧
      (sources.foldl (addSource limit) c).failures =
        c.failures ++ failuresOf limit sources ∧
      ∀ k, ((sources.foldl (addSource limit) c).names k).toList =
        firstOccurrences ((c.names k).toList ++ namesOf k (inventories limit sources)) := by
  rw [foldl_addSource_eq_run, ← merged_updatesOf, ← recorded_updatesOf]
  exact ⟨unitsMerged_run c _, failures_run c _, toList_run c _⟩

/-- A corpus accounts for some sources: each has one outcome; those with an inventory are
counted, and their names are there, each where it first occurs; the others are the
failures, each under its own path; and none is lost. -/
structure Accounts (limit : Nat) (sources : List SourceFile) (c : Corpus) : Prop where
  outcomes : ∃ outcomes, List.Forall₂ (SourceFile.Outcome limit) sources outcomes ∧
    c.unitsMerged = (outcomes.filterMap Except.toOption).length ∧
    c.failures = (sources.zip outcomes).filterMap (fun o => o.1.failureOf o.2) ∧
    ∀ k, (c.names k).toList =
      firstOccurrences (namesOf k (outcomes.filterMap Except.toOption))
  total : c.unitsMerged + c.failures.length = sources.length

/-- Every source is an inventory or a failure. -/
theorem length_inventories_add_failuresOf (limit : Nat) (sources : List SourceFile) :
    (inventories limit sources).length + (failuresOf limit sources).length =
      sources.length := by
  induction sources with
  | nil => rfl
  | cons f rest ih =>
    rw [inventories_cons, failuresOf_cons]
    cases hr : f.result limit with
    | ok i =>
      simp only [Except.toOption, SourceFile.failureOf, Option.toList_some, Option.toList_none,
        List.nil_append, List.length_append, List.length_cons, List.length_nil]
      omega
    | error message =>
      simp only [Except.toOption, SourceFile.failureOf, Option.toList_some, Option.toList_none,
        List.nil_append, List.length_append, List.length_cons, List.length_nil]
      omega

theorem filterMap_zip_results (limit : Nat) (sources : List SourceFile) :
    (sources.zip (sources.map (SourceFile.result limit))).filterMap
      (fun o => o.1.failureOf o.2) = failuresOf limit sources := by
  induction sources with
  | nil => rfl
  | cons f rest ih =>
    simp only [failuresOf] at ih ⊢
    rw [List.map_cons, List.zip_cons_cons, List.filterMap_cons, List.filterMap_cons, ih]

/-- The corpus of some sources accounts for them. -/
theorem ofSources_accounts (limit : Nat) (sources : List SourceFile) :
    (ofSources limit sources).Accounts limit sources := by
  obtain ⟨hunits, hfailures, hnames⟩ := foldl_addSource limit sources empty
  have hunits' : (ofSources limit sources).unitsMerged = (inventories limit sources).length := by
    simpa [ofSources, empty] using hunits
  have hfailures' : (ofSources limit sources).failures = failuresOf limit sources := by
    simpa [ofSources, empty] using hfailures
  constructor
  · refine ⟨sources.map (SourceFile.result limit), ?_, ?_, ?_, ?_⟩
    · rw [List.forall₂_map_right_iff]
      exact List.forall₂_same.2 fun f _ => SourceFile.outcome_iff.2 rfl
    · rw [hunits', List.filterMap_map]
      rfl
    · rw [hfailures', filterMap_zip_results]
    · intro k
      have hk := hnames k
      rw [List.filterMap_map]
      cases k <;> exact hk
  · rw [hunits', hfailures', length_inventories_add_failuresOf]

end Corpus

/-- A directory whose sources can be listed is scanned. -/
theorem FileSystem.scan_of_sources {s : FileSystem} {root : String} {config : ScanConfig}
    {sources : List SourceFile} (h : s.sources root config = .ok sources) :
    s.scan root config = .ok (Corpus.ofSources config.maxFileBytes sources) := by
  rw [scan, h]
  rfl

end ScriptInventory
