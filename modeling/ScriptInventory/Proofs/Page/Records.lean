import Mathlib.Data.List.Forall2
import ScriptInventory.Page.Scan
import ScriptInventory.Proofs.Walk

/-!
# The records of a page

A page is scanned with a fetcher that may keep a state, and so may answer the same
address differently at different times. Main statement: the fetcher is called once for
each script that has an address, in the order of the manifest, and the page has one
record for each script, which its own text decides, and one for the global scope if that
is known (`PageManifest.scan_calls_and_records`).

* `ScriptReference.Texts`: which script gets the answer of which call.
* `scriptRecords_run`: what the scripts of a page do to the state of a fetcher, and
  which records they give.
* `Fetches.recording`: a fetcher that keeps a log of its calls answers like the fetcher
  it is made of.
* `ScriptReference.describes_recordOf`: what the record of a script holds.
-/

namespace ScriptInventory

/-- A call of a fetcher: the address and the answer. -/
abbrev Call := String × Option String

section Fetchers

variable {σ : Type}

/-- Calls of a fetcher, one after the other, and the states before and after them. -/
inductive Fetches (fetch : String → StateM σ (Option String)) : σ → List Call → σ → Prop
  | nil {s : σ} : Fetches fetch s [] s
  | cons {s s₁ s₂ : σ} {address : String} {answer : Option String} {calls : List Call} :
      (fetch address).run s = (answer, s₁) → Fetches fetch s₁ calls s₂ →
      Fetches fetch s ((address, answer) :: calls) s₂

/-- A fetcher that keeps a log of its calls. -/
def recording (fetch : String → StateM σ (Option String)) (address : String) :
    StateM (σ × List Call) (Option String) := fun (s, log) =>
  let (answer, s') := (fetch address).run s
  (answer, (s', log ++ [(address, answer)]))

/-- With a log, the calls are the same, and the log has them. -/
theorem Fetches.recording {fetch : String → StateM σ (Option String)} {s s' : σ}
    {calls : List Call} (h : Fetches fetch s calls s') (log : List Call) :
    Fetches (ScriptInventory.recording fetch) (s, log) calls (s', log ++ calls) := by
  induction h generalizing log with
  | nil =>
    rw [List.append_nil]
    exact .nil
  | @cons s s₁ s₂ address answer calls hcall _ ih =>
    have hlog : (ScriptInventory.recording fetch address).run (s, log) =
        (answer, (s₁, log ++ [(address, answer)])) := by
      show (ScriptInventory.recording fetch address) (s, log) = _
      simp only [ScriptInventory.recording, hcall]
    have hrest := ih (log ++ [(address, answer)])
    rw [List.append_assoc, List.singleton_append] at hrest
    exact .cons hlog hrest

end Fetchers

namespace ScriptReference

def unit : ScriptReference → SourceUnit
  | .url address => .url address
  | .inline _ => .inline

/-- The address of a script that has to be fetched. -/
def address? : ScriptReference → Option String
  | .url address => some address
  | .inline _ => none

/-- The text of each script: the one that stands in the page, or the answer of the
script's own call. -/
inductive Texts : List ScriptReference → List Call → List (Option String) → Prop
  | nil : Texts [] [] []
  | inline {text : String} {scripts : List ScriptReference} {calls : List Call}
      {texts : List (Option String)} :
      Texts scripts calls texts → Texts (.inline text :: scripts) calls (some text :: texts)
  | url {address : String} {answer : Option String} {scripts : List ScriptReference}
      {calls : List Call} {texts : List (Option String)} :
      Texts scripts calls texts →
      Texts (.url address :: scripts) ((address, answer) :: calls) (answer :: texts)

/-- The record of a script, given its text or that there is none. -/
def recordOf (strategy : Strategy) (script : ScriptReference) : Option String → UnitRecord
  | some text => scriptRecord strategy script.unit text
  | none => .failed script.unit "Failed to fetch script"

theorem fetchedRecord_eq_recordOf (strategy : Strategy) (address : String)
    (answer : Option String) :
    fetchedRecord strategy address answer = recordOf strategy (.url address) answer := by
  cases answer <;> rfl

/-- The calls are those of the scripts with an address, in order. -/
theorem Texts.addresses {scripts : List ScriptReference} {calls : List Call}
    {texts : List (Option String)} (h : Texts scripts calls texts) :
    calls.map Prod.fst = scripts.filterMap address? := by
  induction h with
  | nil => rfl
  | inline _ ih =>
    rw [ih]
    rfl
  | url _ ih =>
    rw [List.map_cons, ih]
    rfl

theorem Texts.length_eq {scripts : List ScriptReference} {calls : List Call}
    {texts : List (Option String)} (h : Texts scripts calls texts) :
    texts.length = scripts.length := by
  induction h with
  | nil => rfl
  | inline _ ih => rw [List.length_cons, List.length_cons, ih]
  | url _ ih => rw [List.length_cons, List.length_cons, ih]

end ScriptReference

/-! ## Runs over the scripts of a page -/

section Runs

open ScriptReference

variable {σ : Type} (fetch : String → StateM σ (Option String)) (strategy : Strategy)

/-- The records of some scripts whose fetches are known. -/
theorem scriptRecords_run {scripts : List ScriptReference} {calls : List Call}
    {texts : List (Option String)} (htexts : Texts scripts calls texts) {s s' : σ}
    (hfetches : Fetches fetch s calls s') :
    (scriptRecords fetch strategy scripts).run s =
      (List.zipWith (recordOf strategy) scripts texts, s') := by
  induction htexts generalizing s with
  | nil =>
    cases hfetches
    rfl
  | @inline text scripts calls texts _ ih =>
    have hrest := ih hfetches
    rw [scriptRecords, ScriptReference.record, pure_bind, StateT.run_bind, hrest]
    rfl
  | @url address answer scripts calls texts _ ih =>
    cases hfetches with
    | cons hcall hfetches =>
      have hrest := ih hfetches
      rw [scriptRecords, ScriptReference.record, bind_assoc, StateT.run_bind, hcall]
      simp only [pure_bind, StateT.run_bind, fetchedRecord_eq_recordOf]
      -- what is left of the run starts in the state behind the call
      show (fun q : List UnitRecord × σ => (recordOf strategy (.url address) answer :: q.1, q.2))
        ((scriptRecords fetch strategy scripts).run _) = _
      rw [hrest]
      rfl

/-- All scripts can be visited, from any state. -/
theorem exists_fetches (scripts : List ScriptReference) (s : σ) :
    ∃ calls texts s', Fetches fetch s calls s' ∧ Texts scripts calls texts := by
  induction scripts generalizing s with
  | nil => exact ⟨[], [], s, .nil, .nil⟩
  | cons script rest ih =>
    cases script with
    | inline text =>
      obtain ⟨calls, texts, s', hfetches, htexts⟩ := ih s
      exact ⟨calls, _, s', hfetches, .inline htexts⟩
    | url address =>
      obtain ⟨calls, texts, s', hfetches, htexts⟩ := ih ((fetch address).run s).2
      exact ⟨(address, ((fetch address).run s).1) :: calls, _, s', .cons rfl hfetches,
        .url htexts⟩

end Runs

/-! ## What records hold -/

/-- Whether a script fails: it could not be fetched, or it has to be parsed and is no
script. -/
def scriptFails (strategy : Strategy) : Option String → Bool
  | none => true
  | some text => strategy = .structural && !(Script.parse text).isOk

/-- A record says of a script with some text whether it failed. If it did, the record has
no section at all; otherwise the strategy decides which sections it has. -/
structure UnitRecord.Describes (strategy : Strategy) (script : ScriptReference)
    (text : Option String) (r : UnitRecord) : Prop where
  source : r.source = script.unit
  isError : r.isError = scriptFails strategy text
  ofFailed : r.isError = true → ∀ s, r.names? s = none
  ofPattern : r.isError = false → strategy = .pattern → ∀ s,
    (r.names? s).isSome ↔ s ∈ [.classes, .functions, .variables, .constants]
  ofStructural : r.isError = false → strategy = .structural → ∀ s,
    (r.names? s).isSome ↔ s ∈ [.classes, .methods, .properties, .functions, .variables]

/-- A record that says that a script failed, and nothing else. -/
theorem UnitRecord.describes_failed {strategy : Strategy} {script : ScriptReference}
    {text : Option String} (message : String) (hfails : scriptFails strategy text = true) :
    UnitRecord.Describes strategy script text (.failed script.unit message) where
  source := rfl
  isError := hfails.symm
  ofFailed := by
    intro _ s
    cases s <;> rfl
  ofPattern := by
    intro h
    cases h
  ofStructural := by
    intro h
    cases h

theorem ScriptReference.describes_recordOf (strategy : Strategy) (script : ScriptReference)
    (text : Option String) :
    UnitRecord.Describes strategy script text (script.recordOf strategy text) := by
  cases text with
  | none => exact UnitRecord.describes_failed _ rfl
  | some text =>
    cases strategy with
    | pattern =>
      rw [recordOf, scriptRecord]
      refine ⟨rfl, rfl, ?_, ?_, ?_⟩
      · intro h
        cases h
      · intro _ _ s
        cases s <;> simp [UnitRecord.names?, UnitRecord.pattern]
      · intro _ h
        cases h
    | structural =>
      rw [recordOf, scriptRecord, Declaration.structural]
      cases hparse : Script.parse text with
      | error damage =>
        refine UnitRecord.describes_failed _ ?_
        simp [scriptFails, hparse, Except.isOk, Except.toBool]
      | ok root =>
        refine ⟨Declaration.source_collectTree root _, ?_, ?_, ?_, ?_⟩
        · simp [scriptFails, hparse, Except.isOk, Except.toBool, Except.map,
            UnitRecord.isError, UnitRecord.structural]
        · intro h
          cases h
        · intro _ h
          cases h
        · intro _ _ s
          cases s <;> simp [Except.map, UnitRecord.names?, UnitRecord.structural]

/-- The records of scripts, counted by their failures. -/
theorem countP_isError_recordOf (strategy : Strategy) {scripts : List ScriptReference}
    {texts : List (Option String)} (h : texts.length = scripts.length) :
    (List.zipWith (ScriptReference.recordOf strategy) scripts texts).countP
      UnitRecord.isError = texts.countP (scriptFails strategy) := by
  induction scripts generalizing texts with
  | nil =>
    rw [List.length_nil, List.length_eq_zero_iff] at h
    rw [h]
    rfl
  | cons script rest ih =>
    cases texts with
    | nil => cases h
    | cons text texts =>
      have hlength : texts.length = rest.length := by simpa using h
      rw [List.zipWith_cons_cons, List.countP_cons, List.countP_cons, ih hlength,
        (script.describes_recordOf strategy text).isError]

namespace PageManifest

/-- What a page defines gives a record if and only if it is known; the record has
functions and variables and is no failure. -/
theorem globalRecords_eq (p : PageManifest) :
    (p.globals = none → p.globalRecords = []) ∧
      ∀ types, p.globals = some types → ∃ r, p.globalRecords = [r] ∧
        r.source = .globalScope ∧ r.isError = false ∧
        ∀ s, (r.names? s).isSome ↔ s ∈ [Section.functions, .variables] := by
  unfold globalRecords
  constructor
  · intro h
    rw [h]
  · intro types h
    rw [h]
    refine ⟨_, rfl, rfl, rfl, ?_⟩
    intro s
    cases s <;> simp [UnitRecord.names?, UnitRecord.globals]

theorem countP_isError_globalRecords (p : PageManifest) :
    p.globalRecords.countP UnitRecord.isError = 0 := by
  unfold globalRecords
  cases p.globals <;> rfl

/-- **A page is scanned script by script.** For any fetcher, in any state: the scan calls
it once for each script that has an address, in the order of the manifest, as its log
shows; each script has a record of its own, in the same order, which the script, the
answer of its own call and the strategy decide; behind these there is one for the global
scope if and only if that is known. A record fails if and only if its script does, and
then it has no sections; otherwise it has the sections of the strategy. The failures are
counted. -/
theorem scan_calls_and_records (p : PageManifest) (strategy : Strategy) {σ : Type}
    (fetch : String → StateM σ (Option String)) (s : σ) :
    ∃ calls texts s' page, Fetches fetch s calls s' ∧
      ScriptReference.Texts p.scripts calls texts ∧
      calls.map Prod.fst = p.scripts.filterMap ScriptReference.address? ∧
      (p.scan fetch strategy).run s = (page, s') ∧
      (∀ log, (p.scan (recording fetch) strategy).run (s, log) =
        (page, (s', log ++ calls))) ∧
      page.records =
        List.zipWith (ScriptReference.recordOf strategy) p.scripts texts ++
          p.globalRecords ∧
      texts.length = p.scripts.length ∧
      (∀ script text, UnitRecord.Describes strategy script text
        (script.recordOf strategy text)) ∧
      ((p.globals = none → p.globalRecords = []) ∧
        ∀ types, p.globals = some types → ∃ r, p.globalRecords = [r] ∧
          r.source = .globalScope ∧ r.isError = false ∧
          ∀ s, (r.names? s).isSome ↔ s ∈ [Section.functions, .variables]) ∧
      page.errors = texts.countP (scriptFails strategy) := by
  -- a fetcher is run once, and its calls tell which text belongs to which script
  obtain ⟨calls, texts, s', hfetches, htexts⟩ := exists_fetches fetch p.scripts s
  have hrun := scriptRecords_run fetch strategy htexts hfetches
  have hscan : (p.scan fetch strategy).run s =
      (⟨List.zipWith (ScriptReference.recordOf strategy) p.scripts texts ++
        p.globalRecords⟩, s') := by
    rw [scan, StateT.run_bind, hrun]
    rfl
  refine ⟨calls, texts, s', _, hfetches, htexts, htexts.addresses, hscan, ?_, rfl,
    htexts.length_eq, fun script text => script.describes_recordOf strategy text,
    p.globalRecords_eq, ?_⟩
  · -- with a log the fetcher gives the same answers, so that the records are the same
    intro log
    rw [scan, StateT.run_bind,
      scriptRecords_run (recording fetch) strategy htexts (hfetches.recording log)]
    rfl
  · rw [PageScan.errors, List.countP_append, countP_isError_recordOf strategy htexts.length_eq,
      p.countP_isError_globalRecords, Nat.add_zero]

end PageManifest

end ScriptInventory
