import Mathlib
import ScriptInventory.Proofs.Json.RoundTrip
import ScriptInventory.Report.Render

/-!
# JSON reports lose nothing

What a reader finds in the text of a JSON report. `HoldsCorpus`, `HoldsFailure`,
`HoldsRecord` and `HoldsPage` say what value a report stands for, member by member. Main
statement: reading the text of a report gives a value that holds what was reported
(`Report.json_reads_back`).
-/

namespace ScriptInventory.Report

open Json (Value)

/-! ## What a report stands for -/

def listOf (names : List String) : Value := .array (names.map .string)

def labelOf : Option String → Value
  | some label => .string label
  | none => .null

/-- The value holds a failure: the label of its unit, and the reason. -/
def HoldsFailure (v : Value) (f : UnitFailure) : Prop :=
  v = .object [("source", labelOf f.source.label?), ("error", .string f.error)]

/-- The value holds a corpus: the names of each kind in their order, the number of units,
and the failures in theirs. -/
def HoldsCorpus (v : Value) (c : Corpus) : Prop :=
  ∃ failures, List.Forall₂ HoldsFailure failures c.failures ∧
    v = .object
      [("classes", listOf c.classes.toList), ("methods", listOf c.methods.toList),
        ("properties", listOf c.properties.toList), ("functions", listOf c.functions.toList),
        ("variables", listOf c.variables.toList),
        ("units_merged", .number (.natural c.unitsMerged)), ("failures", .array failures)]

/-- The members of an object other than the label of its unit hold what is known of a unit:
a section is there if and only if the record has it, and so is the reason of a failure. -/
structure FieldsHold (fields : List (String × Value)) (r : UnitRecord) : Prop where
  section_lookup : ∀ s : Section, fields.lookup s.name = (r.names? s).map listOf
  error_lookup : fields.lookup "error" = r.error.map .string
  /-- Nothing else is there, and nothing is there twice. -/
  keys : fields.map Prod.fst = (Section.all.filter fun s => (r.names? s).isSome).map Section.name
    ++ if r.isError then ["error"] else []

def HoldsRecord (v : Value) (r : UnitRecord) : Prop :=
  ∃ fields, FieldsHold fields r ∧
    v = .object (("source", labelOf r.source.label?) :: fields)

/-- The value holds a page: its records in their order. -/
def HoldsPage (v : Value) (s : PageScan) : Prop :=
  ∃ records, List.Forall₂ HoldsRecord records s.records ∧
    v = .object [("files", .array records)]

/-! ## Written values hold what they are written for -/

theorem sourceValue_eq (u : SourceUnit) : sourceValue u = labelOf u.label? := by
  unfold sourceValue
  cases u.label? <;> rfl

theorem holdsFailure_failureValue (f : UnitFailure) : HoldsFailure (failureValue f) f := by
  rw [HoldsFailure, failureValue, sourceValue_eq]

theorem holdsCorpus_corpusValue (c : Corpus) : HoldsCorpus (corpusValue c) c :=
  ⟨c.failures.map failureValue,
    List.forall₂_map_left_iff.2 (List.forall₂_same.2 fun f _ => holdsFailure_failureValue f),
    rfl⟩

/-- The sections among `ss` that there are names for, as members of an object. -/
def sectionFields (names? : Section → Option (List String)) (ss : List Section) :
    List (String × Value) :=
  ss.filterMap fun s => (names? s).map fun names => (s.name, listOf names)

theorem sectionFields_cons (names? : Section → Option (List String)) (s : Section)
    (ss : List Section) :
    sectionFields names? (s :: ss) =
      ((names? s).map fun names => (s.name, listOf names)).toList ++ sectionFields names? ss := by
  unfold sectionFields
  cases h : names? s with
  | none =>
    rw [List.filterMap_cons_none (by rw [h]; rfl)]
    rfl
  | some names =>
    rw [List.filterMap_cons_some (by rw [h]; rfl)]
    rfl

theorem section_name_injective {s t : Section} (h : s.name = t.name) : s = t := by
  revert h
  cases s <;> cases t <;> decide

/-- Looking up the name of a section. -/
theorem lookup_sectionFields (names? : Section → Option (List String)) (ss : List Section)
    (t : Section) :
    (sectionFields names? ss).lookup t.name =
      if t ∈ ss then (names? t).map listOf else none := by
  induction ss with
  | nil => rfl
  | cons s ss ih =>
    have hfirst : (((names? s).map fun names => (s.name, listOf names)).toList).lookup t.name =
        if s = t then (names? t).map listOf else none := by
      by_cases hst : s = t
      · subst hst
        cases names? s <;> simp
      · have hname : (t.name == s.name) = false :=
          beq_false_of_ne fun h => hst (section_name_injective h).symm
        cases names? s <;> simp [List.lookup, hname, hst]
    rw [sectionFields_cons, List.lookup_append, hfirst, ih]
    by_cases hst : s = t
    · subst hst
      by_cases hmem : s ∈ ss <;> simp [hmem]
    · simp [hst, Ne.symm hst]

theorem map_fst_sectionFields (names? : Section → Option (List String)) (ss : List Section) :
    (sectionFields names? ss).map Prod.fst =
      (ss.filter fun s => (names? s).isSome).map Section.name := by
  induction ss with
  | nil => rfl
  | cons s ss ih =>
    rw [sectionFields_cons, List.map_append, ih]
    cases h : names? s with
    | none => rw [List.filter_cons_of_neg (by simp [h])]; rfl
    | some names => rw [List.filter_cons_of_pos (by simp [h])]; rfl

/-- The reason of a failure as a member of an object. -/
def errorField (error : Option String) : List (String × Value) :=
  (error.map fun e => ("error", Value.string e)).toList

theorem map_sections (r : UnitRecord) :
    (r.sections.map fun (s, names) => (s.name, namesValue names)) =
      sectionFields r.names? Section.all := by
  rw [UnitRecord.sections, List.map_filterMap, sectionFields]
  congr 1
  funext s
  cases r.names? s <;> rfl

theorem recordValue_eq (r : UnitRecord) :
    recordValue r = .object (("source", labelOf r.source.label?) ::
      (sectionFields r.names? Section.all ++ errorField r.error)) := by
  rw [recordValue, sourceValue_eq, map_sections]
  rfl

theorem fieldsHold (r : UnitRecord) :
    FieldsHold (sectionFields r.names? Section.all ++ errorField r.error) r where
  section_lookup t := by
    have hall : t ∈ Section.all := by cases t <;> decide
    have herror : (errorField r.error).lookup t.name = none := by
      cases r.error with
      | none => rfl
      | some e => cases t <;> rfl
    rw [List.lookup_append, lookup_sectionFields, if_pos hall, herror, Option.or_none]
  error_lookup := by
    have hsections : (sectionFields r.names? Section.all).lookup "error" = none := by
      rw [List.lookup_eq_none_iff]
      intro field hfield
      obtain ⟨s, -, hs⟩ := List.mem_filterMap.1 hfield
      obtain ⟨names, -, rfl⟩ := Option.map_eq_some_iff.1 hs
      cases s <;> rfl
    rw [List.lookup_append, hsections, Option.none_or]
    cases r.error <;> rfl
  keys := by
    rw [List.map_append, map_fst_sectionFields, UnitRecord.isError]
    cases r.error <;> rfl

theorem holdsPage_pageValue (s : PageScan) : HoldsPage (pageValue s) s :=
  ⟨s.records.map recordValue,
    List.forall₂_map_left_iff.2
      (List.forall₂_same.2 fun r _ => ⟨_, fieldsHold r, recordValue_eq r⟩),
    rfl⟩

/-! ## Reports can be read -/

theorem fits_namesValue (depth : Nat) (names : List String) :
    (namesValue names).Fits (depth + 1) := by
  refine .array ?_
  intro v hv
  obtain ⟨n, -, rfl⟩ := List.mem_map.1 hv
  exact .string n

theorem fits_sourceValue (depth : Nat) (u : SourceUnit) : (sourceValue u).Fits depth := by
  unfold sourceValue
  cases u.label? with
  | none => exact .null
  | some label => exact .string label

theorem fits_failureValue (depth : Nat) (f : UnitFailure) :
    (failureValue f).Fits (depth + 1) := by
  refine .object ?_
  intro m hm
  rcases List.mem_cons.1 hm with rfl | hm
  · exact fits_sourceValue depth f.source
  · rw [List.mem_singleton.1 hm]
    exact .string f.error

theorem fits_corpusValue {c : Corpus} (hc : c.unitsMerged < 2 ^ 64) :
    (corpusValue c).Fits Json.deepest := by
  refine .object ?_
  intro m hm
  rcases List.mem_append.1 hm with hkind | hrest
  · obtain ⟨k, -, rfl⟩ := List.mem_map.1 hkind
    exact fits_namesValue _ _
  · rcases List.mem_cons.1 hrest with rfl | hm
    · exact .number (Nat.le_pred_of_lt hc)
    · rw [List.mem_singleton.1 hm]
      refine .array ?_
      intro v hv
      obtain ⟨f, -, rfl⟩ := List.mem_map.1 hv
      exact fits_failureValue _ f

theorem fits_recordValue (depth : Nat) (r : UnitRecord) :
    (recordValue r).Fits (depth + 2) := by
  refine .object ?_
  intro m hm
  rcases List.mem_cons.1 hm with rfl | hm
  · exact fits_sourceValue _ r.source
  · rcases List.mem_append.1 hm with hsection | herror
    · obtain ⟨s, -, rfl⟩ := List.mem_map.1 hsection
      exact fits_namesValue depth s.2
    · rw [Option.mem_toList] at herror
      obtain ⟨e, -, rfl⟩ := Option.map_eq_some_iff.1 herror
      exact .string e

theorem fits_pageValue (s : PageScan) : (pageValue s).Fits Json.deepest := by
  refine .object ?_
  intro m hm
  rw [List.mem_singleton.1 hm]
  refine .array ?_
  intro v hv
  obtain ⟨r, -, rfl⟩ := List.mem_map.1 hv
  exact fits_recordValue _ r

/-- **JSON reports lose nothing.** Whatever the names, labels and messages are, the report of
a corpus, whose count of units is a machine word, and the report of a page are JSON texts
from which exactly what was reported is read. -/
theorem json_reads_back (c : Corpus) (hc : c.unitsMerged < 2 ^ 64) (s : PageScan) :
    (∃ v, Json.parse? (corpus c .json) = some v ∧ HoldsCorpus v c) ∧
      ∃ text v, page s .json = .ok text ∧ Json.parse? text = some v ∧ HoldsPage v s :=
  ⟨⟨corpusValue c, Json.parse?_pretty (fits_corpusValue hc), holdsCorpus_corpusValue c⟩,
    ⟨pageJson s, pageValue s, rfl, Json.parse?_pretty (fits_pageValue s),
      holdsPage_pageValue s⟩⟩

/-- A corpus with a name full of quotes, backslashes and control characters, and an embedded
script that failed. -/
def awkwardCorpus : Corpus :=
  { classes := .ofList ["\"\\\x00\x1f\n", ""], unitsMerged := 2,
    failures := [⟨.inline, "a\tb\x08"⟩] }

/-- A page with a failed embedded script, a script without any names, and a record that has
an error and names, some of them in a list that is empty. -/
def awkwardPage : PageScan :=
  ⟨[.failed .inline "\x0c", .pattern (.url "a\\b") (Pattern.find ""),
    { source := .globalScope, methods := some [], constants := some ["\"", ""],
      error := some "\x1f" }]⟩

theorem json_reads_back_awkward :
    awkwardCorpus.unitsMerged < 2 ^ 64 ∧
      (∃ v, Json.parse? (corpus awkwardCorpus .json) = some v ∧
        HoldsCorpus v awkwardCorpus) ∧
      ∃ text v, page awkwardPage .json = .ok text ∧ Json.parse? text = some v ∧
        HoldsPage v awkwardPage :=
  ⟨by decide, json_reads_back awkwardCorpus (by decide) awkwardPage⟩

end ScriptInventory.Report
