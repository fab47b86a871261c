import Mathlib
import ScriptInventory.Proofs.Text.Runs
import ScriptInventory.Report.Text

/-!
# Text reports are not ambiguous

Names stand in a text report as they are, between headings, blank lines and a summary that
look no different from names. What keeps them apart is the number of names in each heading:
with it, a reader knows where a section ends before it has looked at the names. Main
statement: if no name holds a line feed, the report tells the names of each kind, the number
of failures and the number of units (`Report.corpusText_tells`). The failures themselves may
hold line feeds, and the report does not tell them.

* `ofLines_cons_inj`: the first line of a text, if it holds no line feed, and the rest.
* `section_inj`: the names of one section, and the rest of the report.
* `sections_inj`: the names of all sections, by induction on the kinds that are left.
* `summary_inj`: the numbers in the summary.
-/

namespace ScriptInventory.Report

/-! ## Lines -/

def IsLine (s : String) : Prop := '\n' ∉ s.toList

instance (s : String) : Decidable (IsLine s) := inferInstanceAs (Decidable (¬ _))

theorem IsLine.append {a b : String} (ha : IsLine a) (hb : IsLine b) : IsLine (a ++ b) := by
  rw [IsLine, String.toList_append, List.mem_append]
  exact fun h => h.elim ha hb

theorem toList_toString (n : Nat) : (toString n).toList = Nat.toDigits 10 n := Nat.toList_repr

theorem isLine_toString (n : Nat) : IsLine (toString n) := by
  intro h
  rw [toList_toString] at h
  exact absurd (Nat.isDigit_of_mem_toDigits (by decide) (by decide) h) (by decide)

/-- Different numbers have different digits. -/
theorem toString_inj {m n : Nat} (h : toString m = toString n) : m = n := by
  have hdigits : Nat.toDigits 10 m = Nat.toDigits 10 n := by
    rw [← toList_toString, ← toList_toString, h]
  rw [← Nat.ofDigitChars_ten_toDigits (n := m), hdigits, Nat.ofDigitChars_ten_toDigits]

def numbered (before behind : String) (n : Nat) : String := before ++ (toString n ++ behind)

theorem isLine_numbered {before behind : String} (hbefore : IsLine before)
    (hbehind : IsLine behind) (n : Nat) : IsLine (numbered before behind n) :=
  hbefore.append ((isLine_toString n).append hbehind)

theorem numbered_inj {before behind : String} {m n : Nat}
    (h : numbered before behind m = numbered before behind n) : m = n := by
  rw [String.ext_iff, numbered, numbered, String.toList_append, String.toList_append,
    String.toList_append, String.toList_append, List.append_cancel_left_eq,
    List.append_cancel_right_eq] at h
  exact toString_inj (String.ext h)

theorem toList_ofLines_cons (line : String) (rest : List String) :
    (ofLines (line :: rest)).toList = line.toList ++ '\n' :: (ofLines rest).toList := by
  simp [ofLines, String.toList_join]

/-- A text tells its first line, if that holds no line feed, and what follows the line. -/
theorem ofLines_cons_inj {a b : String} {as bs : List String} (ha : IsLine a) (hb : IsLine b)
    (h : ofLines (a :: as) = ofLines (b :: bs)) : a = b ∧ ofLines as = ofLines bs := by
  have htext := congrArg String.toList h
  rw [toList_ofLines_cons, toList_ofLines_cons] at htext
  have hrun : ∀ {line : String}, IsLine line → ∀ c ∈ line.toList, decide (c ≠ '\n') := by
    intro line hline c hc
    exact decide_eq_true fun heq => hline (heq ▸ hc)
  have hend : ∀ rest : List Char, ∀ c ∈ ('\n' :: rest).head?, decide (c ≠ '\n') = false := by
    intro rest c hc
    cases hc
    rfl
  have hline : a.toList = b.toList := by
    have := congrArg (List.takeWhile fun c => decide (c ≠ '\n')) htext
    rwa [takeWhile_run (hrun ha) (hend _), takeWhile_run (hrun hb) (hend _)] at this
  rw [hline, List.append_cancel_left_eq, List.cons.injEq] at htext
  exact ⟨String.ext hline, String.ext htext.2⟩

/-- A text tells as many lines as there are known to be, and what follows them. -/
theorem ofLines_append_inj {as bs more others : List String} (hlength : as.length = bs.length)
    (has : ∀ line ∈ as, IsLine line) (hbs : ∀ line ∈ bs, IsLine line)
    (h : ofLines (as ++ more) = ofLines (bs ++ others)) :
    as = bs ∧ ofLines more = ofLines others := by
  induction as generalizing bs with
  | nil =>
    obtain rfl := List.length_eq_zero_iff.1 hlength.symm
    exact ⟨rfl, h⟩
  | cons a as ih =>
    obtain ⟨b, bs, rfl⟩ := List.exists_cons_of_length_eq_add_one hlength.symm
    obtain ⟨ha, has⟩ := List.forall_mem_cons.1 has
    obtain ⟨hb, hbs⟩ := List.forall_mem_cons.1 hbs
    obtain ⟨hfirst, hrest⟩ := ofLines_cons_inj ha hb h
    obtain ⟨hlines, hmore⟩ := ih (Nat.succ.inj hlength) has hbs hrest
    exact ⟨by rw [hfirst, hlines], hmore⟩

/-! ## Sections -/

/-- No name of a corpus holds a line feed. -/
def NamesAreLines (c : Corpus) : Prop := ∀ kind, ∀ name ∈ (c.names kind).toList, IsLine name

theorem isLine_heading (kind : SymbolKind) : IsLine (heading kind) := by
  cases kind <;> decide

theorem kindLines_eq (c : Corpus) (kind : SymbolKind) :
    kindLines c kind =
      numbered (heading kind ++ " (") "):" (c.names kind).toList.length ::
        (((c.names kind).toList.map ("  " ++ ·)) ++ [""]) := by
  simp only [kindLines, numbered, OrderedNames.size, String.append_assoc]
  rfl

theorem isLine_of_mem_section {c : Corpus} {kind : SymbolKind} (hc : NamesAreLines c) :
    ∀ line ∈ (c.names kind).toList.map ("  " ++ ·) ++ [""], IsLine line := by
  intro line hline
  rcases List.mem_append.1 hline with hline | hline
  · obtain ⟨name, hname, rfl⟩ := List.mem_map.1 hline
    exact IsLine.append (by decide) (hc kind name hname)
  · rw [List.mem_singleton.1 hline]
    decide

/-- A report tells the names of its first section, and what follows the section. The number
in the heading comes first: it says how many of the lines behind it are names. -/
theorem section_inj {c d : Corpus} {kind : SymbolKind} {more others : List String}
    (hc : NamesAreLines c) (hd : NamesAreLines d)
    (h : ofLines (kindLines c kind ++ more) = ofLines (kindLines d kind ++ others)) :
    (c.names kind).toList = (d.names kind).toList ∧ ofLines more = ofLines others := by
  have hheading : ∀ n, IsLine (numbered (heading kind ++ " (") "):" n) :=
    isLine_numbered ((isLine_heading kind).append (by decide)) (by decide)
  rw [kindLines_eq, kindLines_eq, List.cons_append, List.cons_append] at h
  obtain ⟨hnumber, hrest⟩ := ofLines_cons_inj (hheading _) (hheading _) h
  have hlength := numbered_inj hnumber
  obtain ⟨hlines, hmore⟩ := ofLines_append_inj (by simp [hlength]) (isLine_of_mem_section hc)
    (isLine_of_mem_section hd) hrest
  have hindent : Function.Injective fun name : String => "  " ++ name := fun _ _ =>
    (String.append_right_inj _).1
  exact ⟨List.map_injective_iff.2 hindent (List.append_cancel_right hlines), hmore⟩

/-- A report tells the names of all its sections, and what follows them. -/
theorem sections_inj {c d : Corpus} {kinds : List SymbolKind} {more others : List String}
    (hc : NamesAreLines c) (hd : NamesAreLines d)
    (h : ofLines (kinds.flatMap (kindLines c) ++ more) =
      ofLines (kinds.flatMap (kindLines d) ++ others)) :
    (∀ kind ∈ kinds, (c.names kind).toList = (d.names kind).toList) ∧
      ofLines more = ofLines others := by
  induction kinds with
  | nil => exact ⟨by simp, h⟩
  | cons kind kinds ih =>
    rw [List.flatMap_cons, List.flatMap_cons, List.append_assoc, List.append_assoc] at h
    obtain ⟨hfirst, hrest⟩ := section_inj hc hd h
    obtain ⟨hothers, hmore⟩ := ih hrest
    exact ⟨List.forall_mem_cons.2 ⟨hfirst, hothers⟩, hmore⟩

/-! ## The summary -/

/-- What the summary says of the failures, if there are any. -/
def skippedLines (failures : List UnitFailure) : List String :=
  if failures.isEmpty then []
  else numbered "Skipped " " file(s):" failures.length ::
    failures.map fun f => "  " ++ f.source.display ++ ": " ++ f.error

theorem summaryLines_eq (c : Corpus) :
    summaryLines c = numbered "Scanned " " file(s)." (c.unitsMerged + c.failures.length) ::
      skippedLines c.failures := by
  simp only [summaryLines, skippedLines, numbered]
  rfl

/-- What is said of the failures tells how many there are: nothing is said of none. -/
theorem skipped_inj {fs gs : List UnitFailure}
    (h : ofLines (skippedLines fs) = ofLines (skippedLines gs)) : fs.length = gs.length := by
  have hline : ∀ n, IsLine (numbered "Skipped " " file(s):" n) :=
    isLine_numbered (by decide) (by decide)
  have hnone : ∀ line rest, ofLines (line :: rest) ≠ ofLines [] := by
    intro line rest heq
    have := congrArg String.toList heq
    rw [toList_ofLines_cons] at this
    exact absurd this (by simp [ofLines])
  cases fs with
  | nil =>
    cases gs with
    | nil => rfl
    | cons g gs => exact absurd h.symm (hnone _ _)
  | cons f fs =>
    cases gs with
    | nil => exact absurd h (hnone _ _)
    | cons g gs => exact numbered_inj (ofLines_cons_inj (hline _) (hline _) h).1

theorem summary_inj {c d : Corpus}
    (h : ofLines (summaryLines c) = ofLines (summaryLines d)) :
    c.failures.length = d.failures.length ∧
      c.unitsMerged + c.failures.length = d.unitsMerged + d.failures.length := by
  have hline : ∀ n, IsLine (numbered "Scanned " " file(s)." n) :=
    isLine_numbered (by decide) (by decide)
  rw [summaryLines_eq, summaryLines_eq] at h
  obtain ⟨htotal, hskipped⟩ := ofLines_cons_inj (hline _) (hline _) h
  exact ⟨skipped_inj hskipped, numbered_inj htotal⟩

/-! ## Reports -/

/-- **A text report tells the names of every kind.** Two corpora with the same report, in
which no name holds a line feed, have the same names of each kind in the same order, as many
failures, and as many units in all. -/
theorem corpusText_tells {c d : Corpus} (hc : NamesAreLines c) (hd : NamesAreLines d)
    (h : corpusText c = corpusText d) :
    (∀ kind, (c.names kind).toList = (d.names kind).toList) ∧
      c.failures.length = d.failures.length ∧
      c.unitsMerged + c.failures.length = d.unitsMerged + d.failures.length := by
  obtain ⟨hnames, hsummary⟩ := sections_inj hc hd h
  have hall : ∀ kind, kind ∈ SymbolKind.all := by
    intro kind
    cases kind <;> decide
  exact ⟨fun kind => hnames kind (hall kind), summary_inj hsummary⟩

/-- A corpus whose names look like other parts of a report. -/
def lookalikes (failures : List UnitFailure) : Corpus where
  classes := .ofList ["Functions (1):", "", "  ", "Scanned 0 file(s)."]
  functions := .ofList ["Skipped 2 file(s):", "Classes (0):"]
  unitsMerged := 1
  failures := failures

theorem namesAreLines_lookalikes (failures : List UnitFailure) :
    NamesAreLines (lookalikes failures) := by
  change NamesAreLines (lookalikes [])
  intro kind
  cases kind <;> decide

/-- Two failures, with a line feed in the first message. -/
def feedInFirst : List UnitFailure := [⟨.url "a", "x\n  b: y"⟩, ⟨.url "c", "z"⟩]

/-- Two other failures, with a line feed in the second message. -/
def feedInSecond : List UnitFailure := [⟨.url "a", "x"⟩, ⟨.url "b", "y\n  c: z"⟩]

set_option maxRecDepth 4096 in
/-- Line feeds in messages leave open where one failure ends and the next one starts, and
nothing else. -/
theorem corpusText_tells_lookalikes :
    NamesAreLines (lookalikes feedInFirst) ∧ NamesAreLines (lookalikes feedInSecond) ∧
      corpusText (lookalikes feedInFirst) = corpusText (lookalikes feedInSecond) ∧
      feedInFirst ≠ feedInSecond ∧
      (∀ kind, ((lookalikes feedInFirst).names kind).toList =
        ((lookalikes feedInSecond).names kind).toList) ∧
      (lookalikes feedInFirst).failures.length = (lookalikes feedInSecond).failures.length ∧
      (lookalikes feedInFirst).unitsMerged + (lookalikes feedInFirst).failures.length =
        (lookalikes feedInSecond).unitsMerged + (lookalikes feedInSecond).failures.length := by
  have hfirst := namesAreLines_lookalikes feedInFirst
  have hsecond := namesAreLines_lookalikes feedInSecond
  have htext : corpusText (lookalikes feedInFirst) = corpusText (lookalikes feedInSecond) := by
    decide
  exact ⟨hfirst, hsecond, htext, by decide, corpusText_tells hfirst hsecond htext⟩

end ScriptInventory.Report
