import ScriptInventory.Proofs.Xml.Document
import ScriptInventory.Report.Render

/-!
# XML reports lose nothing

`Element.tree` is the element that a written element stands for, with the white space that
indents what is in it. `read?_write` says that a reader finds this tree, whatever the texts
are. `contents?` takes the lists and the failures from the tree of a report. Main
statement: they are those of the corpus that was reported (`Report.xml_reads_back`).
-/

namespace ScriptInventory.Report

open Xml (Item Frame IsName textItems)

/-! ## Escaped texts -/

theorem decode?_xmlChar (c : Char) (rest : List Char) :
    Xml.decode? (xmlChar c ++ rest) = (Xml.decode? rest).map (c :: ·) := by
  unfold xmlChar
  split
  · rfl
  · rfl
  · rfl
  · rfl
  · rfl
  · next hamp _ _ => simp [Xml.decode?, show c ≠ '&' from hamp]

theorem decode?_xmlText (s : String) : Xml.decode? (xmlText s) = some s.toList := by
  unfold xmlText
  induction s.toList with
  | nil => rfl
  | cons c w ih => rw [List.flatMap_cons, decode?_xmlChar, ih, Option.map_some]

theorem not_mem_xmlChar {c : Char} (hc : c = '<' ∨ c = '"') (d : Char) : c ∉ xmlChar d := by
  unfold xmlChar
  rcases hc with rfl | rfl <;> split <;> simp_all [eq_comm]

/-- An escaped text has neither an angle bracket nor a quote. -/
theorem not_mem_xmlText {c : Char} (hc : c = '<' ∨ c = '"') (s : String) : c ∉ xmlText s := by
  intro hmem
  obtain ⟨d, -, hd⟩ := List.mem_flatMap.1 hmem
  exact not_mem_xmlChar hc d hd

theorem xmlText_ne_nil {s : String} (hs : s.toList ≠ []) : xmlText s ≠ [] := by
  intro h
  apply hs
  have hdecode := decode?_xmlText s
  rw [h] at hdecode
  exact (Option.some.inj hdecode).symm

/-! ## Written elements -/

/-- An element whose tags and attributes have names. -/
inductive Element.Named : Element → Prop
  | leaf {tag attributes text} (htag : IsName tag) (has : ∀ a ∈ attributes, IsName a.1) :
      Named (.leaf tag attributes text)
  | group {tag children} (htag : IsName tag) (hchildren : ∀ e ∈ children, e.Named) :
      Named (.group tag children)

def lineText (level : Nat) : String := String.ofList (xmlLine level)

mutual

/-- The tree of an element at some level. -/
def Element.tree (level : Nat) : Element → Item
  | .leaf tag attributes text => .element tag attributes (textItems text)
  | .group tag children =>
    .element tag [] (treesOf (level + 1) children ++ textItems (lineText level))

/-- The trees of several elements at some level, each behind the start of its line. -/
def treesOf (level : Nat) : List Element → List Item
  | [] => []
  | e :: rest => textItems (lineText level) ++ e.tree level :: treesOf level rest

end

/-! ## Reading what was written -/

/-- A text in front of a tag. -/
theorem read?_text (s : String) (rest : List Char) (f : Frame) (fs : List Frame) :
    Xml.read? (xmlText s ++ '<' :: rest) (f :: fs) =
      Xml.read? ('<' :: rest) (f.append (textItems s) :: fs) := by
  by_cases hs : s.toList = []
  · rw [xmlText, textItems, hs, if_pos rfl, Frame.append_nil]
    rfl
  · have hmark := Xml.mark?_text (xmlText_ne_nil hs) (not_mem_xmlText (.inl rfl) s)
      (decode?_xmlText s) rest
    rw [String.ofList_toList] at hmark
    rw [textItems, if_neg hs]
    exact Xml.read?_of_mark? hmark rfl

/-- White space is not escaped. -/
theorem xmlLine_eq (level : Nat) : xmlLine level = xmlText (lineText level) := by
  have hspaces : ∀ n, (List.replicate n ' ').flatMap xmlChar = List.replicate n ' ' := by
    intro n
    induction n with
    | zero => rfl
    | succ n ih => rw [List.replicate_succ, List.flatMap_cons, ih]; rfl
  rw [xmlText, lineText, String.toList_ofList, xmlLine, List.flatMap_cons, hspaces]
  rfl

/-- The attributes of a start tag are read up to its end. -/
theorem attributes?_run {as : List (String × String)} (has : ∀ a ∈ as, IsName a.1)
    (rest : List Char) :
    Xml.attributes? (as.flatMap attributeText ++ '>' :: rest) = some (as, rest) := by
  induction as with
  | nil => rw [List.flatMap_nil, List.nil_append, Xml.attributes?]; rfl
  | cons a as ih =>
    have hname : IsName a.1 := has a List.mem_cons_self
    have hrun := Xml.attribute?_run hname (not_mem_xmlText (.inr rfl) a.2)
      (decode?_xmlText a.2) (as.flatMap attributeText ++ '>' :: rest)
    rw [String.ofList_toList] at hrun
    have hsplit : (a :: as).flatMap attributeText ++ '>' :: rest =
        ' ' :: (a.1.toList ++ '=' :: '"' ::
          (xmlText a.2 ++ '"' :: (as.flatMap attributeText ++ '>' :: rest))) := by
      simp [attributeText]
    rw [hsplit, Xml.attributes?, Xml.tagEnd?_space_name hname]
    dsimp only
    split
    · next heq =>
      cases heq.symm.trans hrun
      rw [ih fun b hb => has b (List.mem_cons_of_mem a hb)]
      rfl
    · next heq => cases heq.symm.trans hrun

theorem read?_openTag {tag : String} {as : List (String × String)} (htag : IsName tag)
    (has : ∀ a ∈ as, IsName a.1) (rest : List Char) (fs : List Frame) :
    Xml.read? (openTag tag as ++ rest) fs = Xml.read? rest (⟨tag, as, []⟩ :: fs) := by
  have hsplit : openTag tag as ++ rest =
      '<' :: (tag.toList ++ (as.flatMap attributeText ++ '>' :: rest)) := by
    simp [openTag]
  have hend : ∀ c ∈ (as.flatMap attributeText ++ '>' :: rest).head?,
      Xml.isNameChar c = false := by
    cases as <;> (intro c hc; cases hc; decide)
  rw [hsplit]
  exact Xml.read?_of_mark? (Xml.mark?_start htag hend (attributes?_run has rest)) rfl

theorem read?_closeTag {tag : String} (htag : IsName tag) {f : Frame} (hf : f.tag = tag)
    (rest : List Char) (g : Frame) (fs : List Frame) :
    Xml.read? (closeTag tag ++ rest) (f :: g :: fs) =
      Xml.read? rest (g.append [f.item] :: fs) := by
  have hsplit : closeTag tag ++ rest = '<' :: '/' :: (tag.toList ++ '>' :: rest) := by
    simp [closeTag]
  rw [hsplit]
  exact Xml.read?_of_mark? (Xml.mark?_stop htag rest) (by rw [Xml.step?, if_pos hf])

/-- What is written for an element is read as the start of its line and its tree. -/
def ReadsAs (e : Element) : Prop :=
  ∀ level rest f fs, Xml.read? (e.write level ++ rest) (f :: fs) =
    Xml.read? rest (f.append (textItems (lineText level) ++ [e.tree level]) :: fs)

/-- Elements one after the other. -/
theorem read?_writeElements {es : List Element} (hes : ∀ e ∈ es, ReadsAs e) (level : Nat)
    (rest : List Char) (f : Frame) (fs : List Frame) :
    Xml.read? (writeElements level es ++ rest) (f :: fs) =
      Xml.read? rest (f.append (treesOf level es) :: fs) := by
  induction es generalizing f with
  | nil => rw [writeElements, treesOf, Frame.append_nil, List.nil_append]
  | cons e es ih =>
    rw [writeElements, List.append_assoc, hes e List.mem_cons_self,
      ih fun d hd => hes d (List.mem_cons_of_mem e hd), Frame.append_append, treesOf,
      List.append_assoc, List.singleton_append]

/-- A start tag on a line of its own. -/
theorem read?_line_openTag {tag : String} {as : List (String × String)} (htag : IsName tag)
    (has : ∀ a ∈ as, IsName a.1) (level : Nat) (rest : List Char) (f : Frame)
    (fs : List Frame) :
    Xml.read? (xmlLine level ++ (openTag tag as ++ rest)) (f :: fs) =
      Xml.read? rest (⟨tag, as, []⟩ :: f.append (textItems (lineText level)) :: fs) := by
  rw [xmlLine_eq, openTag, List.cons_append, read?_text]
  exact read?_openTag htag has rest _

theorem readsAs {e : Element} (h : e.Named) : ReadsAs e := by
  induction h with
  -- line and start tag, then the text, then the end tag
  | @leaf tag as text htag has =>
    intro level rest f fs
    have hstart := read?_line_openTag htag has level (xmlText text ++ (closeTag tag ++ rest)) f fs
    have hstop := read?_closeTag htag (f := ⟨tag, as, textItems text⟩) rfl rest
      (f.append (textItems (lineText level))) fs
    calc Xml.read? ((Element.leaf tag as text).write level ++ rest) (f :: fs)
        = Xml.read? (xmlText text ++ (closeTag tag ++ rest))
            (⟨tag, as, []⟩ :: f.append (textItems (lineText level)) :: fs) := by
          rw [← hstart, Element.write]
          simp only [List.append_assoc]
      _ = Xml.read? (closeTag tag ++ rest)
            (⟨tag, as, textItems text⟩ :: f.append (textItems (lineText level)) :: fs) :=
          read?_text text _ _ _
      _ = _ := by
          rw [hstop, Frame.append_append]
          rfl
  -- line and start tag, then the children, then the line of the end tag, then the end tag
  | @group tag children htag hchildren ih =>
    intro level rest f fs
    have hstart := read?_line_openTag htag (List.forall_mem_nil _) level
      (writeElements (level + 1) children ++ (xmlLine level ++ (closeTag tag ++ rest))) f fs
    have hstop := read?_closeTag htag
      (f := ⟨tag, [], treesOf (level + 1) children ++ textItems (lineText level)⟩) rfl rest
      (f.append (textItems (lineText level))) fs
    calc Xml.read? ((Element.group tag children).write level ++ rest) (f :: fs)
        = Xml.read?
            (writeElements (level + 1) children ++ (xmlLine level ++ (closeTag tag ++ rest)))
            (⟨tag, [], []⟩ :: f.append (textItems (lineText level)) :: fs) := by
          rw [← hstart, Element.write]
          simp only [List.append_assoc]
      _ = Xml.read? (xmlLine level ++ (closeTag tag ++ rest))
            (⟨tag, [], treesOf (level + 1) children⟩ ::
              f.append (textItems (lineText level)) :: fs) :=
          read?_writeElements ih _ _ _ _
      _ = Xml.read? (closeTag tag ++ rest)
            (⟨tag, [], treesOf (level + 1) children ++ textItems (lineText level)⟩ ::
              f.append (textItems (lineText level)) :: fs) := by
          rw [xmlLine_eq]
          exact read?_text _ _ _ _
      _ = _ := by
          rw [hstop, Frame.append_append]
          rfl

/-! ## The document of an element -/

theorem elements?_lineText (level : Nat) (rest : List Item) :
    Xml.elements? (textItems (lineText level) ++ rest) = Xml.elements? rest := by
  refine Xml.elements?_textItems ?_ rest
  rw [lineText, String.toList_ofList, xmlLine, List.all_cons, List.all_replicate]
  simp [Xml.isSpace]

theorem elements?_tree_cons (e : Element) (level : Nat) (rest : List Item) :
    Xml.elements? (e.tree level :: rest) = (Xml.elements? rest).map (e.tree level :: ·) := by
  cases e <;> rfl

/-- The elements of a group are those that were written. -/
theorem elements?_treesOf (es : List Element) (level level' : Nat) :
    Xml.elements? (treesOf level es ++ textItems (lineText level')) =
      some (es.map (Element.tree level)) := by
  induction es with
  | nil =>
    have h := elements?_lineText level' []
    rwa [List.append_nil] at h
  | cons e es ih =>
    rw [treesOf, List.append_assoc, elements?_lineText, List.cons_append,
      elements?_tree_cons, ih]
    rfl

/-- A document with one element on its own line is read as the tree of that element. -/
theorem document?_write {e : Element} (h : e.Named) :
    Xml.document? (String.ofList (xmlDeclaration ++ e.write 0)) = some (e.tree 0) := by
  have hcontent : Xml.content? (xmlDeclaration ++ e.write 0) = some (e.write 0) := rfl
  have hread : Xml.read? (e.write 0) [⟨"", [], []⟩] =
      some [⟨"", [], textItems (lineText 0) ++ [e.tree 0]⟩] := by
    have hrun := readsAs h 0 [] ⟨"", [], []⟩ []
    rw [List.append_nil] at hrun
    rw [hrun, Xml.read?, Xml.marks?]
    rfl
  rw [Xml.document?, String.toList_ofList, hcontent]
  simp only [Option.bind_eq_bind, Option.bind_some]
  rw [hread]
  simp only [Option.bind_some]
  rw [elements?_lineText, elements?_tree_cons]
  rfl

/-! ## What a report says -/

/-- What a reader takes from a report: the names of each kind, and the failures, if the
report has an element for them, each with the unit that failed and the reason. -/
structure Contents where
  lists : List (SymbolKind × List String)
  failures? : Option (List (String × String))
deriving DecidableEq

def symbol? : Item → Option String
  | .element tag [] children => if tag = "symbol" then Xml.text? children else none
  | _ => none

/-- The unit that failed, and the reason, in their element. -/
def failure? : Item → Option (String × String)
  | .element tag [(name, source)] children =>
    if tag = "failure" ∧ name = "source" then (Xml.text? children).map (source, ·) else none
  | _ => none

/-- What stands in each of the elements in an element with some tag. -/
def group? {α : Type} (item? : Item → Option α) (expected : String) : Item → Option (List α)
  | .element tag [] children =>
    if tag = expected then (Xml.elements? children).bind (List.mapM item?) else none
  | _ => none

/-- The names of each kind, in an element for each, and the elements behind these. -/
def lists? : List SymbolKind → List Item →
    Option (List (SymbolKind × List String) × List Item)
  | [], rest => some ([], rest)
  | _ :: _, [] => none
  | k :: ks, e :: rest =>
    (group? symbol? k.plural e).bind fun names =>
      (lists? ks rest).map (Prod.map ((k, names) :: ·) id)

def contents? : Item → Option Contents
  | .element tag [] children =>
    if tag = "inventory" then do
      let es ← Xml.elements? children
      let (lists, rest) ← lists? SymbolKind.all es
      match rest with
      | [] => some ⟨lists, none⟩
      | [e] => (group? failure? "failures" e).map fun failures => ⟨lists, some failures⟩
      | _ => none
    else none
  | _ => none

def shownFailure (f : UnitFailure) : String × String := (f.source.display, f.error)

/-- What the report of a corpus is to say. -/
def contentsOf (c : Corpus) : Contents where
  lists := SymbolKind.all.map fun k => (k, (c.names k).toList)
  failures? := if c.failures = [] then none else some (c.failures.map shownFailure)

section Groups

variable {α β : Type} {item? : Item → Option β} {element : α → Element} {value : α → β}

/-- Each element of a group gives what it was written for. -/
theorem group?_tree {level : Nat}
    (hitem : ∀ a, item? ((element a).tree (level + 1)) = some (value a)) (tag : String)
    (as : List α) :
    group? item? tag ((Element.group tag (as.map element)).tree level) =
      some (as.map value) := by
  have hitems : ((as.map element).map (Element.tree (level + 1))).mapM item? =
      some (as.map value) := by
    induction as with
    | nil => rfl
    | cons a as ih =>
      rw [List.map_cons, List.map_cons, List.mapM_cons, hitem, ih]
      rfl
  rw [Element.tree, group?, if_pos rfl, elements?_treesOf, Option.bind_some, hitems]

end Groups

theorem symbol?_tree (level : Nat) (name : String) :
    symbol? ((symbolElement name).tree level) = some name := by
  rw [symbolElement, Element.tree, symbol?, if_pos rfl, Xml.text?_textItems]

theorem failure?_tree (level : Nat) (f : UnitFailure) :
    failure? ((failureElement f).tree level) = some (shownFailure f) := by
  rw [failureElement, Element.tree, failure?, if_pos ⟨rfl, rfl⟩, Xml.text?_textItems]
  rfl

theorem lists?_trees (c : Corpus) (level : Nat) (kinds : List SymbolKind) (rest : List Item) :
    lists? kinds ((kinds.map (kindElement c)).map (Element.tree level) ++ rest) =
      some (kinds.map fun k => (k, (c.names k).toList), rest) := by
  induction kinds with
  | nil => rfl
  | cons k ks ih =>
    have hkind : group? symbol? k.plural ((kindElement c k).tree level) =
        some ((c.names k).toList) := by
      rw [kindElement, group?_tree (symbol?_tree (level + 1)), List.map_id']
    rw [List.map_cons, List.map_cons, List.cons_append, lists?, hkind, Option.bind_some, ih]
    rfl

/-- The tree of a corpus says what the corpus has. -/
theorem contents?_tree (c : Corpus) :
    contents? ((corpusElement c).tree 0) = some (contentsOf c) := by
  rw [corpusElement, Element.tree, contents?, if_pos rfl, elements?_treesOf, List.map_append]
  simp only [Option.bind_eq_bind, Option.bind_some]
  rw [lists?_trees, failureElements, contentsOf]
  cases hfailures : c.failures with
  | nil => rfl
  | cons f fs =>
    have hgroup := group?_tree (failure?_tree 2) "failures" (f :: fs)
    simp only [List.isEmpty_cons, Bool.false_eq_true, if_false, List.map_cons, List.map_nil,
      Option.bind_some, reduceCtorEq]
    rw [← List.map_cons, hgroup]
    rfl

theorem named_corpusElement (c : Corpus) : (corpusElement c).Named := by
  refine .group (by decide) fun e he => ?_
  rcases List.mem_append.1 he with hkind | hfailures
  · obtain ⟨k, -, rfl⟩ := List.mem_map.1 hkind
    refine .group (by cases k <;> decide) fun e he => ?_
    obtain ⟨name, -, rfl⟩ := List.mem_map.1 he
    exact .leaf (by decide) (List.forall_mem_nil _)
  · rw [failureElements] at hfailures
    split at hfailures
    · cases hfailures
    · rw [List.mem_singleton.1 hfailures]
      refine .group (by decide) fun e he => ?_
      obtain ⟨f, -, rfl⟩ := List.mem_map.1 he
      refine .leaf (by decide) fun a ha => ?_
      rw [List.mem_singleton.1 ha]
      exact (by decide : IsName "source")

/-- What a reader takes from the XML report of a corpus. -/
def readContents? (text : String) : Option Contents := (Xml.document? text).bind contents?

theorem readContents?_corpusXml (c : Corpus) :
    readContents? (corpusXml c) = some (contentsOf c) := by
  rw [readContents?, corpusXml, document?_write (named_corpusElement c), Option.bind_some,
    contents?_tree]

/-- The contents of a report determine the names of each kind. -/
theorem names_eq_of_contentsOf {c d : Corpus} (h : contentsOf c = contentsOf d)
    (k : SymbolKind) : c.names k = d.names k := by
  have hlists : ∀ k ∈ SymbolKind.all, (k, (c.names k).toList) = (k, (d.names k).toList) :=
    List.map_inj_left.1 (congrArg Contents.lists h)
  have hk : k ∈ SymbolKind.all := by cases k <;> decide
  have hnames : (c.names k).toList = (d.names k).toList := (Prod.mk.inj (hlists k hk)).2
  cases hc : c.names k
  cases hd : d.names k
  rw [hc, hd] at hnames
  cases hnames
  rfl

/-- The contents of a report determine the failures as they are shown. -/
theorem failures_eq_of_contentsOf {c d : Corpus} (h : contentsOf c = contentsOf d) :
    c.failures.map shownFailure = d.failures.map shownFailure := by
  have hfailures := congrArg Contents.failures? h
  simp only [contentsOf] at hfailures
  split at hfailures <;> split at hfailures <;> simp_all

/-- **XML reports lose nothing.** Whatever the names, labels and messages are, a reader
finds in the report of a corpus the names of each kind in their order, and the failures in
theirs, which have an element if and only if there are any. So corpora with the same report
have the same names and show the same failures. -/
theorem xml_reads_back (c : Corpus) :
    readContents? (corpus c .xml) = some (contentsOf c) ∧
      ∀ d, corpus d .xml = corpus c .xml →
        (∀ k, d.names k = c.names k) ∧
          d.failures.map shownFailure = c.failures.map shownFailure := by
  refine ⟨readContents?_corpusXml c, fun d h => ?_⟩
  have hcontents : contentsOf d = contentsOf c := by
    have hread := readContents?_corpusXml d
    rw [show corpusXml d = corpusXml c from h, readContents?_corpusXml c] at hread
    exact (Option.some.inj hread).symm
  exact ⟨names_eq_of_contentsOf hcontents, failures_eq_of_contentsOf hcontents⟩

/-- A corpus with names that look like markup, references and indentation. -/
def markupCorpus : Corpus :=
  { classes := .ofList ["</symbol>", "&lt;", "\n  "], properties := .ofList ["'\"", ""],
    failures := [⟨.inline, "<!-- & -->"⟩] }

/-- The same names, with the failure of another unit that is shown in the same way. -/
def markupTwin : Corpus :=
  { markupCorpus with unitsMerged := 7, failures := [⟨.url "inline", "<!-- & -->"⟩] }

theorem xml_reads_back_markup :
    readContents? (corpus markupCorpus .xml) = some (contentsOf markupCorpus) ∧
      corpus markupTwin .xml = corpus markupCorpus .xml ∧
      (∀ k, markupTwin.names k = markupCorpus.names k) ∧
      markupTwin.failures.map shownFailure = markupCorpus.failures.map shownFailure :=
  ⟨(xml_reads_back markupCorpus).1, rfl, (xml_reads_back markupCorpus).2 markupTwin rfl⟩

end ScriptInventory.Report
