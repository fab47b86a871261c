import ScriptInventory.Proofs.Characters
import ScriptInventory.Proofs.Corpus
import ScriptInventory.Report.Xml

/-!
# Legal characters in XML reports

XML 1.0 has no place for some characters, not even as references (`Xml.IsCharacter`). A report
escapes markup and writes every other character as it is, so that it is legal exactly if all
names, labels and messages in it are (`isLegal_corpusXml`). Main statement: this holds after
any run of updates, and the inventory of a legal script has a name with an illegal character
only where an escape in the quoted key of a class member asks for one
(`isLegal_corpusXml_run`). A script with an illegal character of its own can bring it into the
report, too (`controlKey_is_not_legal`).
-/

namespace ScriptInventory

/-! ## Legal texts -/

namespace Xml

/-- A character that XML 1.0 allows in a document. -/
def IsCharacter (c : Char) : Prop :=
  c = '\t' ∨ c = '\n' ∨ c = '\r' ∨ (0x20 ≤ c.toNat ∧ c.toNat ≤ 0xD7FF) ∨
    (0xE000 ≤ c.toNat ∧ c.toNat ≤ 0xFFFD) ∨ (0x10000 ≤ c.toNat ∧ c.toNat ≤ 0x10FFFF)

instance : DecidablePred IsCharacter := fun _ => inferInstanceAs (Decidable (_ ∨ _))

def IsLegal (w : List Char) : Prop := ∀ c ∈ w, IsCharacter c

instance : DecidablePred IsLegal := fun w => inferInstanceAs (Decidable (∀ c ∈ w, IsCharacter c))

@[simp] theorem isLegal_nil : IsLegal [] := List.forall_mem_nil IsCharacter

@[simp] theorem isLegal_cons {c : Char} {w : List Char} :
    IsLegal (c :: w) ↔ IsCharacter c ∧ IsLegal w := List.forall_mem_cons

@[simp] theorem isLegal_append {v w : List Char} : IsLegal (v ++ w) ↔ IsLegal v ∧ IsLegal w :=
  List.forall_mem_append

@[simp] theorem isLegal_flatMap {α : Type} {f : α → List Char} {l : List α} :
    IsLegal (l.flatMap f) ↔ ∀ a ∈ l, IsLegal (f a) := by
  simp only [IsLegal, List.mem_flatMap]
  constructor
  · intro h a ha c hc
    exact h c ⟨a, ha, hc⟩
  · rintro h c ⟨a, ha, hc⟩
    exact h a ha c hc

/-- Numbers are legal. -/
theorem isCharacter_of_isPart {c : Char} (h : Declaration.NumberKey.IsPart c) : IsCharacter c := by
  rcases h with h | rfl
  · rw [Char.isDigit_iff_toNat] at h
    have hzero : '0'.toNat = 48 := rfl
    have hnine : '9'.toNat = 57 := rfl
    exact .inr (.inr (.inr (.inl (by omega))))
  · decide

end Xml

/-! ## Written elements -/

namespace Report

open Xml

theorem isLegal_xmlChar {c : Char} : IsLegal (xmlChar c) ↔ IsCharacter c := by
  unfold xmlChar
  split
  · decide
  · decide
  · decide
  · decide
  · decide
  · simp

/-- Escaping neither adds nor removes an illegal character. -/
@[simp] theorem isLegal_xmlText {s : String} : IsLegal (xmlText s) ↔ IsLegal s.toList := by
  rw [xmlText, isLegal_flatMap]
  exact forall₂_congr fun c _ => isLegal_xmlChar

theorem isLegal_xmlLine (level : Nat) : IsLegal (xmlLine level) := by
  rw [xmlLine, isLegal_cons]
  refine ⟨by decide, fun c hc => ?_⟩
  rw [List.eq_of_mem_replicate hc]
  decide

theorem isLegal_attributeText {a : String × String} :
    IsLegal (attributeText a) ↔ IsLegal a.1.toList ∧ IsLegal a.2.toList := by
  have hspace : IsCharacter ' ' := by decide
  have hopen : IsLegal ['=', '"'] := by decide
  have hclose : IsLegal ['"'] := by decide
  simp only [attributeText, isLegal_cons, isLegal_append, isLegal_xmlText, hspace, hopen, hclose,
    true_and, and_true]

theorem isLegal_openTag {tag : String} {attributes : List (String × String)} :
    IsLegal (openTag tag attributes) ↔
      IsLegal tag.toList ∧ ∀ a ∈ attributes, IsLegal a.1.toList ∧ IsLegal a.2.toList := by
  have hopen : IsCharacter '<' := by decide
  have hclose : IsLegal ['>'] := by decide
  simp only [openTag, isLegal_cons, isLegal_append, isLegal_flatMap, isLegal_attributeText, hopen,
    hclose, true_and, and_true]

theorem isLegal_closeTag {tag : String} : IsLegal (closeTag tag) ↔ IsLegal tag.toList := by
  have hopen : IsLegal ['<', '/'] := by decide
  have hclose : IsLegal ['>'] := by decide
  simp only [closeTag, isLegal_append, hopen, hclose, true_and, and_true]

/-- An element with a text has the characters of its tag, its attributes and the text. -/
theorem isLegal_write_leaf {level : Nat} {tag text : String} {attributes : List (String × String)} :
    IsLegal ((Element.leaf tag attributes text).write level) ↔
      (IsLegal tag.toList ∧ ∀ a ∈ attributes, IsLegal a.1.toList ∧ IsLegal a.2.toList) ∧
        IsLegal text.toList := by
  rw [Element.write, isLegal_append, isLegal_append, isLegal_append, isLegal_openTag,
    isLegal_xmlText, isLegal_closeTag, and_iff_right (isLegal_xmlLine level)]
  exact and_iff_left_of_imp fun h => h.1.1

theorem isLegal_writeElements {level : Nat} {es : List Element} :
    IsLegal (writeElements level es) ↔ ∀ e ∈ es, IsLegal (e.write level) := by
  induction es with
  | nil => simp [writeElements]
  | cons e es ih => rw [writeElements, isLegal_append, ih, List.forall_mem_cons]

theorem isLegal_write_group {level : Nat} {tag : String} {children : List Element} :
    IsLegal ((Element.group tag children).write level) ↔
      IsLegal tag.toList ∧ ∀ e ∈ children, IsLegal (e.write (level + 1)) := by
  rw [Element.write, isLegal_append, isLegal_append, isLegal_append, isLegal_append,
    isLegal_openTag, isLegal_writeElements, isLegal_closeTag,
    and_iff_right (isLegal_xmlLine level), and_iff_left (isLegal_xmlLine level),
    and_iff_left (List.forall_mem_nil _)]
  exact and_iff_left_of_imp And.left

/-! ## Reports -/

theorem isLegal_kindElement {c : Corpus} {kind : SymbolKind} {level : Nat} :
    IsLegal ((kindElement c kind).write level) ↔
      ∀ name ∈ (c.names kind).toList, IsLegal name.toList := by
  have htag : IsLegal kind.plural.toList := by cases kind <;> decide
  have hsymbol : IsLegal "symbol".toList := by decide
  rw [kindElement, isLegal_write_group, and_iff_right htag, List.forall_mem_map]
  refine forall₂_congr fun name _ => ?_
  rw [symbolElement, isLegal_write_leaf]
  exact and_iff_right ⟨hsymbol, List.forall_mem_nil _⟩

theorem isLegal_failureElement {f : UnitFailure} {level : Nat} :
    IsLegal ((failureElement f).write level) ↔
      IsLegal f.source.display.toList ∧ IsLegal f.error.toList := by
  have htag : IsLegal "failure".toList := by decide
  have hname : IsLegal "source".toList := by decide
  rw [failureElement, isLegal_write_leaf, and_iff_right htag, List.forall_mem_singleton,
    and_iff_right hname]

theorem isLegal_failureElements {c : Corpus} {level : Nat} :
    (∀ e ∈ failureElements c, IsLegal (e.write level)) ↔
      ∀ f ∈ c.failures, IsLegal f.source.display.toList ∧ IsLegal f.error.toList := by
  have htag : IsLegal "failures".toList := by decide
  unfold failureElements
  split
  · next hempty =>
    rw [List.isEmpty_iff.1 hempty]
    simp
  · rw [List.forall_mem_singleton, isLegal_write_group, and_iff_right htag, List.forall_mem_map]
    exact forall₂_congr fun f _ => isLegal_failureElement

/-- A report is legal exactly if the names, labels and messages in it are. -/
theorem isLegal_corpusXml (c : Corpus) :
    IsLegal (corpusXml c).toList ↔
      (∀ kind, ∀ name ∈ (c.names kind).toList, IsLegal name.toList) ∧
        ∀ f ∈ c.failures, IsLegal f.source.display.toList ∧ IsLegal f.error.toList := by
  have hdeclaration : IsLegal xmlDeclaration := by decide
  have htag : IsLegal "inventory".toList := by decide
  have hall : ∀ kind, kind ∈ SymbolKind.all := fun kind => by cases kind <;> decide
  rw [corpusXml, String.toList_ofList, isLegal_append, and_iff_right hdeclaration, corpusElement,
    isLegal_write_group, and_iff_right htag, List.forall_mem_append, isLegal_failureElements,
    List.forall_mem_map]
  refine and_congr_left fun _ => ?_
  constructor
  · intro h kind
    exact isLegal_kindElement.1 (h kind (hall kind))
  · intro h kind _
    exact isLegal_kindElement.2 (h kind)

/-! ## Reports of scripts -/

/-- A name of a legal script has only legal characters, but for those that are escaped in the
quoted key of a class member. -/
theorem isCharacter_or_isEscapedIn {source : SourceUnit} {text : String} {i : Inventory}
    (h : Declaration.structural source text = .ok i) (hlegal : IsLegal text.toList)
    {kind : SymbolKind} {name : String} (hname : name ∈ (i.names kind).toList) {c : Char}
    (hc : c ∈ name.toList) :
    IsCharacter c ∨ (kind = .method ∨ kind = .property) ∧
      Declaration.IsEscapedIn (Script.tree text).preorder name c := by
  rcases Declaration.mem_of_structural h hname hc with htext | hpart | hescaped
  · exact .inl (hlegal c htext)
  · exact .inl (isCharacter_of_isPart hpart)
  · exact .inr hescaped

/-- **Legal reports.** After any run of updates, the report has only legal characters exactly
if the merged names and the labels and messages of the failures have no others. And a legal
script brings in an illegal character in one way only: an escape stands for it in the quoted
key of a method or a field. -/
theorem isLegal_corpusXml_run (updates : List Corpus.Update) :
    (IsLegal (corpusXml (Corpus.empty.run updates)).toList ↔
      (∀ i, .merge i ∈ updates → ∀ kind, ∀ name ∈ (i.names kind).toList, IsLegal name.toList) ∧
        ∀ f, .failure f ∈ updates → IsLegal f.source.display.toList ∧ IsLegal f.error.toList) ∧
    ∀ i, .merge i ∈ updates → ∀ source text, Declaration.structural source text = .ok i →
      IsLegal text.toList → ∀ kind, ∀ name ∈ (i.names kind).toList, ∀ c ∈ name.toList,
        IsCharacter c ∨ (kind = .method ∨ kind = .property) ∧
          Declaration.IsEscapedIn (Script.tree text).preorder name c := by
  constructor
  · rw [isLegal_corpusXml, Corpus.failures_run]
    refine and_congr ?_ ?_
    · simp only [Corpus.toList_run_empty, mem_firstOccurrences, Corpus.mem_namesOf,
        Corpus.mem_merged]
      constructor
      · intro h i hi kind name hname
        exact h kind name ⟨i, hi, hname⟩
      · rintro h kind name ⟨i, hi, hname⟩
        exact h i hi kind name hname
    · exact forall_congr' fun f => imp_congr_left Corpus.mem_recorded
  · intro i _ source text h hlegal kind name hname c hc
    exact isCharacter_or_isEscapedIn h hlegal hname hc

/-- A class whose names need escaping in XML. -/
def markupKeys : String := "class A \x7b '<b>' = 1; \"&\"() \x7b \x7d \x7d"

/-- The names are legal, and so is the report, with a failure that shows markup, too. -/
theorem isLegal_corpusXml_run_markup : ∃ i, Declaration.structural .inline markupKeys = .ok i ∧
    IsLegal (corpusXml (Corpus.empty.run
      [.merge i, .failure ⟨.url "a?b&c", "<lost>"⟩])).toList ∧
    ∀ kind, ∀ name ∈ (i.names kind).toList, ∀ c ∈ name.toList,
      IsCharacter c ∨ (kind = .method ∨ kind = .property) ∧
        Declaration.IsEscapedIn (Script.tree markupKeys).preorder name c := by
  -- the reader runs once, and all that follows is about its five lists
  have hnames : (Declaration.structural .inline markupKeys).toOption.map
      (fun i => (i.classes.toList, i.methods.toList, i.properties.toList, i.functions.toList,
        i.variables.toList)) = some (["A"], ["&"], ["<b>"], [], []) := by decide +kernel
  cases hinventory : Declaration.structural .inline markupKeys with
  | error damage =>
    rw [hinventory] at hnames
    cases hnames
  | ok i =>
    rw [hinventory] at hnames
    obtain ⟨hclasses, hmethods, hproperties, hfunctions, hvariables⟩ :
        i.classes.toList = ["A"] ∧ i.methods.toList = ["&"] ∧ i.properties.toList = ["<b>"] ∧
          i.functions.toList = [] ∧ i.variables.toList = [] := by
      simpa [Except.toOption] using hnames
    have hlegal : ∀ kind, ∀ name ∈ (i.names kind).toList, IsLegal name.toList := by
      intro kind
      cases kind <;>
        simp only [Inventory.names, hclasses, hmethods, hproperties, hfunctions, hvariables] <;>
        decide
    refine ⟨i, rfl, (isLegal_corpusXml_run _).1.2 ⟨?_, ?_⟩,
      (isLegal_corpusXml_run [.merge i]).2 i List.mem_cons_self .inline markupKeys hinventory
        (by decide)⟩
    · intro j hj
      obtain rfl : j = i := by simpa using hj
      exact hlegal
    · intro f hf
      obtain rfl : f = ⟨.url "a?b&c", "<lost>"⟩ := by simpa using hf
      decide

/-- A class with a field whose quoted key is a control character. -/
def controlKey : String := "class A \x7b '\x01' = 1; \x7d"

/-- Not every report of scripts is legal: nothing removes a control character that stands in a
quoted key. -/
theorem controlKey_is_not_legal :
    ¬ ∀ updates : List Corpus.Update,
      (∀ i, .merge i ∈ updates → ∃ source text, Declaration.structural source text = .ok i) →
      IsLegal (corpusXml (Corpus.empty.run updates)).toList := by
  intro hall
  have hproperties : (Declaration.structural .inline controlKey).toOption.map
      (fun i => i.properties.toList) = some ["\x01"] := by decide +kernel
  cases hinventory : Declaration.structural .inline controlKey with
  | error damage =>
    rw [hinventory] at hproperties
    cases hproperties
  | ok i =>
    rw [hinventory] at hproperties
    have hreport := hall [.merge i] fun j hj => by
      obtain rfl : j = i := by simpa using hj
      exact ⟨.inline, controlKey, hinventory⟩
    have hname : "\x01" ∈ ((Corpus.empty.run [.merge i]).names .property).toList := by
      rw [Corpus.toList_run_empty, mem_firstOccurrences, Corpus.mem_namesOf]
      refine ⟨i, List.mem_cons_self, ?_⟩
      change "\x01" ∈ i.properties.toList
      rw [show i.properties.toList = ["\x01"] from Option.some.inj hproperties]
      exact List.mem_cons_self
    exact absurd ((isLegal_corpusXml _).1 hreport |>.1 .property _ hname) (by decide)

end Report

end ScriptInventory
