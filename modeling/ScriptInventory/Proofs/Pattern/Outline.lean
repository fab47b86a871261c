import ScriptInventory.Proofs.Pattern.Matches

/-!
# Where the patterns are exact

An outline is a program of plain declarations: classes with methods and fields, functions,
and variables that are bound to a name. `Outline.textOf` prints it and
`Outline.Statement.namesAll` says what it declares. Main statement: in the text of an
outline the patterns find all that is declared and nothing else
(`Outline.find_textOf`).

The patterns know no words, so a name may end in a keyword or be one. What keeps such
names apart from declarations is what stands behind them:

* `Pattern.opens_of_match?`: a match starts at the rest of a run of name characters that
  is a keyword as a whole, and behind it come white space and another name;
* `Pattern.passes_word`, `Pattern.passes_head`: so a run in front of a sign gives nothing,
  and a run in front of a name gives that name if it is a keyword.
-/

namespace ScriptInventory

namespace Pattern

/-! ## Where a match can start -/

/-- The keywords of a pattern are runs of name characters. -/
def Lettered (p : Pattern) : Prop := ∀ k ∈ p.keywords, k ≠ [] ∧ ∀ c ∈ k, isNamePart c

theorem isNamePart_of_isWhiteSpace {c : Char} (h : Text.isWhiteSpace c) :
    isNamePart c = false := by
  cases hc : isNamePart c with
  | false => rfl
  | true =>
    rw [isWhiteSpace_of_isNamePart hc] at h
    exact absurd h Bool.false_ne_true

/-- A match starts at a run of name characters that is a keyword, with white space and a
name behind it. -/
theorem opens_of_match? {p : Pattern} (hp : p.Lettered) {text name after : List Char}
    (h : p.match? text = some (name, after)) :
    text.takeWhile isNamePart ∈ p.keywords ∧
      ∃ c ∈ ((text.dropWhile isNamePart).dropWhile Text.isWhiteSpace).head?, isNamePart c := by
  obtain ⟨keyword, blanks, tail, rfl, hmem, ⟨hne, hblanks⟩, ⟨hname, hparts⟩, -, -⟩ :=
    matchesAs_of_match? h
  obtain ⟨b, blanks', rfl⟩ := List.exists_cons_of_ne_nil hne
  obtain ⟨d, name', rfl⟩ := List.exists_cons_of_ne_nil hname
  have hd : isNamePart d := hparts d List.mem_cons_self
  -- the keyword ends at the white space, and the white space at the name
  have hbend : ∀ c ∈ (b :: blanks' ++ (d :: name' ++ (tail ++ after))).head?,
      isNamePart c = false := by
    intro c hc
    have hbc : b = c := by simpa using hc
    exact hbc ▸ isNamePart_of_isWhiteSpace (hblanks b List.mem_cons_self)
  have hdend : ∀ c ∈ (d :: name' ++ (tail ++ after)).head?, Text.isWhiteSpace c = false := by
    intro c hc
    have hdc : d = c := by simpa using hc
    exact hdc ▸ isWhiteSpace_of_isNamePart hd
  have hkey := (hp keyword hmem).2
  rw [takeWhile_run hkey hbend, dropWhile_run hkey hbend, dropWhile_run hblanks hdend]
  exact ⟨hmem, d, rfl, hd⟩

/-- A run of name characters is passed over if it does not end in a keyword with a name
behind it. -/
theorem scan_word {p : Pattern} (hp : p.Lettered) {w rest : List Char}
    (hw : ∀ c ∈ w, isNamePart c) (hend : ∀ c ∈ rest.head?, isNamePart c = false)
    (hno : (∃ k ∈ p.keywords, k <:+ w) →
      ∀ c ∈ (rest.dropWhile Text.isWhiteSpace).head?, isNamePart c = false) :
    p.scan (w ++ rest) = p.scan rest := by
  induction w with
  | nil => rfl
  | cons c w ih =>
    have hnone : p.match? (c :: (w ++ rest)) = none := by
      cases hmatch : p.match? (c :: (w ++ rest)) with
      | none => rfl
      | some found =>
        obtain ⟨hmem, d, hd, hpart⟩ := opens_of_match? hp hmatch
        rw [← List.cons_append, takeWhile_run hw hend] at hmem
        rw [← List.cons_append, dropWhile_run hw hend] at hd
        rw [hno ⟨_, hmem, List.suffix_rfl⟩ d hd] at hpart
        exact absurd hpart Bool.false_ne_true
    rw [List.cons_append, scan_of_match?_none hnone]
    apply ih
    · exact fun d hd => hw d (List.mem_cons_of_mem _ hd)
    · rintro ⟨k, hk, hsuffix⟩
      exact hno ⟨k, hk, hsuffix.trans (List.suffix_cons c w)⟩

/-! ## Texts that a scan passes -/

/-- In front of any text, a scan reports these names in `text` and goes on behind it. -/
def Passes (p : Pattern) (text : List Char) (names : List (List Char)) : Prop :=
  ∀ rest, p.scan (text ++ rest) = names ++ p.scan rest

theorem passes_nil (p : Pattern) : p.Passes [] [] := fun _ => rfl

theorem Passes.append {p : Pattern} {a b : List Char} {ns ms : List (List Char)}
    (ha : p.Passes a ns) (hb : p.Passes b ms) : p.Passes (a ++ b) (ns ++ ms) := by
  intro rest
  rw [List.append_assoc, ha, hb, List.append_assoc]

/-- A character that no name holds gives nothing. -/
theorem passes_sign {p : Pattern} (hp : p.Lettered) {c : Char} (hc : isNamePart c = false) :
    p.Passes [c] [] := by
  intro rest
  have hnone : p.match? (c :: rest) = none := by
    cases hmatch : p.match? (c :: rest) with
    | none => rfl
    | some found =>
      obtain ⟨hmem, -⟩ := opens_of_match? hp hmatch
      rw [List.takeWhile_cons_of_neg (by simp [hc])] at hmem
      exact absurd rfl (hp [] hmem).1
  exact scan_of_match?_none hnone

theorem passes_signs {p : Pattern} (hp : p.Lettered) {text : List Char}
    (h : ∀ c ∈ text, isNamePart c = false) : p.Passes text [] := by
  induction text with
  | nil => exact passes_nil p
  | cons c rest ih =>
    exact (passes_sign hp (h c List.mem_cons_self)).append
      (ih fun d hd => h d (List.mem_cons_of_mem _ hd))

/-- White space, which there may be none of, and a sign behind it. -/
structure EndsWord (gap : List Char) (c : Char) : Prop where
  gap_isWhiteSpace : ∀ d ∈ gap, Text.isWhiteSpace d
  isSign : isNamePart c = false
  notWhiteSpace : Text.isWhiteSpace c = false

theorem EndsWord.head? {gap : List Char} {c : Char} (h : EndsWord gap c) (rest : List Char) :
    ∀ d ∈ (gap ++ [c] ++ rest).head?, isNamePart d = false := by
  intro d hd
  cases gap with
  | nil =>
    have hcd : c = d := by simpa using hd
    exact hcd ▸ h.isSign
  | cons b gap =>
    have hbd : b = d := by simpa using hd
    exact hbd ▸ isNamePart_of_isWhiteSpace (h.gap_isWhiteSpace b List.mem_cons_self)

theorem EndsWord.dropWhile {gap : List Char} {c : Char} (h : EndsWord gap c)
    (rest : List Char) : (gap ++ [c] ++ rest).dropWhile Text.isWhiteSpace = c :: rest := by
  rw [List.append_assoc]
  refine dropWhile_run h.gap_isWhiteSpace ?_
  intro d hd
  have hcd : c = d := by simpa using hd
  exact hcd ▸ h.notWhiteSpace

theorem EndsWord.passes {p : Pattern} (hp : p.Lettered) {gap : List Char} {c : Char}
    (h : EndsWord gap c) : p.Passes (gap ++ [c]) [] := by
  apply passes_signs hp
  intro d hd
  rcases List.mem_append.1 hd with hgap | hc
  · exact isNamePart_of_isWhiteSpace (h.gap_isWhiteSpace d hgap)
  · rw [List.mem_singleton.1 hc]
    exact h.isSign

/-- A run of name characters in front of a sign gives nothing, whatever it ends in. -/
theorem passes_word {p : Pattern} (hp : p.Lettered) {w gap : List Char} {c : Char}
    (hw : ∀ d ∈ w, isNamePart d) (hc : EndsWord gap c) : p.Passes (w ++ (gap ++ [c])) [] := by
  intro rest
  rw [List.append_assoc, scan_word hp hw (hc.head? rest), hc.passes hp rest]
  rintro - d hd
  rw [hc.dropWhile] at hd
  have hcd : c = d := by simpa using hd
  exact hcd ▸ hc.isSign

/-- A word, a name and a sign give the name if the word is a keyword, and nothing
otherwise. -/
theorem passes_head {p : Pattern} (hp : p.Lettered) (hdef : p.Definite)
    {word name gap : List Char} {c : Char} (hword : ∀ d ∈ word, isNamePart d)
    (hname : name ≠ [] ∧ ∀ d ∈ name, isNamePart d) (hc : EndsWord gap c)
    (hkey : (∃ k ∈ p.keywords, k <:+ word) → word ∈ p.keywords)
    (hmark : word ∈ p.keywords → ∀ ms, p.marks = some ms → c ∈ ms) :
    p.Passes (word ++ ([' '] ++ (name ++ (gap ++ [c]))))
      (if word ∈ p.keywords then [name] else []) := by
  intro rest
  have hblank : ∀ d ∈ [' '], Text.isWhiteSpace d := by decide
  by_cases hmem : word ∈ p.keywords
  · rw [if_pos hmem]
    cases hmarks : p.marks with
    | none =>
      -- the match ends with the name, and the sign is passed over
      have hmatch : p.MatchesAs (word ++ ([' '] ++ (name ++ (gap ++ [c] ++ rest)))) name
          (gap ++ [c] ++ rest) := by
        refine ⟨word, [' '], [], rfl, hmem, ⟨by simp, hblank⟩, hname, hc.head? rest, ?_⟩
        rw [hmarks]
        rfl
      simp only [List.append_assoc] at hmatch ⊢
      rw [scan_of_match? (match?_of_matchesAs hdef hmatch), ← List.append_assoc,
        hc.passes hp rest, List.nil_append, List.singleton_append]
    | some ms =>
      -- the sign is the mark
      have hmatch : p.MatchesAs (word ++ ([' '] ++ (name ++ (gap ++ [c] ++ rest)))) name
          rest := by
        refine ⟨word, [' '], gap ++ [c], rfl, hmem, ⟨by simp, hblank⟩, hname,
          hc.head? rest, ?_⟩
        rw [hmarks]
        exact ⟨gap, c, rfl, hc.gap_isWhiteSpace, hmark hmem ms hmarks⟩
      simp only [List.append_assoc] at hmatch ⊢
      rw [scan_of_match? (match?_of_matchesAs hdef hmatch), List.singleton_append]
  · rw [if_neg hmem]
    have hblankSign : isNamePart ' ' = false := by decide
    have hend : ∀ d ∈ ([' '] ++ (name ++ (gap ++ [c])) ++ rest).head?,
        isNamePart d = false := by
      intro d hd
      have hd' : ' ' = d := by simpa using hd
      exact hd' ▸ hblankSign
    rw [List.append_assoc, scan_word hp hword hend fun hsuffix => absurd (hkey hsuffix) hmem]
    exact ((passes_sign hp hblankSign).append (passes_word hp hname.2 hc)) rest

end Pattern

/-! ## Outlines -/

namespace Outline

open Pattern (isNamePart)

/-- Whether a text is a name: a letter or an underscore, and then letters, digits and
underscores. -/
def isName : List Char → Bool
  | [] => false
  | c :: rest => (c.isAlpha || c = '_') && rest.all isNamePart

/-- A name; it may be a keyword. -/
structure Name where
  text : String
  isName : isName text.toList

/-- The words that bind variables. -/
inductive Binder where
  | let
  | var
  | const
deriving DecidableEq, Repr

mutual

/-- A declaration. -/
inductive Statement where
  | «class» (n : Name) (members : List Member)
  | function (n : Name) (body : List Statement)
  | variable (b : Binder) (n : Name)

/-- A member of a class. -/
inductive Member where
  | method (n : Name) (body : List Statement)
  | field (n : Name)

end

/-! ### What is declared -/

/-- What the patterns tell apart. -/
inductive Collection where
  | classes
  | functions
  | «variables»
  | constants
deriving DecidableEq, Repr

/-- The collection that a binder's names belong to. -/
def Binder.collection : Binder → Collection
  | .let | .var => .variables
  | .const => .constants

/-- A name, if the collection is its own. -/
def nameIn (own k : Collection) (n : Name) : List String := if own = k then [n.text] else []

mutual

/-- The names of a collection that a declaration declares, those inside it included, in the
order of the text. Methods and fields belong to none. -/
def Statement.names (k : Collection) : Statement → List String
  | .class n members => nameIn .classes k n ++ Member.namesAll k members
  | .function n body => nameIn .functions k n ++ Statement.namesAll k body
  | .variable b n => nameIn b.collection k n

/-- The names of a collection that several declarations declare. -/
def Statement.namesAll (k : Collection) : List Statement → List String
  | [] => []
  | s :: more => s.names k ++ Statement.namesAll k more

def Member.names (k : Collection) : Member → List String
  | .method _ body => Statement.namesAll k body
  | .field _ => []

def Member.namesAll (k : Collection) : List Member → List String
  | [] => []
  | m :: more => m.names k ++ Member.namesAll k more

end

/-! ### Printing -/

def classWord : List Char := "class".toList

def functionWord : List Char := "function".toList

def Binder.word : Binder → List Char
  | .let => "let".toList
  | .var => "var".toList
  | .const => "const".toList

def Name.chars (n : Name) : List Char := n.text.toList

/-- The blank between something and the items behind it, if there are any. -/
def gapBefore {α : Type} (more : List α) : List Char := if more.isEmpty then [] else [' ']

mutual

def Statement.text : Statement → List Char
  | .class n members =>
    classWord ++ ([' '] ++ (n.chars ++ ([' '] ++ ['{']))) ++ [' '] ++
      Member.textAll members ++ [' ', '}']
  | .function n body =>
    functionWord ++ ([' '] ++ (n.chars ++ ([] ++ ['(']))) ++ [')', ' ', '{', ' '] ++
      Statement.textAll body ++ [' ', '}']
  | .variable b n =>
    b.word ++ ([' '] ++ (n.chars ++ ([' '] ++ ['=']))) ++ [' '] ++ (['1'] ++ ([] ++ [';']))

/-- The text of declarations, with blanks between them. -/
def Statement.textAll : List Statement → List Char
  | [] => []
  | s :: more => s.text ++ gapBefore more ++ Statement.textAll more

def Member.text : Member → List Char
  | .method n body =>
    (n.chars ++ ([] ++ ['('])) ++ [')', ' ', '{', ' '] ++ Statement.textAll body ++ [' ', '}']
  | .field n => (n.chars ++ ([' '] ++ ['='])) ++ [' '] ++ (['1'] ++ ([] ++ [';']))

/-- The text of members, with blanks between them. -/
def Member.textAll : List Member → List Char
  | [] => []
  | m :: more => m.text ++ gapBefore more ++ Member.textAll more

end

def textOf (program : List Statement) : String := String.ofList (Statement.textAll program)

example :
    textOf [.class ⟨"subclass", by decide⟩
      [.method ⟨"let", by decide⟩ [.variable .var ⟨"x", by decide⟩],
        .field ⟨"outlet", by decide⟩]] =
      "class subclass { let() { var x = 1; } outlet = 1; }" := by
  decide

/-! ### The patterns on printed outlines -/

/-- The pattern that fills a collection. -/
def Collection.pattern : Collection → Pattern
  | .classes => .classPattern
  | .functions => .functionPattern
  | .variables => .variablePattern
  | .constants => .constantPattern

theorem Collection.lettered (k : Collection) : k.pattern.Lettered := by
  unfold Pattern.Lettered
  cases k <;> decide

theorem Collection.definite : (k : Collection) → k.pattern.Definite
  | .classes => Pattern.classPattern_definite
  | .functions => Pattern.functionPattern_definite
  | .variables => Pattern.variablePattern_definite
  | .constants => Pattern.constantPattern_definite

theorem Name.isRun (n : Name) : n.chars ≠ [] ∧ ∀ c ∈ n.chars, isNamePart c := by
  have h := n.isName
  unfold Name.chars
  cases hchars : n.text.toList with
  | nil =>
    rw [hchars] at h
    exact absurd h Bool.false_ne_true
  | cons c rest =>
    rw [hchars] at h
    simp only [Outline.isName, Bool.and_eq_true, Bool.or_eq_true, decide_eq_true_eq,
      List.all_eq_true] at h
    refine ⟨List.cons_ne_nil c rest, ?_⟩
    intro d hd
    rcases List.mem_cons.1 hd with rfl | hrest
    · rcases h.1 with halpha | rfl
      · simp only [isNamePart, Char.isAlphanum, halpha, Bool.true_or]
      · decide
    · exact h.2 d hrest

/-- The words that open declarations, with the collection that takes the name behind
them, and the sign that stands behind the name. -/
inductive Opens : List Char → Collection → Char → Prop
  | class : Opens classWord .classes '{'
  | function : Opens functionWord .functions '('
  | binder (b : Binder) : Opens b.word b.collection '='

theorem Opens.isRun {word : List Char} {own : Collection} {c : Char} (h : Opens word own c) :
    ∀ d ∈ word, isNamePart d := by
  cases h with
  | «class» => decide
  | function => decide
  | binder b => cases b <;> decide

/-- A word is a keyword of its own collection's pattern, and no other pattern has a keyword
that the word ends in. -/
theorem Opens.mem_keywords_iff {word : List Char} {own : Collection} {c : Char}
    (h : Opens word own c) (k : Collection) : word ∈ k.pattern.keywords ↔ own = k := by
  cases h with
  | «class» => cases k <;> decide
  | function => cases k <;> decide
  | binder b => cases b <;> cases k <;> decide

theorem Opens.mem_of_suffix {word : List Char} {own : Collection} {c : Char}
    (h : Opens word own c) (k : Collection) :
    (∃ w ∈ k.pattern.keywords, w <:+ word) → word ∈ k.pattern.keywords := by
  cases h with
  | «class» => cases k <;> decide
  | function => cases k <;> decide
  | binder b => cases b <;> cases k <;> decide

theorem Opens.mem_marks {word : List Char} {own : Collection} {c : Char}
    (h : Opens word own c) {ms : List Char} (hms : own.pattern.marks = some ms) : c ∈ ms := by
  cases h with
  | «class» => cases hms
  | function =>
    cases hms
    decide
  | binder b =>
    cases b <;> cases hms <;> decide

/-- The head of a declaration gives its name to its own collection. -/
theorem Opens.passes {word gap : List Char} {own : Collection} {c : Char}
    (h : Opens word own c) (hc : Pattern.EndsWord gap c) (n : Name) (k : Collection) :
    k.pattern.Passes (word ++ ([' '] ++ (n.chars ++ (gap ++ [c]))))
      ((nameIn own k n).map String.toList) := by
  have hpasses := Pattern.passes_head k.lettered k.definite h.isRun n.isRun hc
    (h.mem_of_suffix k) (fun hmem ms hms => h.mem_marks (by
      rw [(h.mem_keywords_iff k).1 hmem]
      exact hms))
  by_cases hown : own = k
  · rw [if_pos ((h.mem_keywords_iff k).2 hown)] at hpasses
    rw [nameIn, if_pos hown]
    exact hpasses
  · rw [if_neg fun hmem => hown ((h.mem_keywords_iff k).1 hmem)] at hpasses
    rw [nameIn, if_neg hown]
    exact hpasses

theorem endsWord_brace : Pattern.EndsWord [' '] '{' := ⟨by decide, by decide, by decide⟩

theorem endsWord_equals : Pattern.EndsWord [' '] '=' := ⟨by decide, by decide, by decide⟩

theorem endsWord_parenthesis : Pattern.EndsWord [] '(' := ⟨by decide, by decide, by decide⟩

theorem endsWord_semicolon : Pattern.EndsWord [] ';' := ⟨by decide, by decide, by decide⟩

theorem passes_blank (k : Collection) : k.pattern.Passes [' '] [] :=
  Pattern.passes_signs k.lettered (by decide)

theorem passes_bodyStart (k : Collection) : k.pattern.Passes [')', ' ', '{', ' '] [] :=
  Pattern.passes_signs k.lettered (by decide)

theorem passes_bodyEnd (k : Collection) : k.pattern.Passes [' ', '}'] [] :=
  Pattern.passes_signs k.lettered (by decide)

theorem passes_gapBefore {α : Type} (k : Collection) (more : List α) :
    k.pattern.Passes (gapBefore more) [] := by
  cases more with
  | nil => exact Pattern.passes_nil _
  | cons a more => exact passes_blank k

/-- The value of a variable or a field gives nothing. -/
theorem passes_value (k : Collection) : k.pattern.Passes (['1'] ++ ([] ++ [';'])) [] :=
  Pattern.passes_word k.lettered (by decide) endsWord_semicolon

/-- The pattern of a collection reports the names of that collection in a text. -/
def Reported (k : Collection) (text : List Char) (names : List String) : Prop :=
  k.pattern.Passes text (names.map String.toList)

theorem Statement.reported_class {k : Collection} (n : Name) {members : List Member}
    (hbody : Reported k (Member.textAll members) (Member.namesAll k members)) :
    Reported k (Statement.class n members).text ((Statement.class n members).names k) := by
  have hhead := Opens.class.passes endsWord_brace n k
  have hall := ((hhead.append (passes_blank k)).append hbody).append (passes_bodyEnd k)
  rw [List.append_nil, List.append_nil, ← List.map_append] at hall
  rw [Reported, Statement.text, Statement.names]
  exact hall

theorem Statement.reported_function {k : Collection} (n : Name) {body : List Statement}
    (hbody : Reported k (Statement.textAll body) (Statement.namesAll k body)) :
    Reported k (Statement.function n body).text ((Statement.function n body).names k) := by
  have hhead := Opens.function.passes endsWord_parenthesis n k
  have hall := ((hhead.append (passes_bodyStart k)).append hbody).append (passes_bodyEnd k)
  rw [List.append_nil, List.append_nil, ← List.map_append] at hall
  rw [Reported, Statement.text, Statement.names]
  exact hall

theorem Statement.reported_variable (k : Collection) (b : Binder) (n : Name) :
    Reported k (Statement.variable b n).text ((Statement.variable b n).names k) := by
  have hhead := (Opens.binder b).passes endsWord_equals n k
  have hall := (hhead.append (passes_blank k)).append (passes_value k)
  rw [List.append_nil, List.append_nil] at hall
  rw [Reported, Statement.text, Statement.names]
  exact hall

theorem Statement.reported_cons {k : Collection} {s : Statement} {more : List Statement}
    (hs : Reported k s.text (s.names k))
    (hmore : Reported k (Statement.textAll more) (Statement.namesAll k more)) :
    Reported k (Statement.textAll (s :: more)) (Statement.namesAll k (s :: more)) := by
  have hall := (hs.append (passes_gapBefore k more)).append hmore
  rw [List.append_nil, ← List.map_append] at hall
  rw [Reported, Statement.textAll, Statement.namesAll]
  exact hall

/-- The key of a method gives nothing, whatever word it ends in. -/
theorem Member.reported_method {k : Collection} (n : Name) {body : List Statement}
    (hbody : Reported k (Statement.textAll body) (Statement.namesAll k body)) :
    Reported k (Member.method n body).text ((Member.method n body).names k) := by
  have hkey := Pattern.passes_word k.lettered n.isRun.2 endsWord_parenthesis
  have hall := ((hkey.append (passes_bodyStart k)).append hbody).append (passes_bodyEnd k)
  rw [List.append_nil, List.nil_append, List.nil_append] at hall
  rw [Reported, Member.text, Member.names]
  exact hall

/-- Nor does the key of a field. -/
theorem Member.reported_field (k : Collection) (n : Name) :
    Reported k (Member.field n).text ((Member.field n).names k) := by
  have hkey := Pattern.passes_word k.lettered n.isRun.2 endsWord_equals
  have hall := (hkey.append (passes_blank k)).append (passes_value k)
  rw [Reported, Member.text, Member.names]
  exact hall

theorem Member.reported_cons {k : Collection} {m : Member} {more : List Member}
    (hm : Reported k m.text (m.names k))
    (hmore : Reported k (Member.textAll more) (Member.namesAll k more)) :
    Reported k (Member.textAll (m :: more)) (Member.namesAll k (m :: more)) := by
  have hall := (hm.append (passes_gapBefore k more)).append hmore
  rw [List.append_nil, ← List.map_append] at hall
  rw [Reported, Member.textAll, Member.namesAll]
  exact hall

mutual

/-- The pattern of a collection reports what a declaration declares. -/
theorem Statement.reported (k : Collection) : ∀ s : Statement, Reported k s.text (s.names k)
  | .class n members => Statement.reported_class n (Member.reportedAll k members)
  | .function n body => Statement.reported_function n (Statement.reportedAll k body)
  | .variable b n => Statement.reported_variable k b n

theorem Statement.reportedAll (k : Collection) :
    ∀ ss : List Statement, Reported k (Statement.textAll ss) (Statement.namesAll k ss)
  | [] => Pattern.passes_nil _
  | s :: more => Statement.reported_cons (s.reported k) (Statement.reportedAll k more)

theorem Member.reported (k : Collection) : ∀ m : Member, Reported k m.text (m.names k)
  | .method n body => Member.reported_method n (Statement.reportedAll k body)
  | .field n => Member.reported_field k n

theorem Member.reportedAll (k : Collection) :
    ∀ ms : List Member, Reported k (Member.textAll ms) (Member.namesAll k ms)
  | [] => Pattern.passes_nil _
  | m :: more => Member.reported_cons (m.reported k) (Member.reportedAll k more)

end

/-! ### What is found -/

/-- A pattern finds the names of its collection, each where it is first declared. -/
theorem toList_names_textOf (k : Collection) (program : List Statement) :
    (k.pattern.names (textOf program)).toList =
      firstOccurrences (Statement.namesAll k program) := by
  have hscan := Statement.reportedAll k program []
  have hend : k.pattern.scan [] = [] := by rw [Pattern.scan]
  rw [List.append_nil, hend, List.append_nil] at hscan
  have hback : ((Statement.namesAll k program).map String.toList).map String.ofList =
      Statement.namesAll k program := by
    rw [List.map_map]
    exact (List.map_congr_left fun n _ => String.ofList_toList).trans (List.map_id _)
  rw [Pattern.names, OrderedNames.toList_ofList, textOf, String.toList_ofList, hscan, hback]

/-- Names without repetition behind others: those that are new. -/
theorem firstOccurrences_append_filter {a b : List String} (ha : a.Nodup) (hb : b.Nodup) :
    firstOccurrences (a ++ b) = a ++ b.filter fun n => n ∉ a := by
  rw [firstOccurrences_append, firstOccurrences_of_nodup ha]
  induction b generalizing a with
  | nil => simp
  | cons n b ih =>
    obtain ⟨hn, hrest⟩ := List.nodup_cons.1 hb
    rw [List.foldl_cons, appendNew]
    by_cases hmem : n ∈ a
    · rw [if_pos hmem, ih ha hrest, List.filter_cons_of_neg (by simpa using hmem)]
    · have hnew : (a ++ [n]).Nodup := by
        rw [List.nodup_append]
        refine ⟨ha, List.nodup_cons.2 ⟨List.not_mem_nil, List.nodup_nil⟩, ?_⟩
        rintro x hx y hy rfl
        exact hmem (List.mem_singleton.1 hy ▸ hx)
      -- the names behind `n` differ from it, so that it makes none of them old
      have hsame : (b.filter fun m => m ∉ a ++ [n]) = b.filter fun m => m ∉ a := by
        apply List.filter_congr
        intro m hm
        have hne : m ≠ n := fun heq => hn (heq ▸ hm)
        simp [hne]
      rw [if_neg hmem, ih hnew hrest, hsame, List.append_assoc,
        List.filter_cons_of_pos (by simpa using hmem), List.singleton_append]

/-- **The patterns are exact on outlines.** In the text of any outline, whatever its names
begin or end with, the four patterns find the names of the classes, of the functions, of
the variables and of the constants, each where it is first declared, and nothing else. The
inventory has these classes and functions, no methods and no properties, and its variables
are the variables and behind them the constants that are not among them. -/
theorem find_textOf (program : List Statement) (source : SourceUnit) :
    let found := Pattern.find (textOf program)
    let i := Pattern.inventory source (textOf program)
    let declared (k : Collection) : List String :=
      firstOccurrences (Statement.namesAll k program)
    (found.classes.toList = declared .classes ∧ found.functions.toList = declared .functions ∧
      found.variables.toList = declared .variables ∧
      found.constants.toList = declared .constants) ∧
    i.source = source ∧ i.classes.toList = declared .classes ∧ i.methods.toList = [] ∧
      i.properties.toList = [] ∧ i.functions.toList = declared .functions ∧
      i.variables.toList = declared .variables ++
        (declared .constants).filter fun n => n ∉ declared .variables := by
  intro found i declared
  have hfound : ∀ k, (k.pattern.names (textOf program)).toList = declared k :=
    fun k => toList_names_textOf k program
  -- the inventory is what recording the constants adds to the other findings
  have hnames : ∀ l, (i.names l).toList = firstOccurrences
      (((⟨source, found.classes, .empty, .empty, found.functions, found.variables⟩ :
        Inventory).names l).toList ++
          if SymbolKind.variable = l then found.constants.toList else []) :=
    fun l => Inventory.toList_recordAll _ .variable l _
  have hother : ∀ names : OrderedNames,
      firstOccurrences (names.toList ++ []) = names.toList := fun names => by
    rw [List.append_nil, firstOccurrences_of_nodup names.nodup]
  refine ⟨⟨hfound .classes, hfound .functions, hfound .variables, hfound .constants⟩,
    Inventory.source_recordAll _ _ _, ?_, ?_, ?_, ?_, ?_⟩
  · exact (hnames .class).trans ((hother _).trans (hfound .classes))
  · exact (hnames .method).trans (hother .empty)
  · exact (hnames .property).trans (hother .empty)
  · exact (hnames .function).trans ((hother _).trans (hfound .functions))
  · refine (hnames .variable).trans ?_
    have hboth : firstOccurrences (found.variables.toList ++ found.constants.toList) =
        found.variables.toList ++
          found.constants.toList.filter fun n => n ∉ found.variables.toList :=
      firstOccurrences_append_filter found.variables.nodup found.constants.nodup
    have hvariables : found.variables.toList = declared .variables := hfound .variables
    have hconstants : found.constants.toList = declared .constants := hfound .constants
    rw [hvariables, hconstants] at hboth
    rw [← hboth, ← hvariables, ← hconstants]
    rfl

end Outline

end ScriptInventory
