import ScriptInventory.Proofs.Text.Runs

/-!
# Reading XML

A reader for documents of elements, texts and the five predefined references, behind an
optional declaration. It knows nothing of how reports are written: a document is cut into
marks (`marks?`), a start tag, an end tag or a text each, and the marks are put together by
a stack of open elements, where an end tag has to name the element that it closes
(`run?`). White space is kept as it is everywhere. Comments, character data sections and
processing instructions are not read.

The second half says what the reader does with the parts that a writer puts one behind the
other: an attribute (`attribute?_run`), a tag (`mark?_start`, `mark?_stop`) and a text
(`mark?_text`).
-/

namespace ScriptInventory.Xml

/-- A piece of a document: a text, or an element with what stands in it. -/
inductive Item where
  | text (s : String)
  | element (tag : String) (attributes : List (String × String)) (children : List Item)

/-- A tag, or a text between tags. -/
inductive Mark where
  | start (tag : String) (attributes : List (String × String))
  | stop (tag : String)
  | text (s : String)

/-! ## Characters and references -/

def isSpace (c : Char) : Bool := c = ' ' || c = '\t' || c = '\n' || c = '\r'

/-- A character of the name of an element or of an attribute. -/
def isNameChar (c : Char) : Bool :=
  c.isAlphanum || c = '_' || c = '-' || c = '.' || c = ':' || decide (0x80 ≤ c.toNat)

/-- A text with its references resolved. -/
def decode? : List Char → Option (List Char)
  | [] => some []
  | '&' :: 'l' :: 't' :: ';' :: rest => (decode? rest).map ('<' :: ·)
  | '&' :: 'g' :: 't' :: ';' :: rest => (decode? rest).map ('>' :: ·)
  | '&' :: 'a' :: 'm' :: 'p' :: ';' :: rest => (decode? rest).map ('&' :: ·)
  | '&' :: 'a' :: 'p' :: 'o' :: 's' :: ';' :: rest => (decode? rest).map ('\'' :: ·)
  | '&' :: 'q' :: 'u' :: 'o' :: 't' :: ';' :: rest => (decode? rest).map ('"' :: ·)
  | '&' :: _ => none
  | c :: rest => (decode? rest).map (c :: ·)

/-! ## Marks -/

/-- What stands before the first of some character, and what stands behind it. -/
def upTo? (stop : Char) : List Char → Option (List Char × List Char)
  | [] => none
  | c :: rest => if c = stop then some ([], rest) else (upTo? stop rest).map (Prod.map (c :: ·) id)

/-- The name at the start of a text, and what stands behind it. -/
def name? (text : List Char) : Option (String × List Char) :=
  match text.takeWhile isNameChar with
  | [] => none
  | w => some (String.ofList w, text.dropWhile isNameChar)

/-- What stands behind the end of a tag, which white space may precede. -/
def tagEnd? (text : List Char) : Option (List Char) :=
  match text.dropWhile isSpace with
  | '>' :: rest => some rest
  | _ => none

/-- The attribute at the start of a text, behind white space, and what stands behind it. -/
def attribute? : List Char → Option ((String × String) × List Char)
  | [] => none
  | c :: rest =>
    if isSpace c then do
      let (name, rest) ← name? (rest.dropWhile isSpace)
      match rest with
      | '=' :: quote :: rest =>
        if quote = '"' || quote = '\'' then do
          let (value, rest) ← upTo? quote rest
          let value ← decode? value
          some ((name, String.ofList value), rest)
        else none
      | _ => none
    else none

theorem length_of_upTo? {stop : Char} {text w rest : List Char}
    (h : upTo? stop text = some (w, rest)) : rest.length < text.length := by
  induction text generalizing w with
  | nil => cases h
  | cons c text ih =>
    rw [upTo?] at h
    split at h
    · cases h
      exact Nat.lt_succ_self _
    · obtain ⟨⟨w', rest'⟩, hrest, hw⟩ := Option.map_eq_some_iff.1 h
      cases hw
      exact Nat.lt_succ_of_lt (ih hrest)

theorem length_of_name? {text rest : List Char} {name : String}
    (h : name? text = some (name, rest)) : rest.length ≤ text.length := by
  rw [name?] at h
  split at h
  · cases h
  · cases h
    exact (List.dropWhile_suffix _).length_le

theorem length_of_tagEnd? {text rest : List Char} (h : tagEnd? text = some rest) :
    rest.length < text.length := by
  rw [tagEnd?] at h
  split at h
  · next heq =>
    cases h
    have hle := (List.dropWhile_suffix isSpace (l := text)).length_le
    rw [heq] at hle
    exact hle
  · cases h

theorem length_of_attribute? {text rest : List Char} {a : String × String}
    (h : attribute? text = some (a, rest)) : rest.length < text.length := by
  cases text with
  | nil => cases h
  | cons c text =>
    rw [attribute?] at h
    split at h
    · obtain ⟨⟨name, behind⟩, hname, h⟩ := Option.bind_eq_some_iff.1 h
      have hbehind := length_of_name? hname
      have hspace := (List.dropWhile_suffix isSpace (l := text)).length_le
      dsimp only at h
      split at h
      · next quote behind' _ =>
        split at h
        · obtain ⟨⟨value, after⟩, hvalue, h⟩ := Option.bind_eq_some_iff.1 h
          obtain ⟨decoded, -, h⟩ := Option.bind_eq_some_iff.1 h
          cases h
          have hafter := length_of_upTo? hvalue
          simp only [List.length_cons] at hbehind ⊢
          omega
        · cases h
      · cases h
    · cases h

/-- The attributes of a start tag, and what stands behind the tag. -/
def attributes? (text : List Char) : Option (List (String × String) × List Char) :=
  match tagEnd? text with
  | some rest => some ([], rest)
  | none =>
    match _h : attribute? text with
    | some (a, rest) => (attributes? rest).map (Prod.map (a :: ·) id)
    | none => none
termination_by text.length
decreasing_by exact length_of_attribute? _h

/-- The mark at the start of a text, and what stands behind it. -/
def mark? : List Char → Option (Mark × List Char)
  | [] => none
  | '<' :: '/' :: rest => do
    let (tag, rest) ← name? rest
    let rest ← tagEnd? rest
    some (.stop tag, rest)
  | '<' :: rest => do
    let (tag, rest) ← name? rest
    let (attributes, rest) ← attributes? rest
    some (.start tag attributes, rest)
  | c :: rest => do
    let s ← decode? (c :: rest.takeWhile (· != '<'))
    some (.text (String.ofList s), rest.dropWhile (· != '<'))

theorem length_of_attributes? {text rest : List Char} {as : List (String × String)}
    (h : attributes? text = some (as, rest)) : rest.length < text.length := by
  induction text using attributes?.induct generalizing as with
  | case1 text after hend =>
    rw [attributes?, hend] at h
    cases h
    exact length_of_tagEnd? hend
  | case2 text hend a after ha ih =>
    rw [attributes?, hend] at h
    dsimp only at h
    split at h
    · next a' after' ha' =>
      obtain ⟨⟨as', rest'⟩, has, hp⟩ := Option.map_eq_some_iff.1 h
      cases hp
      cases ha.symm.trans ha'
      exact Nat.lt_trans (ih has) (length_of_attribute? ha)
    · cases h
  | case3 text hend hnone =>
    rw [attributes?, hend] at h
    dsimp only at h
    split at h
    · next ha => cases hnone.symm.trans ha
    · cases h

theorem length_of_mark? {text rest : List Char} {m : Mark} (h : mark? text = some (m, rest)) :
    rest.length < text.length := by
  unfold mark? at h
  split at h
  · cases h
  · obtain ⟨⟨tag, behind⟩, hname, h⟩ := Option.bind_eq_some_iff.1 h
    obtain ⟨after, hend, h⟩ := Option.bind_eq_some_iff.1 h
    cases h
    have := length_of_name? hname
    have := length_of_tagEnd? hend
    simp only [List.length_cons]
    omega
  · obtain ⟨⟨tag, behind⟩, hname, h⟩ := Option.bind_eq_some_iff.1 h
    obtain ⟨⟨as, after⟩, hend, h⟩ := Option.bind_eq_some_iff.1 h
    cases h
    have := length_of_name? hname
    have := length_of_attributes? hend
    simp only [List.length_cons]
    omega
  · obtain ⟨s, -, h⟩ := Option.bind_eq_some_iff.1 h
    cases h
    exact Nat.lt_succ_of_le (List.dropWhile_suffix _).length_le

def marks? (text : List Char) : Option (List Mark) :=
  match text with
  | [] => some []
  | c :: text =>
    match _h : mark? (c :: text) with
    | some (m, rest) => (marks? rest).map (m :: ·)
    | none => none
termination_by text.length
decreasing_by exact length_of_mark? _h

/-! ## Elements -/

/-- An element that is open, and what stands in it so far. -/
structure Frame where
  tag : String
  attributes : List (String × String)
  children : List Item

/-- An open element with more pieces in it. -/
def Frame.append (f : Frame) (items : List Item) : Frame :=
  { f with children := f.children ++ items }

def Frame.item (f : Frame) : Item := .element f.tag f.attributes f.children

/-- What a mark does to the open elements, innermost first. The outermost frame is the
document itself, which no mark closes. -/
def step? : Mark → List Frame → Option (List Frame)
  | .start tag attributes, open' => some (⟨tag, attributes, []⟩ :: open')
  | .text s, f :: open' => some (f.append [.text s] :: open')
  | .stop tag, f :: g :: open' => if f.tag = tag then some (g.append [f.item] :: open') else none
  | _, _ => none

/-- What marks do to the open elements, one after the other. -/
def run? (ms : List Mark) (open' : List Frame) : Option (List Frame) :=
  ms.foldlM (fun fs m => step? m fs) open'

/-- The text of an element that has only a text. -/
def text? : List Item → Option String
  | [] => some ""
  | .text s :: rest => (text? rest).map (s ++ ·)
  | .element .. :: _ => none

/-- The elements in an element that has only elements, with white space around them. -/
def elements? : List Item → Option (List Item)
  | [] => some []
  | .text s :: rest => if s.toList.all isSpace then elements? rest else none
  | e@(.element ..) :: rest => (elements? rest).map (e :: ·)

/-- What stands behind the end of a declaration. -/
def declarationEnd? : List Char → Option (List Char)
  | '?' :: '>' :: rest => some rest
  | _ :: rest => declarationEnd? rest
  | [] => none

/-- What stands behind the declaration of a document, if there is one. -/
def content? : List Char → Option (List Char)
  | '<' :: '?' :: rest => declarationEnd? rest
  | text => some text

/-- The open elements behind a text, from those before it. -/
def read? (text : List Char) (open' : List Frame) : Option (List Frame) :=
  (marks? text).bind fun ms => run? ms open'

/-- The element of a document: every element in it is closed, and only white space stands
around it. -/
def document? (text : String) : Option Item := do
  let content ← content? text.toList
  match ← read? content [⟨"", [], []⟩] with
  | [f] =>
    match ← elements? f.children with
    | [root] => some root
    | _ => none
  | _ => none

/-! ## What the reader does with one part -/

@[simp] theorem Frame.append_nil (f : Frame) : f.append [] = f := by
  rw [Frame.append, List.append_nil]

@[simp] theorem Frame.append_append (f : Frame) (items more : List Item) :
    (f.append items).append more = f.append (items ++ more) := by
  rw [Frame.append, Frame.append, Frame.append, List.append_assoc]

/-- One mark is read after the other. -/
theorem read?_of_mark? {text rest : List Char} {m : Mark} {fs fs' : List Frame}
    (hmark : mark? text = some (m, rest)) (hstep : step? m fs = some fs') :
    read? text fs = read? rest fs' := by
  have hmarks : marks? text = (marks? rest).map (m :: ·) := by
    cases text with
    | nil => cases hmark
    | cons c text =>
      rw [marks?]
      split
      · next hm => cases hm.symm.trans hmark; rfl
      · next hm => cases hm.symm.trans hmark
  rw [read?, read?, hmarks, Option.bind_map]
  congr 1
  funext ms
  rw [Function.comp_apply, run?, List.foldlM_cons, hstep]
  rfl

/-- A name as elements and attributes have it. -/
def IsName (s : String) : Prop := s.toList ≠ [] ∧ ∀ c ∈ s.toList, isNameChar c = true

instance (s : String) : Decidable (IsName s) := inferInstanceAs (Decidable (_ ∧ _))

theorem name?_run {name : String} {rest : List Char} (hname : IsName name)
    (hrest : ∀ c ∈ rest.head?, isNameChar c = false) :
    name? (name.toList ++ rest) = some (name, rest) := by
  rw [name?, takeWhile_run hname.2 hrest, dropWhile_run hname.2 hrest]
  split
  · next h => exact absurd h hname.1
  · rw [String.ofList_toList]

theorem upTo?_run {stop : Char} {w : List Char} (h : stop ∉ w) (rest : List Char) :
    upTo? stop (w ++ stop :: rest) = some (w, rest) := by
  induction w with
  | nil => rw [List.nil_append, upTo?, if_pos rfl]
  | cons c w ih =>
    have hc : c ≠ stop := fun hcon => h (hcon ▸ List.mem_cons_self)
    rw [List.cons_append, upTo?, if_neg hc, ih fun hmem => h (List.mem_cons_of_mem c hmem)]
    rfl

theorem ne_of_isNameChar {c d : Char} (hc : isNameChar c = true) (hd : isNameChar d = false) :
    c ≠ d := by
  rintro rfl
  exact Bool.false_ne_true (hd.symm.trans hc)

theorem isSpace_of_isNameChar {c : Char} (hc : isNameChar c = true) : isSpace c = false := by
  have hspace : c ≠ ' ' := ne_of_isNameChar hc (by decide)
  have htab : c ≠ '\t' := ne_of_isNameChar hc (by decide)
  have hline : c ≠ '\n' := ne_of_isNameChar hc (by decide)
  have hreturn : c ≠ '\r' := ne_of_isNameChar hc (by decide)
  simp [isSpace, *]

/-- A name, and what its first character is not. -/
theorem IsName.cases {name : String} (h : IsName name) :
    ∃ c w, name.toList = c :: w ∧ isNameChar c = true := by
  cases hw : name.toList with
  | nil => exact absurd hw h.1
  | cons c w => exact ⟨c, w, rfl, h.2 c (hw ▸ List.mem_cons_self)⟩

/-- White space and a name are not the end of a tag. -/
theorem tagEnd?_space_name {name : String} (h : IsName name) (rest : List Char) :
    tagEnd? (' ' :: (name.toList ++ rest)) = none := by
  obtain ⟨c, w, hw, hc⟩ := h.cases
  have hspace : (' ' :: (c :: w ++ rest)).dropWhile isSpace = c :: w ++ rest := by
    rw [List.dropWhile_cons_of_pos (by decide)]
    exact List.dropWhile_cons_of_neg (by simp [isSpace_of_isNameChar hc])
  rw [tagEnd?, hw, hspace]
  split
  · next heq => exact absurd (List.cons.inj heq).1 (ne_of_isNameChar hc (by decide))
  · rfl

/-- An attribute in double quotes. -/
theorem attribute?_run {name : String} {w value : List Char} (hname : IsName name)
    (hquote : '"' ∉ w) (hvalue : decode? w = some value) (rest : List Char) :
    attribute? (' ' :: (name.toList ++ '=' :: '"' :: (w ++ '"' :: rest))) =
      some ((name, String.ofList value), rest) := by
  obtain ⟨c, n, hn, hc⟩ := hname.cases
  have hspace : ∀ behind, (name.toList ++ behind).dropWhile isSpace = name.toList ++ behind := by
    intro behind
    rw [hn]
    exact List.dropWhile_cons_of_neg (by simp [isSpace_of_isNameChar hc])
  have hend : ∀ c ∈ ('=' :: '"' :: (w ++ '"' :: rest)).head?, isNameChar c = false := by
    intro c hc
    cases hc
    decide
  rw [attribute?, if_pos (by decide), hspace, name?_run hname hend]
  simp [upTo?_run hquote, hvalue]

/-- An end tag. -/
theorem mark?_stop {tag : String} (h : IsName tag) (rest : List Char) :
    mark? ('<' :: '/' :: (tag.toList ++ '>' :: rest)) = some (.stop tag, rest) := by
  have hend : ∀ c ∈ ('>' :: rest).head?, isNameChar c = false := by
    intro c hc
    cases hc
    decide
  rw [mark?, name?_run h hend]
  rfl

/-- A start tag, behind whose name its attributes stand. -/
theorem mark?_start {tag : String} {as : List (String × String)} {w rest : List Char}
    (h : IsName tag) (hend : ∀ c ∈ w.head?, isNameChar c = false)
    (has : attributes? w = some (as, rest)) :
    mark? ('<' :: (tag.toList ++ w)) = some (.start tag as, rest) := by
  obtain ⟨c, n, hn, hc⟩ := h.cases
  have hslash : c ≠ '/' := ne_of_isNameChar hc (by decide)
  have hmark : mark? ('<' :: (tag.toList ++ w)) =
      (name? (tag.toList ++ w)).bind fun (t, rest) =>
        (attributes? rest).bind fun (as, rest) => some (.start t as, rest) := by
    rw [hn, List.cons_append, mark?]
    · rfl
    · rintro rest heq
      exact hslash (List.cons.inj heq).1
  rw [hmark, name?_run h hend]
  simp [has]

/-- A text in front of a tag. -/
theorem mark?_text {w s : List Char} (hne : w ≠ []) (hopen : '<' ∉ w)
    (hs : decode? w = some s) (rest : List Char) :
    mark? (w ++ '<' :: rest) = some (.text (String.ofList s), '<' :: rest) := by
  cases w with
  | nil => exact absurd rfl hne
  | cons c w =>
    have hc : c ≠ '<' := fun hcon => hopen (hcon ▸ List.mem_cons_self)
    have hw : ∀ d ∈ w, (d != '<') = true := by
      intro d hd
      exact bne_iff_ne.2 fun hcon => hopen (hcon ▸ List.mem_cons_of_mem c hd)
    have hend : ∀ d ∈ ('<' :: rest).head?, (d != '<') = false := by
      intro d hd
      cases hd
      rfl
    rw [List.cons_append, mark?, takeWhile_run hw hend, dropWhile_run hw hend, hs]
    · rfl
    · rintro rest heq
      exact absurd heq hc
    · exact hc

/-- The text of an element, which is not there if it is empty. -/
def textItems (s : String) : List Item := if s.toList = [] then [] else [.text s]

theorem text?_textItems (s : String) : text? (textItems s) = some s := by
  unfold textItems
  split
  · next h => rw [text?, String.toList_eq_nil_iff.1 h]
  · simp [text?]

theorem elements?_textItems {s : String} (hs : s.toList.all isSpace = true) (rest : List Item) :
    elements? (textItems s ++ rest) = elements? rest := by
  unfold textItems
  split
  · rfl
  · rw [List.singleton_append, elements?, if_pos hs]

end ScriptInventory.Xml
