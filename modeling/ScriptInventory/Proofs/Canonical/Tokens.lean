import Mathlib.Data.List.Chain
import Mathlib.Data.List.Forall2
import ScriptInventory.Proofs.Canonical.Program
import ScriptInventory.Proofs.Text.Letters

/-!
# The tokens of canonical programs

Pieces that are kept apart can be read back. Main statement: the tokens of a program are
those of its pieces, all on one line (`tokens?_textOf`).

* `Reads` is the invariant of the pass over the characters: the tokens so far are those
  of the pieces so far, and only a word or a number may still go on.
* `Apart` says which pieces must not touch; `Statement.apartAll` shows it for programs.
-/

namespace ScriptInventory.Canonical

open Script

/-! ## Tokens of pieces -/

/-- The token that a piece stands for; a blank stands for none. -/
def Piece.form? : Piece → Option Plain.Form
  | .blank => none
  | .opener o => some (.opener o)
  | .name n => some (.name n.text)
  | .one => some (.number "1")
  | .sign c _ => some (.sign c)
  | .dots => some .dots

/-- The tokens that pieces stand for. -/
def forms (pieces : List Piece) : List Plain.Form := pieces.filterMap Piece.form?

@[simp] theorem forms_nil : forms [] = [] := rfl

@[simp] theorem forms_cons (p : Piece) (ps : List Piece) :
    forms (p :: ps) = p.form?.toList ++ forms ps := by
  unfold forms
  rw [List.filterMap_cons]
  cases p.form? <;> rfl

@[simp] theorem forms_append (a b : List Piece) : forms (a ++ b) = forms a ++ forms b :=
  List.filterMap_append

/-- Tokens of given forms, all on the line of the first one. -/
def Spells (tokens : List Plain.Token) (fs : List Plain.Form) : Prop :=
  List.Forall₂ (fun t f => t.form = f ∧ t.newLine = false) tokens fs

@[simp] theorem spells_nil {ts : List Plain.Token} : Spells ts [] ↔ ts = [] :=
  List.forall₂_nil_right_iff

@[simp] theorem spells_cons {ts : List Plain.Token} {f : Plain.Form} {fs : List Plain.Form} :
    Spells ts (f :: fs) ↔ ∃ place rest, ts = ⟨f, place, false⟩ :: rest ∧ Spells rest fs := by
  unfold Spells
  rw [List.forall₂_cons_right_iff]
  constructor
  · rintro ⟨⟨f', place, newLine⟩, rest, ⟨rfl, rfl⟩, hrest, rfl⟩
    exact ⟨place, rest, rfl, hrest⟩
  · rintro ⟨place, rest, rfl, hrest⟩
    exact ⟨_, rest, ⟨rfl, rfl⟩, hrest, rfl⟩

theorem spells_singleton {ts : List Plain.Token} {f : Plain.Form} :
    Spells ts [f] ↔ ∃ place, ts = [⟨f, place, false⟩] := by
  simp

@[simp] theorem spells_append {ts : List Plain.Token} {a b : List Plain.Form} :
    Spells ts (a ++ b) ↔ ∃ front back, ts = front ++ back ∧ Spells front a ∧ Spells back b := by
  induction a generalizing ts with
  | nil => simp
  | cons f a ih =>
    simp only [List.cons_append, spells_cons, ih]
    constructor
    · rintro ⟨place, rest, rfl, front, back, rfl, hfront, hback⟩
      exact ⟨_, back, rfl, ⟨place, front, rfl, hfront⟩, hback⟩
    · rintro ⟨front, back, rfl, ⟨place, rest, rfl, hrest⟩, hback⟩
      exact ⟨place, rest ++ back, rfl, rest, back, rfl, hrest, hback⟩

/-! ## Characters -/

theorem isPlain_of_isNameStart {c : Char} (h : isNameStart c) :
    IsPlain c ∧ ¬ (48 ≤ c.toNat ∧ c.toNat ≤ 57) := by
  simp only [isNameStart, Bool.or_eq_true, decide_eq_true_eq] at h
  rcases h with (hletter | rfl) | rfl
  · have hrange := toNat_of_isAlpha hletter
    rw [IsPlain]
    omega
  · exact ⟨by rw [IsPlain]; decide, by decide⟩
  · exact ⟨by rw [IsPlain]; decide, by decide⟩

theorem isPlain_of_isNamePart {c : Char} (h : isNamePart c) : IsPlain c := by
  rw [isNamePart, Bool.or_eq_true] at h
  rcases h with hstart | hdigit
  · exact (isPlain_of_isNameStart hstart).1
  · exact .inr (.inr (.inl (toNat_of_isDigit hdigit)))

theorem isWordStart_of_isNameStart {c : Char} (h : isNameStart c) : isWordStart c := by
  obtain ⟨hplain, hrange⟩ := isPlain_of_isNameStart h
  have hdigit : c.isDigit = false := by
    cases hd : c.isDigit with
    | false => rfl
    | true => exact absurd (toNat_of_isDigit hd) hrange
  rw [isWordStart, isWordPart_of_isPlain hplain, hdigit]
  rfl

/-! ## Words -/

/-- The grammar fixes every word that plain scripts do not have as a name. -/
theorem mem_fixedTexts_of_special {text : String} (h : text ∈ Plain.specialWords) :
    text ∈ fixedTexts := by
  have hall : ∀ word ∈ Plain.specialWords, word ∈ fixedTexts := by decide +kernel
  exact hall text h

theorem ofWord?_opener (o : Plain.Opener) :
    Plain.Form.ofWord? (Piece.word o) = some (.opener o) := by
  cases o <;> rfl

theorem ofWord?_name (n : Name) : Plain.Form.ofWord? n.text = some (.name n.text) := by
  have hopener : Plain.Opener.ofWord? n.text = none := by
    cases ho : Plain.Opener.ofWord? n.text with
    | none => rfl
    | some o =>
      have hspecial : n.text ∈ Plain.specialWords := by
        unfold Plain.Opener.ofWord? at ho
        split at ho
        all_goals first
          | (rename_i hword; rw [hword]; decide)
          | cases ho
      exact absurd (mem_fixedTexts_of_special hspecial) n.notFixed
  have hspecial : n.text ∉ Plain.specialWords :=
    fun h => n.notFixed (mem_fixedTexts_of_special h)
  simp only [Plain.Form.ofWord?, hopener, if_neg hspecial]

/-! ## The pass over the characters -/

section Pass

open Plain

variable {s t : Scan} {fs : List Form}

/-- Tokens of given forms have been read if the text ends here: a word or a number may
still go on, but nothing else. -/
def Reads (s : Scan) (fs : List Form) : Prop :=
  ∃ t, s.finish? = some t ∧ t.pending = .nothing ∧ t.newLine = false ∧
    Spells t.found.reverse fs

theorem Reads.moved (h : Reads s fs) (place : Place) : Reads { s with place := place } fs := by
  obtain ⟨t, hfinish, hpending, hline, hfound⟩ := h
  refine ⟨{ t with place := place }, ?_, hpending, hline, hfound⟩
  unfold Scan.finish? at hfinish ⊢
  cases hs : s.pending with
  | nothing =>
    simp only [hs, Option.some.injEq] at hfinish ⊢
    rw [hfinish, hpending]
  | word start seen =>
    simp only [hs, Option.map_eq_some_iff] at hfinish ⊢
    obtain ⟨form, hform, rfl⟩ := hfinish
    exact ⟨form, hform, rfl⟩
  | number start seen =>
    simp only [hs, Option.some.injEq] at hfinish ⊢
    rw [← hfinish]
    rfl
  | quoted start quote seen => simp [hs] at hfinish
  | dot start => simp [hs] at hfinish
  | twoDots start => simp [hs] at hfinish

/-- Between tokens, those that have been found are all. -/
theorem Reads.found (h : Reads s fs) (hs : s.pending = .nothing) :
    s.newLine = false ∧ Spells s.found.reverse fs := by
  obtain ⟨t, hfinish, -, hline, hfound⟩ := h
  simp only [Scan.finish?, hs, Option.some.injEq] at hfinish
  rw [hfinish]
  exact ⟨hline, hfound⟩

theorem spells_emit (hline : s.newLine = false) (hfound : Spells s.found.reverse fs) (form : Form)
    (start : Place) : Spells (s.emit form start).found.reverse (fs ++ [form]) := by
  simp only [Scan.emit, List.reverse_cons, spells_append, spells_cons, spells_nil, hline]
  exact ⟨_, _, rfl, hfound, _, _, rfl, rfl⟩

/-- A word or a number that ends as a token is read. -/
theorem reads_of_finish? {form : Form} (start : Place) (hline : s.newLine = false)
    (hfound : Spells s.found.reverse fs) (hfinish : s.finish? = some (s.emit form start)) :
    Reads s (fs ++ [form]) :=
  ⟨_, hfinish, rfl, rfl, spells_emit hline hfound form start⟩

/-- What is no part of a word or a number ends both. -/
theorem read?_of_finish? (hs : s.finish? = some t) {c : Char} (hword : isWordPart c = false)
    (hdigit : c.isDigit = false) (hdot : c ≠ '.') : s.read? c = t.open? c := by
  unfold Scan.read?
  unfold Scan.finish? at hs
  cases hp : s.pending with
  | nothing =>
    simp only [hp, Option.some.injEq] at hs ⊢
    rw [hs]
  | word start seen =>
    simp only [hp] at hs
    simp [hword, Scan.finish?, hp, hs]
  | number start seen =>
    simp only [hp] at hs
    simp [hword, hdigit, hdot, Scan.finish?, hp, hs]
  | quoted start quote seen => simp [hp] at hs
  | dot start => simp [hp] at hs
  | twoDots start => simp [hp] at hs

/-- A blank keeps what has been read, and a sign is added to it; both may follow
anything. -/
theorem reads_blank (h : Reads s fs) :
    ∃ s', s.step? ' ' = some s' ∧ Reads s' fs ∧ s'.pending = .nothing := by
  obtain ⟨t, hfinish, hpending, hline, hfound⟩ := h
  have hopen : t.open? ' ' = some t := by
    simp [Scan.open?, isPlainBlank]
  refine ⟨{ t with place := s.place.next ' ' }, ?_, ?_, hpending⟩
  · rw [Scan.step?, read?_of_finish? hfinish (by decide) (by decide) (by decide), hopen]
    rfl
  · refine Reads.moved ⟨t, ?_, hpending, hline, hfound⟩ _
    rw [Scan.finish?, hpending]

theorem reads_sign (h : Reads s fs) {c : Char} (hc : isSign c) :
    ∃ s', s.step? c = some s' ∧ Reads s' (fs ++ [.sign c]) ∧ s'.pending = .nothing := by
  obtain ⟨t, hfinish, hpending, hline, hfound⟩ := h
  -- no sign is part of a word, a digit or a point
  have hchar : isWordPart c = false ∧ c.isDigit = false ∧ c ≠ '.' ∧
      t.open? c = some (t.emit (.sign c) t.place) := by
    unfold isSign at hc
    split at hc
    all_goals first
      | exact ⟨by decide, by decide, by decide, rfl⟩
      | cases hc
  obtain ⟨hword, hdigit, hdot, hopen⟩ := hchar
  refine ⟨{ t.emit (.sign c) t.place with place := s.place.next c }, ?_, ?_, rfl⟩
  · rw [Scan.step?, read?_of_finish? hfinish hword hdigit hdot, hopen]
    rfl
  · exact Reads.moved ⟨_, rfl, rfl, rfl, spells_emit hline hfound (.sign c) t.place⟩ _

/-! ## Runs over pieces -/

/-- A word goes on over all that may be part of it. -/
theorem run_word {start : Place} {seen : List Char} (hs : s.pending = .word start seen)
    {rest : List Char} (hrest : rest.all isNamePart) :
    rest.foldlM Scan.step? s =
      some { s with
        place := s.place.after rest, pending := .word start (rest.reverse ++ seen) } := by
  induction rest generalizing s seen with
  | nil =>
    rw [List.foldlM_nil, Place.after_nil, List.reverse_nil, List.nil_append, ← hs]
    rfl
  | cons c rest ih =>
    rw [List.all_cons, Bool.and_eq_true] at hrest
    have hpart := isWordPart_of_isPlain (isPlain_of_isNamePart hrest.1)
    have hstep : s.step? c = some { s with
        place := s.place.next c, pending := .word start (c :: seen) } := by
      simp only [Scan.step?, Scan.read?, hs, hpart, if_true, Option.map_some]
    rw [List.foldlM_cons, hstep, Option.bind_eq_bind, Option.bind_some, ih rfl hrest.2]
    simp [Place.after_cons]

/-- Between tokens, a word is read to its end. -/
theorem reads_word (h : Reads s fs) (hs : s.pending = .nothing) {word : List Char} {form : Form}
    (hword : isName word) (hform : Form.ofWord? (String.ofList word) = some form) :
    ∃ s', word.foldlM Scan.step? s = some s' ∧ Reads s' (fs ++ [form]) := by
  obtain ⟨hline, hfound⟩ := h.found hs
  cases word with
  | nil => cases hword
  | cons c rest =>
    rw [isName, Bool.and_eq_true] at hword
    have hstart := isWordStart_of_isNameStart hword.1
    have hblank := isPlainBlank_of_isPlain (isPlain_of_isNameStart hword.1).1
    have hstep : s.step? c = some { s with
        place := s.place.next c, pending := .word s.place [c] } := by
      simp [Scan.step?, Scan.read?, hs, Scan.open?, hblank, hstart]
    refine ⟨{ s with
      place := (s.place.next c).after rest, pending := .word s.place (rest.reverse ++ [c]) },
      ?_, reads_of_finish? s.place hline hfound ?_⟩
    · rw [List.foldlM_cons, hstep, Option.bind_eq_bind, Option.bind_some,
        run_word rfl hword.2]
    · have hseen : (rest.reverse ++ [c]).reverse = c :: rest := by simp
      simp only [Scan.finish?, hseen, hform, Option.map_some]

/-- Between tokens, a number of one digit is read. -/
theorem reads_one (h : Reads s fs) (hs : s.pending = .nothing) :
    ∃ s', ['1'].foldlM Scan.step? s = some s' ∧ Reads s' (fs ++ [.number "1"]) := by
  obtain ⟨hline, hfound⟩ := h.found hs
  have hopen : s.open? '1' = some { s with pending := .number s.place ['1'] } := by
    have hstart : isPlainBlank '1' = false ∧ isWordStart '1' = false := by decide
    simp [Scan.open?, hstart]
  refine ⟨{ s with place := s.place.next '1', pending := .number s.place ['1'] }, ?_,
    reads_of_finish? s.place hline hfound rfl⟩
  simp [Scan.step?, Scan.read?, hs, hopen]

/-- Between tokens, three dots are read. -/
theorem reads_dots (h : Reads s fs) (hs : s.pending = .nothing) :
    ∃ s', ['.', '.', '.'].foldlM Scan.step? s = some s' ∧ Reads s' (fs ++ [.dots]) ∧
      s'.pending = .nothing := by
  obtain ⟨hline, hfound⟩ := h.found hs
  have hopen : s.open? '.' = some { s with pending := .dot s.place } := by
    have hstart : isPlainBlank '.' = false ∧ isWordStart '.' = false := by decide
    simp [Scan.open?, hstart]
  refine ⟨{ s.emit .dots s.place with place := s.place.after ['.', '.', '.'] }, ?_, ?_, rfl⟩
  · simp [Scan.step?, Scan.read?, hs, hopen, Scan.emit, Place.after_cons]
  · exact Reads.moved ⟨_, rfl, rfl, rfl, spells_emit hline hfound .dots s.place⟩ _

end Pass

/-! ## Pieces kept apart -/

/-- Whether the last token of a piece may go on. -/
@[simp] def Piece.staysOpen : Piece → Bool
  | .opener _ | .name _ | .one => true
  | .blank | .sign _ _ | .dots => false

/-- Whether a piece may not touch a word or a number in front of it. -/
@[simp] def Piece.needsGap : Piece → Bool
  | .opener _ | .name _ | .one | .dots => true
  | .blank | .sign _ _ => false

/-- Words and numbers do not touch what they could run into. -/
def Apart (pieces : List Piece) : Prop :=
  pieces.IsChain fun p q => p.staysOpen = true → q.needsGap = false

theorem Piece.reads (p : Piece) {s : Plain.Scan} {fs : List Plain.Form} (h : Reads s fs)
    (hgap : p.needsGap = true → s.pending = .nothing) :
    ∃ s', p.text.foldlM Plain.Scan.step? s = some s' ∧ Reads s' (fs ++ p.form?.toList) ∧
      (p.staysOpen = false → s'.pending = .nothing) := by
  cases p with
  | blank =>
    obtain ⟨s', hstep, hreads, hpending⟩ := reads_blank h
    refine ⟨s', ?_, ?_, fun _ => hpending⟩
    · simp [text, hstep]
    · simpa [form?] using hreads
  | sign c hc =>
    obtain ⟨s', hstep, hreads, hpending⟩ := reads_sign h hc
    refine ⟨s', ?_, hreads, fun _ => hpending⟩
    simp [text, hstep]
  | dots =>
    obtain ⟨s', hrun, hreads, hpending⟩ := reads_dots h (hgap rfl)
    exact ⟨s', hrun, hreads, fun _ => hpending⟩
  | one =>
    obtain ⟨s', hrun, hreads⟩ := reads_one h (hgap rfl)
    exact ⟨s', hrun, hreads, by simp⟩
  | name n =>
    obtain ⟨s', hrun, hreads⟩ := reads_word h (hgap rfl) n.isName
      (by rw [String.ofList_toList, ofWord?_name])
    exact ⟨s', hrun, hreads, by simp⟩
  | opener o =>
    have hname : isName (word o).toList := by
      cases o <;> decide +kernel
    obtain ⟨s', hrun, hreads⟩ := reads_word h (hgap rfl) hname
      (by rw [String.ofList_toList, ofWord?_opener])
    exact ⟨s', hrun, hreads, by simp⟩

@[simp] theorem apart_nil : Apart [] := List.isChain_nil

@[simp] theorem apart_cons {p : Piece} {rest : List Piece} :
    Apart (p :: rest) ↔
      (p.staysOpen = true → ∀ q ∈ rest.head?, q.needsGap = false) ∧ Apart rest := by
  unfold Apart
  rw [List.isChain_cons]
  constructor
  · rintro ⟨hnext, hrest⟩
    exact ⟨fun hopen q hq => hnext q hq hopen, hrest⟩
  · rintro ⟨hnext, hrest⟩
    exact ⟨fun q hq hopen => hnext hopen q hq, hrest⟩

/-- The pass over pieces that are kept apart reads their tokens. -/
theorem reads_pieces (pieces : List Piece) {s : Plain.Scan} {fs : List Plain.Form}
    (h : Reads s fs) (hapart : Apart pieces)
    (hgap : ∀ p ∈ pieces.head?, p.needsGap = true → s.pending = .nothing) :
    ∃ s', (pieces.flatMap Piece.text).foldlM Plain.Scan.step? s = some s' ∧
      Reads s' (fs ++ forms pieces) := by
  induction pieces generalizing s fs with
  | nil => exact ⟨s, rfl, by simpa using h⟩
  | cons p more ih =>
    obtain ⟨hnext, hmore⟩ := List.isChain_cons.1 hapart
    obtain ⟨t, hrun, hreads, hpending⟩ := p.reads h (hgap p rfl)
    -- what `p` leaves open is closed by the piece behind it, which may touch it
    have hclosed : ∀ q ∈ more.head?, q.needsGap = true → t.pending = .nothing := by
      intro q hq hneeds
      apply hpending
      by_contra hopen
      rw [Bool.not_eq_false] at hopen
      rw [hnext q hq hopen] at hneeds
      cases hneeds
    obtain ⟨s', hruns, hall⟩ := ih hreads hmore hclosed
    refine ⟨s', ?_, ?_⟩
    · rw [List.flatMap_cons, List.foldlM_append, hrun, Option.bind_eq_bind, Option.bind_some, hruns]
    · rw [forms_cons, ← List.append_assoc]
      exact hall

/-- Pieces that are kept apart are read back as their tokens. -/
theorem tokens?_of_apart {pieces : List Piece} (h : Apart pieces) :
    ∃ ts, Plain.tokens? (pieces.flatMap Piece.text) = some ts ∧ Spells ts (forms pieces) := by
  have hstart : Reads .start [] := ⟨.start, rfl, rfl, rfl, by simp [Plain.Scan.start]⟩
  obtain ⟨s, hrun, t, hfinish, -, -, hfound⟩ := reads_pieces pieces hstart h fun _ _ _ => rfl
  refine ⟨t.found.reverse, ?_, hfound⟩
  rw [Plain.tokens?, hrun, Option.bind_some, hfinish, Option.map_some]

/-! ## Programs -/

def Follows (rest : List Piece) : Prop :=
  (∀ q ∈ rest.head?, q.needsGap = false) ∧ Apart rest

@[simp] theorem follows_blank {rest : List Piece} : Follows (.blank :: rest) ↔ Apart rest := by
  simp [Follows]

@[simp] theorem follows_sign {c : Char} {hc : Plain.isSign c} {rest : List Piece} :
    Follows (.sign c hc :: rest) ↔ Apart rest := by
  simp [Follows]

theorem apart_of_staysOpen {p : Piece} {rest : List Piece} (h : Follows rest) :
    Apart (p :: rest) :=
  apart_cons.2 ⟨fun _ => h.1, h.2⟩

theorem follows_defaultPieces (hasDefault : Bool) {rest : List Piece} (h : Follows rest) :
    Follows (defaultPieces hasDefault ++ rest) := by
  cases hasDefault
  · exact h
  · have hone : Apart (.one :: rest) := apart_of_staysOpen h
    simpa [defaultPieces] using hone

/-- A comma in front of what is still to come, if anything is. -/
theorem follows_comma {α : Type} {more : List α} {rest : List Piece}
    (hend : more = [] → Follows rest) (hrest : Apart rest) :
    Follows (between [.sign ',', .blank] more ++ rest) := by
  cases more with
  | nil => exact hend rfl
  | cons a more => simpa [between] using hrest

theorem apart_between {α : Type} (more : List α) {rest : List Piece} (h : Apart rest) :
    Apart (between [.blank] more ++ rest) := by
  cases more with
  | nil => exact h
  | cons a more => simpa [between] using h

-- Induction on the trees, with what follows them: a name at the end of a target is closed
-- by what comes behind the target, and so on outwards.

mutual

theorem Target.apart :
    ∀ (t : Target) (rest : List Piece), Follows rest → Apart (t.pieces ++ rest)
  | .name n, rest, h => by
    rw [Target.pieces]
    exact apart_of_staysOpen h
  | .object entries, rest, h => by
    have hclose : Follows (.blank :: .sign '}' :: rest) := by
      simpa using h.2
    simpa [Target.pieces] using Entry.apartAll entries _ hclose
  | .array elements, rest, h => by
    have hclose : Follows (.sign ']' :: rest) := by simpa using h.2
    simpa [Target.pieces] using Element.apartAll elements _ hclose

theorem Entry.apart :
    ∀ (e : Entry) (rest : List Piece), Follows rest → Apart (e.pieces ++ rest)
  | .shorthand n hasDefault, rest, h => by
    rw [Entry.pieces]
    exact apart_of_staysOpen (follows_defaultPieces _ h)
  | .renamed key target hasDefault, rest, h => by
    have htarget := target.apart (defaultPieces hasDefault ++ rest) (follows_defaultPieces _ h)
    simpa [Entry.pieces] using htarget
  | .rest target, rest, h => by
    simpa [Entry.pieces] using target.apart rest h

theorem Entry.apartAll :
    ∀ (es : List Entry) (rest : List Piece), Follows rest → Apart (Entry.piecesAll es ++ rest)
  | [], rest, h => h.2
  | e :: more, rest, h => by
    have hmore := Entry.apartAll more rest h
    have hnext : Follows (between [.sign ',', .blank] more ++ (Entry.piecesAll more ++ rest)) :=
      follows_comma (by rintro rfl; exact h) hmore
    simpa [Entry.piecesAll] using e.apart _ hnext

theorem Element.apartAll :
    ∀ (es : List Element) (rest : List Piece), Follows rest →
      Apart (Element.piecesAll es ++ rest)
  | [], rest, h => h.2
  | .hole :: more, rest, h => by
    have hmore := apart_between more (Element.apartAll more rest h)
    simpa [Element.piecesAll] using hmore
  | .item target hasDefault :: more, rest, h => by
    have hmore := Element.apartAll more rest h
    have hnext : Follows
        (between [.sign ',', .blank] more ++ (Element.piecesAll more ++ rest)) :=
      follows_comma (by rintro rfl; exact h) hmore
    have htarget := target.apart _ (follows_defaultPieces hasDefault hnext)
    simpa [Element.piecesAll] using htarget
  | .rest target :: more, rest, h => by
    have hmore := Element.apartAll more rest h
    have hnext : Follows
        (between [.sign ',', .blank] more ++ (Element.piecesAll more ++ rest)) :=
      follows_comma (by rintro rfl; exact h) hmore
    simpa [Element.piecesAll] using target.apart _ hnext

end

mutual

/-- A declaration ends with a sign, so that anything may follow it. -/
theorem Statement.apart :
    ∀ (s : Statement) (rest : List Piece), Apart rest → Apart (s.pieces ++ rest)
  | .class n members, rest, h => by
    have hmembers := Member.apartAll members (.blank :: .sign '}' :: rest)
      (by simpa using h)
    simpa [Statement.pieces] using hmembers
  | .function n body, rest, h => by
    have hbody := Statement.apartAll body (.blank :: .sign '}' :: rest)
      (by simpa using h)
    simpa [Statement.pieces] using hbody
  | .variable b target, rest, h => by
    have htarget := target.apart (.blank :: .sign '=' :: .blank :: .one :: .sign ';' :: rest)
      (by simpa using h)
    simpa [Statement.pieces] using htarget

theorem Statement.apartAll :
    ∀ (ss : List Statement) (rest : List Piece), Apart rest →
      Apart (Statement.piecesAll ss ++ rest)
  | [], rest, h => h
  | s :: more, rest, h => by
    have hmore := apart_between more (Statement.apartAll more rest h)
    simpa [Statement.piecesAll] using s.apart _ hmore

theorem Member.apart :
    ∀ (m : Member) (rest : List Piece), Apart rest → Apart (m.pieces ++ rest)
  | .method n body, rest, h => by
    have hbody := Statement.apartAll body (.blank :: .sign '}' :: rest)
      (by simpa using h)
    simpa [Member.pieces] using hbody
  | .field n, rest, h => by
    simpa [Member.pieces] using h

theorem Member.apartAll :
    ∀ (ms : List Member) (rest : List Piece), Apart rest → Apart (Member.piecesAll ms ++ rest)
  | [], rest, h => h
  | m :: more, rest, h => by
    have hmore := apart_between more (Member.apartAll more rest h)
    simpa [Member.piecesAll] using m.apart _ hmore

end

/-- **The tokens of a program.** Its text is taken apart into the tokens of its pieces,
and no line ends between them. -/
theorem tokens?_textOf (program : List Statement) :
    ∃ ts, Plain.tokens? (textOf program).toList = some ts ∧
      Spells ts (forms (Statement.piecesAll program)) := by
  have hapart := Statement.apartAll program [] apart_nil
  rw [List.append_nil] at hapart
  rw [textOf, String.toList_ofList]
  exact tokens?_of_apart hapart

end ScriptInventory.Canonical
