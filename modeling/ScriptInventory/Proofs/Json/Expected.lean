import ScriptInventory.Json.Read
import ScriptInventory.Proofs.Json.Signs

/-!
# Which documents a reader accepts

A kind says which documents stand for which values. `Reads read kind d` says that on the texts
of a document a reader does what a kind asks for: it gives a value of the document and takes
just the document, and it fails if the document has none. There is one lemma for each sort of
reader: plain values, lists, objects with values of one sort, and variants.
-/

namespace ScriptInventory.Json

/-- Which documents stand for which values. -/
abbrev Kind (α : Type) := Document → α → Prop

/-- On the texts of a document, whatever follows them, a reader gives the values of a kind. -/
def Reads {α : Type} (read : Reader α) (kind : Kind α) (d : Document) : Prop :=
  ∀ (ls rest : List Lexeme) (finish : Spot), ls.map Lexeme.sign = d.signs →
    ∀ r, read ⟨ls ++ rest, finish⟩ = .ok r ↔ ∃ a, kind d a ∧ r = (a, ⟨rest, finish⟩)

/-! ## Results -/

section Results

variable {ε α β : Type}

theorem bind_eq_ok_iff {x : Except ε α} {f : α → Except ε β} {b : β} :
    x >>= f = .ok b ↔ ∃ a, x = .ok a ∧ f a = .ok b := by
  cases x <;> simp [bind, Except.bind]

theorem map_eq_ok_iff {x : Except ε α} {f : α → β} {b : β} :
    x.map f = .ok b ↔ ∃ a, x = .ok a ∧ f a = b := by
  cases x <;> simp [Except.map]

theorem onFailure_eq_ok_iff {f : Failure → Failure} {x : Except Failure α} {a : α} :
    onFailure f x = .ok a ↔ x = .ok a := by
  cases x <;> simp [onFailure]

/-- A result whose input is left behind. -/
theorem leave_eq_ok_iff {f : Failure → Failure} {inner : Except Failure (α × Input)}
    {leave : Input → Except Failure Input} {P : α → Prop} {i j : Input}
    (hinner : ∀ r, inner = .ok r ↔ ∃ a, P a ∧ r = (a, i)) (hleave : leave i = .ok j)
    (r : α × Input) :
    onFailure f (inner >>= fun p => leave p.2 >>= fun i => pure (p.1, i)) = .ok r ↔
      ∃ a, P a ∧ r = (a, j) := by
  rw [onFailure_eq_ok_iff, bind_eq_ok_iff]
  simp only [hinner]
  constructor
  · rintro ⟨_, ⟨a, ha, rfl⟩, hr⟩
    rw [hleave] at hr
    exact ⟨a, ha, (Except.ok.inj hr).symm⟩
  · rintro ⟨a, ha, rfl⟩
    exact ⟨_, ⟨a, ha, rfl⟩, by rw [hleave]; rfl⟩

end Results

variable {α β : Type}

/-- What is made of what a reader gives. -/
theorem Reads.map {read : Reader α} {kind : Kind α} {d : Document} (h : Reads read kind d)
    (f : α → β) :
    Reads (fun i => (read i).map fun p => (f p.1, p.2)) (fun d b => ∃ a, kind d a ∧ f a = b)
      d := by
  intro ls rest finish hsigns r
  simp only [map_eq_ok_iff, h ls rest finish hsigns]
  constructor
  · rintro ⟨_, ⟨a, ha, rfl⟩, rfl⟩
    exact ⟨_, ⟨a, ha, rfl⟩, rfl⟩
  · rintro ⟨_, ⟨a, ha, rfl⟩, rfl⟩
    exact ⟨_, ⟨a, ha, rfl⟩, rfl⟩

/-- A kind may be said in other words. -/
theorem Reads.congr {read : Reader α} {kind kind' : Kind α} {d : Document}
    (h : Reads read kind d) (hkind : ∀ a, kind d a ↔ kind' d a) : Reads read kind' d := by
  intro ls rest finish hsigns r
  simp only [h ls rest finish hsigns, hkind]

/-! ## First lexemes -/

/-- What the first sign of a document may be. -/
def Sign.IsStart : Sign → Prop
  | .closeBrace | .closeBracket | .comma | .colon | .unsound => False
  | _ => True

/-- Whether a sign is all of a document that starts with it. -/
def Sign.IsPlain : Sign → Prop
  | .openBrace | .openBracket => False
  | _ => True

/-- The tokens of the signs that show all of a token. -/
def Sign.token? : Sign → Option Token
  | .openBrace => some .openBrace
  | .openBracket => some .openBracket
  | .null => some .null
  | .bool b => some (.bool b)
  | .natural n => some (.number (.ok (.natural n)))
  | .string s => some (.string (.ok s))
  | _ => none

/-- The sign of a number. -/
theorem Document.signs_number (w : Written) :
    (∃ n, w.natural? = some n ∧ (Document.number w).signs = [.natural n]) ∨
      w.natural? = none ∧ (Document.number w).signs = [.otherNumber] := by
  cases h : w.natural? with
  | some n => exact .inl ⟨n, rfl, by rw [Document.signs, h]; rfl⟩
  | none => exact .inr ⟨rfl, by rw [Document.signs, h]; rfl⟩

/-- A document starts with a value, and a plain value is all of it. -/
theorem Document.exists_signs (d : Document) :
    ∃ sign more, d.signs = sign :: more ∧ sign.IsStart ∧ (sign.IsPlain → more = []) := by
  cases d with
  | number w =>
    obtain ⟨n, -, h⟩ | ⟨-, h⟩ := Document.signs_number w <;>
    · exact ⟨_, [], h, by simp [Sign.IsStart], fun _ => rfl⟩
  | array items =>
    exact ⟨_, _, by rw [Document.signs], by simp [Sign.IsStart], by simp [Sign.IsPlain]⟩
  | object members =>
    exact ⟨_, _, by rw [Document.signs], by simp [Sign.IsStart], by simp [Sign.IsPlain]⟩
  | _ => exact ⟨_, [], by rw [Document.signs], by simp [Sign.IsStart], fun _ => rfl⟩

theorem exists_lexeme_of_map {ls : List Lexeme} {sign : Sign} {more : List Sign}
    (h : ls.map Lexeme.sign = sign :: more) :
    ∃ l rest, ls = l :: rest ∧ l.sign = sign ∧ rest.map Lexeme.sign = more := by
  obtain ⟨l, rest, rfl, hl, hrest⟩ := List.map_eq_cons_iff.1 h
  exact ⟨l, rest, rfl, hl, hrest⟩

/-- The first lexeme of a document. -/
theorem Document.exists_lexeme {d : Document} {ls : List Lexeme}
    (h : ls.map Lexeme.sign = d.signs) :
    ∃ l more, ls = l :: more ∧ l.sign.IsStart ∧ d.signs = l.sign :: more.map Lexeme.sign ∧
      (l.sign.IsPlain → more = []) := by
  obtain ⟨sign, signs, hd, hstart, hplain⟩ := d.exists_signs
  obtain ⟨l, more, rfl, rfl, rfl⟩ := exists_lexeme_of_map (h.trans hd)
  exact ⟨l, more, rfl, hstart, h.symm, fun hsome => List.map_eq_nil_iff.1 (hplain hsome)⟩

/-- Nothing that starts a value is a mark that stands between or behind values. -/
theorem Lexeme.token_ne_of_isStart {l : Lexeme} (h : l.sign.IsStart) :
    l.token ≠ .closeBrace ∧ l.token ≠ .closeBracket ∧ l.token ≠ .comma ∧ l.token ≠ .colon := by
  refine ⟨?_, ?_, ?_, ?_⟩ <;>
  · intro ht
    simp [Lexeme.sign, ht, Sign.IsStart] at h

/-- The lexeme that starts a value has a token if and only if it has the sign of it. -/
theorem Lexeme.token_iff {l : Lexeme} (h : l.sign.IsStart) (sign : Sign) {t : Token}
    (ht : sign.token? = some t) : l.token = t ↔ l.sign = sign := by
  constructor
  · intro hl
    cases sign <;> cases ht <;>
    · cases hs : l.skipped <;> simp_all [Lexeme.sign, Sign.IsStart]
  · intro hl
    have hdescribes := l.describes hl
    cases sign <;> cases ht <;> exact hdescribes.1

/-! ## Plain values -/

/-- A reader that takes a token and nothing else. -/
theorem reads_of_token {read : Reader α} {kind : Kind α} (sign : α → Sign) (token : α → Token)
    (hsign : ∀ a, (sign a).token? = some (token a)) (hplain : ∀ a, (sign a).IsPlain)
    (hread : ∀ l rest finish r,
      read ⟨l :: rest, finish⟩ = .ok r ↔ ∃ a, l.token = token a ∧ r = (a, ⟨rest, finish⟩))
    {d : Document} (hkind : ∀ a, kind d a ↔ d.signs = [sign a]) : Reads read kind d := by
  intro ls rest finish hsigns r
  obtain ⟨l, more, rfl, hstart, hd, hone⟩ := Document.exists_lexeme hsigns
  rw [List.cons_append, hread]
  have hmore : ∀ a, l.sign = sign a → more = [] := fun a ha => hone (ha ▸ hplain a)
  constructor
  · rintro ⟨a, ha, rfl⟩
    have ha := (Lexeme.token_iff hstart _ (hsign a)).1 ha
    obtain rfl := hmore a ha
    exact ⟨a, (hkind a).2 (by rw [hd, ha]; rfl), rfl⟩
  · rintro ⟨a, ha, rfl⟩
    have ha := (List.cons.inj (hd.symm.trans ((hkind a).1 ha))).1
    obtain rfl := hmore a ha
    exact ⟨a, (Lexeme.token_iff hstart _ (hsign a)).2 ha, rfl⟩

theorem Document.signs_eq_string {d : Document} {s : String} {more : List Sign} :
    d.signs = .string s :: more ↔ d = .string s ∧ more = [] := by
  cases d with
  | number w => obtain ⟨n, -, h⟩ | ⟨-, h⟩ := Document.signs_number w <;> simp [h]
  | _ => simp [Document.signs, eq_comm]

theorem Document.signs_eq_null {d : Document} {more : List Sign} :
    d.signs = .null :: more ↔ d = .null ∧ more = [] := by
  cases d with
  | number w => obtain ⟨n, -, h⟩ | ⟨-, h⟩ := Document.signs_number w <;> simp [h]
  | _ => simp [Document.signs, eq_comm]

def IsText : Kind String := fun d s => d = .string s

theorem reads_text (d : Document) : Reads readText IsText d := by
  apply reads_of_token .string (fun s => .string (.ok s)) (fun _ => rfl) (fun _ => trivial)
  · intro l rest finish r
    simp only [readText, readString, Input.token?, List.head?_cons, Option.map_some, Input.eat,
      List.drop_succ_cons, List.drop_zero]
    split <;> simp_all [eq_comm]
  · simp [IsText, Document.signs_eq_string]

def IsBool : Kind Bool := fun d b => d = .bool b

theorem reads_bool (d : Document) : Reads readBool IsBool d := by
  apply reads_of_token .bool .bool (fun _ => rfl) (fun _ => trivial)
  · intro l rest finish r
    simp only [readBool, Input.token?, List.head?_cons, Option.map_some, Input.eat,
      List.drop_succ_cons, List.drop_zero]
    split <;> simp_all [eq_comm]
  · intro s
    cases d with
    | number w => obtain ⟨n, -, h⟩ | ⟨-, h⟩ := Document.signs_number w <;> simp [IsBool, h]
    | _ => simp [IsBool, Document.signs]

/-- Natural numbers of at most 64 bits. -/
def IsNatural : Kind Nat := fun d n => ∃ w, d = .number w ∧ w.natural? = some n

theorem reads_natural (d : Document) : Reads readNatural IsNatural d := by
  apply reads_of_token .natural (fun n => .number (.ok (.natural n))) (fun _ => rfl)
    (fun _ => trivial)
  · intro l rest finish r
    simp only [readNatural, Input.token?, List.head?_cons, Option.map_some, Input.eat,
      List.drop_succ_cons, List.drop_zero]
    split <;> simp_all [eq_comm]
  · intro s
    cases d with
    | number w =>
      obtain ⟨n, hn, h⟩ | ⟨hn, h⟩ := Document.signs_number w <;> simp [IsNatural, hn, h]
    | _ => simp [IsNatural, Document.signs]

/-- Nothing but `null`. -/
def IsNothing : Kind Unit := fun d _ => d = .null

theorem reads_nothing (d : Document) : Reads readNothing IsNothing d := by
  apply reads_of_token (fun _ => .null) (fun _ => .null) (fun _ => rfl) (fun _ => trivial)
  · intro l rest finish r
    simp only [readNothing, Input.token?, List.head?_cons, Option.map_some, Input.eat,
      List.drop_succ_cons, List.drop_zero]
    split <;> simp_all [eq_comm, Unique.exists_iff]
  · simp [IsNothing, Document.signs_eq_null]

/-- `null`, or documents of a kind. -/
def IsOptional (kind : Kind α) : Kind (Option α) := fun d a? =>
  d = .null ∧ a? = none ∨ d ≠ .null ∧ ∃ a, kind d a ∧ a? = some a

theorem reads_optional {read : Reader α} {kind : Kind α} {d : Document}
    (h : Reads read kind d) : Reads (readOptional read) (IsOptional kind) d := by
  intro ls rest finish hsigns r
  obtain ⟨l, more, rfl, hstart, hd, hplain⟩ := Document.exists_lexeme hsigns
  have hnull : l.token = .null ↔ d = .null := by
    rw [Lexeme.token_iff hstart .null rfl]
    constructor
    · intro hl
      rw [hl] at hd
      exact (Document.signs_eq_null.1 hd).1
    · rintro rfl
      exact (List.cons.inj hd).1.symm
  by_cases heq : d = .null
  · have hl := hnull.2 heq
    obtain rfl : more = [] := hplain (by
      rw [(Lexeme.token_iff hstart .null rfl).1 hl]
      trivial)
    simp [readOptional, Input.token?, Input.eat, hl, heq, IsOptional, eq_comm (a := r)]
  · have hl : l.token ≠ .null := fun hl => heq (hnull.1 hl)
    have hread : readOptional read ⟨l :: more ++ rest, finish⟩ =
        (read ⟨l :: more ++ rest, finish⟩).map fun p => (some p.1, p.2) := by
      simp only [readOptional, Input.token?, List.cons_append, List.head?_cons, Option.map_some]
      split
      · next htoken => exact absurd (Option.some.inj htoken) hl
      · rfl
    rw [hread, h.map some _ _ _ hsigns]
    simp [IsOptional, heq, eq_comm]

/-! ## Lists -/

/-- What is between two values: a comma, unless the second is the first of its list. -/
def IsGap (first : Bool) (ls : List Lexeme) : Prop :=
  ls.map Lexeme.sign = if first then [] else [.comma]

/-- In front of an item, the next item is found. -/
theorem nextItem?_of_isGap {first : Bool} {gap ls : List Lexeme} (hgap : IsGap first gap)
    {d : Document} (hsigns : ls.map Lexeme.sign = d.signs) (rest : List Lexeme)
    (finish : Spot) :
    nextItem? first ⟨gap ++ (ls ++ rest), finish⟩ = .ok (some ⟨ls ++ rest, finish⟩) := by
  obtain ⟨l, more, rfl, hstart, -, -⟩ := Document.exists_lexeme hsigns
  obtain ⟨-, hclose, hcomma, -⟩ := Lexeme.token_ne_of_isStart hstart
  cases first with
  | true =>
    obtain rfl := List.map_eq_nil_iff.1 hgap
    simp only [nextItem?, Input.token?, List.nil_append, List.cons_append, List.head?_cons,
      Option.map_some]
    split <;> simp_all
  | false =>
    obtain ⟨c, none, rfl, hc, hnone⟩ := exists_lexeme_of_map hgap
    obtain rfl := List.map_eq_nil_iff.1 hnone
    have hc : c.token = .comma := Lexeme.describes hc
    simp only [nextItem?, Input.token?, Input.eat, List.nil_append, List.cons_append,
      List.head?_cons, Option.map_some, hc, List.drop_succ_cons, List.drop_zero]
    split <;> simp_all

/-- At the end of a list there is no next item. -/
theorem nextItem?_close {l : Lexeme} (hl : l.sign = .closeBracket) (first : Bool)
    (rest : List Lexeme) (finish : Spot) : nextItem? first ⟨l :: rest, finish⟩ = .ok none := by
  have ht : l.token = .closeBracket := Lexeme.describes hl
  simp only [nextItem?, Input.token?, List.head?_cons, Option.map_some, ht]

/-- The first item of some, and the others. -/
theorem exists_itemLexemes {first : Bool} {d : Document} {items : List Document}
    {ls : List Lexeme} (h : ls.map Lexeme.sign = itemSigns first (d :: items)) :
    ∃ gap own more, ls = gap ++ (own ++ more) ∧ IsGap first gap ∧
      own.map Lexeme.sign = d.signs ∧ more.map Lexeme.sign = itemSigns false items := by
  rw [itemSigns.eq_def] at h
  obtain ⟨gap, behind, rfl, hgap, hbehind⟩ := List.map_eq_append_iff.1 h
  obtain ⟨own, more, rfl, hown, hmore⟩ := List.map_eq_append_iff.1 hbehind
  exact ⟨gap, own, more, rfl, hgap, hown, hmore⟩

def IsList (kind : Kind α) : Kind (List α) := fun d as =>
  ∃ items, d = .array items ∧ List.Forall₂ kind items as

/-- The lists of items that are each written in one way. -/
theorem isList_eq_iff {write : α → Document} {d : Document} {as : List α} :
    IsList (fun d a => d = write a) d as ↔ d = .array (as.map write) := by
  have hmap : ∀ items, List.Forall₂ (fun d a => d = write a) items as ↔ items = as.map write := by
    intro items
    rw [← List.forall₂_map_right_iff (R := Eq), List.forall₂_eq_eq_eq]
  simp only [IsList, hmap, exists_eq_right]

/-- The items of a list, up to its closing bracket. -/
theorem readItems_eq_ok_iff {read : Reader α} {kind : Kind α} {items : List Document}
    (h : ∀ d ∈ items, Reads read kind d) {first : Bool} {ls : List Lexeme}
    (hsigns : ls.map Lexeme.sign = itemSigns first items) {close : Lexeme}
    (hclose : close.sign = .closeBracket) {fuel : Nat} (hfuel : ls.length < fuel)
    (found : List α) (rest : List Lexeme) (finish : Spot) (r : List α × Input) :
    readItems read fuel first found ⟨ls ++ close :: rest, finish⟩ = .ok r ↔
      ∃ as, List.Forall₂ kind items as ∧ r = (found.reverse ++ as, ⟨close :: rest, finish⟩) := by
  induction items generalizing first ls fuel found with
  | nil =>
    obtain ⟨fuel, rfl⟩ : ∃ k, fuel = k + 1 := ⟨fuel - 1, by omega⟩
    rw [itemSigns.eq_def] at hsigns
    obtain rfl := List.map_eq_nil_iff.1 hsigns
    simp [readItems, nextItem?_close hclose, bind, Except.bind, pure, Except.pure, eq_comm]
  | cons d items ih =>
    obtain ⟨fuel, rfl⟩ : ∃ k, fuel = k + 1 := ⟨fuel - 1, by omega⟩
    obtain ⟨hd, hitems⟩ := List.forall_mem_cons.1 h
    obtain ⟨gap, own, more, rfl, hgap, hown, hmore⟩ := exists_itemLexemes hsigns
    obtain ⟨l, tail, hl, -, -, -⟩ := Document.exists_lexeme hown
    have hlength : more.length < fuel := by
      rw [hl] at hfuel
      simp only [List.length_append, List.length_cons] at hfuel
      omega
    have hrest := fun a => ih hitems hmore hlength (a :: found)
    simp only [readItems, List.append_assoc, bind_eq_ok_iff, nextItem?_of_isGap hgap hown,
      Except.ok.injEq, exists_eq_left', hd own _ finish hown]
    constructor
    · rintro ⟨_, ⟨a, ha, rfl⟩, hr⟩
      obtain ⟨as, has, rfl⟩ := (hrest a).1 hr
      exact ⟨a :: as, .cons ha has, by simp⟩
    · rintro ⟨_, hcons, rfl⟩
      obtain ⟨a, as, ha, has, rfl⟩ := List.forall₂_cons_left_iff.1 hcons
      exact ⟨_, ⟨a, ha, rfl⟩, (hrest a).2 ⟨as, has, by simp⟩⟩

theorem endList_close {l : Lexeme} (hl : l.sign = .closeBracket) (rest : List Lexeme)
    (finish : Spot) : endList ⟨l :: rest, finish⟩ = .ok ⟨rest, finish⟩ := by
  have ht : l.token = .closeBracket := Lexeme.describes hl
  simp only [endList, Input.token?, List.head?_cons, Option.map_some, ht, Input.eat,
    List.drop_succ_cons, List.drop_zero]

/-- A bracket opens a list. -/
theorem token_eq_openBracket_iff {d : Document} {l : Lexeme} {more : List Sign}
    (hstart : l.sign.IsStart) (h : d.signs = l.sign :: more) :
    l.token = .openBracket ↔ ∃ items, d = .array items := by
  rw [Lexeme.token_iff hstart .openBracket rfl]
  constructor
  · intro hl
    cases d with
    | array items => exact ⟨items, rfl⟩
    | number w => obtain ⟨n, -, hw⟩ | ⟨-, hw⟩ := Document.signs_number w <;> simp_all
    | _ => simp_all [Document.signs]
  · rintro ⟨items, rfl⟩
    rw [Document.signs] at h
    exact (List.cons.inj h).1.symm

/-- A brace opens an object. -/
theorem token_eq_openBrace_iff {d : Document} {l : Lexeme} {more : List Sign}
    (hstart : l.sign.IsStart) (h : d.signs = l.sign :: more) :
    l.token = .openBrace ↔ ∃ members, d = .object members := by
  rw [Lexeme.token_iff hstart .openBrace rfl]
  constructor
  · intro hl
    cases d with
    | object members => exact ⟨members, rfl⟩
    | number w => obtain ⟨n, -, hw⟩ | ⟨-, hw⟩ := Document.signs_number w <;> simp_all
    | _ => simp_all [Document.signs]
  · rintro ⟨members, rfl⟩
    rw [Document.signs] at h
    exact (List.cons.inj h).1.symm

/-- What stands between the marks around a list or an object. -/
theorem exists_enclosed {ls : List Lexeme} {opening closing : Sign} {signs : List Sign}
    (h : ls.map Lexeme.sign = opening :: (signs ++ [closing])) :
    ∃ o body c, ls = o :: (body ++ [c]) ∧ o.sign = opening ∧ body.map Lexeme.sign = signs ∧
      c.sign = closing := by
  obtain ⟨o, behind, rfl, ho, hbehind⟩ := exists_lexeme_of_map h
  obtain ⟨body, last, rfl, hbody, hlast⟩ := List.map_eq_append_iff.1 hbehind
  obtain ⟨c, none, rfl, hc, hnone⟩ := exists_lexeme_of_map hlast
  obtain rfl := List.map_eq_nil_iff.1 hnone
  exact ⟨o, body, c, rfl, ho, hbody, hc⟩

theorem reads_list {read : Reader α} {kind : Kind α} {d : Document}
    (h : ∀ items, d = .array items → ∀ item ∈ items, Reads read kind item) :
    Reads (readList read) (IsList kind) d := by
  intro ls rest finish hsigns r
  by_cases hd : ∃ items, d = .array items
  · obtain ⟨items, rfl⟩ := hd
    rw [Document.signs] at hsigns
    obtain ⟨o, body, c, rfl, ho, hbody, hc⟩ := exists_enclosed hsigns
    have hopen : o.token = .openBracket := (Lexeme.describes ho).1
    have hfuel : body.length < (o :: (body ++ [c] ++ rest)).length + 1 := by
      simp only [List.length_append, List.length_cons]
      omega
    have hread := readItems_eq_ok_iff (h items rfl) hbody hc hfuel [] rest finish
    have heq : readList read ⟨o :: (body ++ [c] ++ rest), finish⟩ = onFailure Failure.inList
        (readItems read ((o :: (body ++ [c] ++ rest)).length + 1) true []
          ⟨body ++ c :: rest, finish⟩ >>= fun p => endList p.2 >>= fun i => pure (p.1, i)) := by
      simp only [readList, Input.token?, List.head?_cons, Option.map_some, hopen, Input.eat,
        List.drop_succ_cons, List.drop_zero, List.append_assoc, List.singleton_append]
    rw [List.cons_append, heq, leave_eq_ok_iff hread (endList_close hc rest finish)]
    simp only [IsList, Document.array.injEq, exists_eq_left']
  · obtain ⟨l, more, rfl, hstart, hsigns', -⟩ := Document.exists_lexeme hsigns
    have hl : l.token ≠ .openBracket := fun hl =>
      hd ((token_eq_openBracket_iff hstart hsigns').1 hl)
    simp only [readList, Input.token?, List.cons_append, List.head?_cons, Option.map_some]
    split
    · simp_all
    · next heq => exact absurd (Option.some.inj heq) hl
    · simp only [reduceCtorEq, false_iff]
      rintro ⟨as, ⟨items, rfl, -⟩, -⟩
      exact hd ⟨items, rfl⟩

/-! ## Objects -/

/-- In front of a member, its key is found. -/
theorem nextKey?_of_isGap {first : Bool} {gap : List Lexeme} (hgap : IsGap first gap)
    {l : Lexeme} {key : String} (hl : l.sign = .string key) (rest : List Lexeme)
    (finish : Spot) :
    nextKey? first ⟨gap ++ l :: rest, finish⟩ = .ok (some (key, ⟨rest, finish⟩)) := by
  have ht : l.token = .string (.ok key) := (Lexeme.describes hl).1
  cases first with
  | true =>
    obtain rfl := List.map_eq_nil_iff.1 hgap
    simp [nextKey?, Input.token?, Input.eat, ht]
  | false =>
    obtain ⟨c, none, rfl, hc, hnone⟩ := exists_lexeme_of_map hgap
    obtain rfl := List.map_eq_nil_iff.1 hnone
    have hc : c.token = .comma := Lexeme.describes hc
    simp [nextKey?, Input.token?, Input.eat, hc, ht]

/-- At the end of an object there is no next key. -/
theorem nextKey?_close {l : Lexeme} (hl : l.sign = .closeBrace) (first : Bool)
    (rest : List Lexeme) (finish : Spot) : nextKey? first ⟨l :: rest, finish⟩ = .ok none := by
  have ht : l.token = .closeBrace := Lexeme.describes hl
  simp only [nextKey?, Input.token?, List.head?_cons, Option.map_some, ht]

theorem readColon_cons {l : Lexeme} (hl : l.sign = .colon) (rest : List Lexeme)
    (finish : Spot) : readColon ⟨l :: rest, finish⟩ = .ok ⟨rest, finish⟩ := by
  have ht : l.token = .colon := Lexeme.describes hl
  simp only [readColon, Input.token?, List.head?_cons, Option.map_some, ht, Input.eat,
    List.drop_succ_cons, List.drop_zero]

theorem endObject_close {l : Lexeme} (hl : l.sign = .closeBrace) (rest : List Lexeme)
    (finish : Spot) : endObject ⟨l :: rest, finish⟩ = .ok ⟨rest, finish⟩ := by
  have ht : l.token = .closeBrace := Lexeme.describes hl
  simp only [endObject, Input.token?, List.head?_cons, Option.map_some, ht, Input.eat,
    List.drop_succ_cons, List.drop_zero]

/-- The first member of some, and the others. -/
theorem exists_memberLexemes {first : Bool} {key : String} {d : Document}
    {members : List (String × Document)} {ls : List Lexeme}
    (h : ls.map Lexeme.sign = memberSigns first ((key, d) :: members)) :
    ∃ gap k colon own more, ls = gap ++ k :: colon :: (own ++ more) ∧ IsGap first gap ∧
      k.sign = .string key ∧ colon.sign = .colon ∧ own.map Lexeme.sign = d.signs ∧
      more.map Lexeme.sign = memberSigns false members := by
  rw [memberSigns.eq_def] at h
  obtain ⟨gap, behind, rfl, hgap, hbehind⟩ := List.map_eq_append_iff.1 h
  obtain ⟨k, tail, rfl, hk, htail⟩ := exists_lexeme_of_map hbehind
  obtain ⟨colon, values, rfl, hcolon, hvalues⟩ := exists_lexeme_of_map htail
  obtain ⟨own, more, rfl, hown, hmore⟩ := List.map_eq_append_iff.1 hvalues
  exact ⟨gap, k, colon, own, more, rfl, hgap, hk, hcolon, hown, hmore⟩

/-- Objects whose values are of a kind. -/
def IsMap (kind : Kind α) : Kind (List (String × α)) := fun d entries =>
  ∃ members, d = .object members ∧
    List.Forall₂ (fun m e => m.1 = e.1 ∧ kind m.2 e.2) members entries

/-- The members of an object, up to its closing brace. -/
theorem readEntries_eq_ok_iff {read : Reader α} {kind : Kind α}
    {members : List (String × Document)} (h : ∀ m ∈ members, Reads read kind m.2)
    {first : Bool} {ls : List Lexeme} (hsigns : ls.map Lexeme.sign = memberSigns first members)
    {close : Lexeme} (hclose : close.sign = .closeBrace) {fuel : Nat} (hfuel : ls.length < fuel)
    (found : List (String × α)) (rest : List Lexeme) (finish : Spot)
    (r : List (String × α) × Input) :
    readEntries read fuel first found ⟨ls ++ close :: rest, finish⟩ = .ok r ↔
      ∃ entries, List.Forall₂ (fun m e => m.1 = e.1 ∧ kind m.2 e.2) members entries ∧
        r = (found.reverse ++ entries, ⟨close :: rest, finish⟩) := by
  induction members generalizing first ls fuel found with
  | nil =>
    obtain ⟨fuel, rfl⟩ : ∃ k, fuel = k + 1 := ⟨fuel - 1, by omega⟩
    rw [memberSigns.eq_def] at hsigns
    obtain rfl := List.map_eq_nil_iff.1 hsigns
    simp [readEntries, nextKey?_close hclose, bind, Except.bind, pure, Except.pure, eq_comm]
  | cons m members ih =>
    obtain ⟨fuel, rfl⟩ : ∃ k, fuel = k + 1 := ⟨fuel - 1, by omega⟩
    obtain ⟨hm, hmembers⟩ := List.forall_mem_cons.1 h
    obtain ⟨gap, k, colon, own, more, rfl, hgap, hk, hcolon, hown, hmore⟩ :=
      exists_memberLexemes hsigns
    have hlength : more.length < fuel := by
      simp only [List.length_append, List.length_cons] at hfuel
      omega
    have hrest := fun a => ih hmembers hmore hlength ((m.1, a) :: found)
    simp only [readEntries, List.append_assoc, List.cons_append, bind_eq_ok_iff,
      nextKey?_of_isGap hgap hk, readColon_cons hcolon, Except.ok.injEq, exists_eq_left',
      hm own _ finish hown]
    constructor
    · rintro ⟨_, ⟨a, ha, rfl⟩, hr⟩
      obtain ⟨entries, hentries, rfl⟩ := (hrest a).1 hr
      exact ⟨(m.1, a) :: entries, .cons ⟨rfl, ha⟩ hentries, by simp⟩
    · rintro ⟨_, hcons, rfl⟩
      obtain ⟨⟨key, a⟩, entries, ⟨rfl, ha⟩, hentries, rfl⟩ := List.forall₂_cons_left_iff.1 hcons
      exact ⟨_, ⟨a, ha, rfl⟩, (hrest a).2 ⟨entries, hentries, by simp⟩⟩

theorem reads_map {read : Reader α} {kind : Kind α} {d : Document}
    (h : ∀ members, d = .object members → ∀ m ∈ members, Reads read kind m.2) :
    Reads (readMap read) (IsMap kind) d := by
  intro ls rest finish hsigns r
  by_cases hd : ∃ members, d = .object members
  · obtain ⟨members, rfl⟩ := hd
    rw [Document.signs] at hsigns
    obtain ⟨o, body, c, rfl, ho, hbody, hc⟩ := exists_enclosed hsigns
    have hopen : o.token = .openBrace := (Lexeme.describes ho).1
    have hfuel : body.length < (o :: (body ++ [c] ++ rest)).length + 1 := by
      simp only [List.length_append, List.length_cons]
      omega
    have hread := readEntries_eq_ok_iff (h members rfl) hbody hc hfuel [] rest finish
    have heq : readMap read ⟨o :: (body ++ [c] ++ rest), finish⟩ = onFailure Failure.inObject
        (readEntries read ((o :: (body ++ [c] ++ rest)).length + 1) true []
          ⟨body ++ c :: rest, finish⟩ >>=
            fun p => endObject p.2 >>= fun i => pure (p.1, i)) := by
      simp only [readMap, Input.token?, List.head?_cons, Option.map_some, hopen, Input.eat,
        List.drop_succ_cons, List.drop_zero, List.append_assoc, List.singleton_append]
    rw [List.cons_append, heq, leave_eq_ok_iff hread (endObject_close hc rest finish)]
    simp only [IsMap, Document.object.injEq, exists_eq_left']
  · obtain ⟨l, more, rfl, hstart, hsigns', -⟩ := Document.exists_lexeme hsigns
    have hl : l.token ≠ .openBrace := fun hl =>
      hd ((token_eq_openBrace_iff hstart hsigns').1 hl)
    simp only [readMap, Input.token?, List.cons_append, List.head?_cons, Option.map_some]
    split
    · simp_all
    · next heq => exact absurd (Option.some.inj heq) hl
    · simp only [reduceCtorEq, false_iff]
      rintro ⟨as, ⟨members, rfl, -⟩, -⟩
      exact hd ⟨members, rfl⟩

/-! ## Variants -/

/-- The name of a variant that stands alone, or an object whose one member has the name of a
variant and content of its kind. -/
def IsVariant (variants : List (Variant α)) (kind : String → Kind α) : Kind α := fun d a =>
  (∃ name v, d = .string name ∧ variants.find? (fun v => v.name = name) = some v ∧
    v.alone = .ok a) ∨
  ∃ name content v, d = .object [(name, content)] ∧
    variants.find? (fun v => v.name = name) = some v ∧ kind name content a

/-- A name is read as that of a variant. -/
theorem readVariantName_eq_ok_iff {variants : List (Variant α)} {l : Lexeme} {name : String}
    (hl : l.sign = .string name) (rest : List Lexeme) (finish : Spot) (r : Variant α × Input) :
    readVariantName variants ⟨l :: rest, finish⟩ = .ok r ↔
      ∃ v, variants.find? (fun v => v.name = name) = some v ∧ r = (v, ⟨rest, finish⟩) := by
  have ht : l.token = .string (.ok name) := (Lexeme.describes hl).1
  have hname : readString "variant identifier" ⟨l :: rest, finish⟩ =
      .ok (name, ⟨rest, finish⟩) := by
    simp only [readString, Input.token?, List.head?_cons, Option.map_some, ht, Input.eat,
      List.drop_succ_cons, List.drop_zero]
  rw [readVariantName, hname]
  cases h : variants.find? fun v => v.name = name <;>
    simp [bind, Except.bind, pure, Except.pure, h, eq_comm (a := r)]

/-- The name of a variant and its content. -/
theorem readVariantName_bind_eq_ok_iff {variants : List (Variant α)} {kind : String → Kind α}
    (h : ∀ v ∈ variants, ∀ content, Reads v.withContent (kind v.name) content)
    {k colon : Lexeme} {name : String} (hk : k.sign = .string name)
    (hcolon : colon.sign = .colon) {own : List Lexeme} {content : Document}
    (hown : own.map Lexeme.sign = content.signs) (tail : List Lexeme) (finish : Spot)
    (f : α × Input → Except Failure β) (r : β) :
    (readVariantName variants ⟨k :: colon :: (own ++ tail), finish⟩ >>= fun p =>
      readColon p.2 >>= fun i => p.1.withContent i >>= f) = .ok r ↔
      ∃ a, IsVariant variants kind (.object [(name, content)]) a ∧
        f (a, ⟨tail, finish⟩) = .ok r := by
  simp only [bind_eq_ok_iff, readVariantName_eq_ok_iff hk, IsVariant, reduceCtorEq, false_and,
    exists_false, false_or, Document.object.injEq, List.cons.injEq, Prod.mk.injEq, and_true]
  constructor
  · rintro ⟨_, ⟨v, hv, rfl⟩, _, hi, _, hread, hr⟩
    rw [readColon_cons hcolon] at hi
    obtain rfl := Except.ok.inj hi
    obtain ⟨a, ha, rfl⟩ := (h v (List.mem_of_find?_eq_some hv) content own tail finish hown _).1
      hread
    have hname : v.name = name := by simpa using List.find?_some hv
    exact ⟨a, ⟨name, content, v, ⟨rfl, rfl⟩, hv, hname ▸ ha⟩, hr⟩
  · rintro ⟨a, ⟨_, _, v, ⟨rfl, rfl⟩, hv, ha⟩, hr⟩
    have hname : v.name = name := by simpa using List.find?_some hv
    exact ⟨_, ⟨v, hv, rfl⟩, _, readColon_cons hcolon _ _, _,
      (h v (List.mem_of_find?_eq_some hv) content own tail finish hown _).2
        ⟨a, hname ▸ ha, rfl⟩, hr⟩

/-- A name alone is read as a variant without content. -/
theorem reads_variant_string {variants : List (Variant α)} (kind : String → Kind α)
    (name : String) : Reads (readVariant variants) (IsVariant variants kind) (.string name) := by
  intro ls rest finish hsigns r
  obtain ⟨l, none, rfl, hl, hnone⟩ := exists_lexeme_of_map hsigns
  obtain rfl := List.map_eq_nil_iff.1 hnone
  have ht : l.token = .string (.ok name) := (Lexeme.describes hl).1
  simp only [readVariant, Input.token?, List.cons_append, List.nil_append, List.head?_cons,
    Option.map_some, ht, bind_eq_ok_iff, readVariantName_eq_ok_iff hl, IsVariant,
    Document.string.injEq, exists_and_left, exists_eq_left', reduceCtorEq, false_and,
    exists_false, or_false]
  constructor
  · rintro ⟨_, ⟨v, hv, rfl⟩, hr⟩
    split at hr
    · next a ha => exact ⟨a, ⟨v, hv, ha⟩, (Except.ok.inj hr).symm⟩
    · cases hr
  · rintro ⟨a, ⟨v, hv, ha⟩, rfl⟩
    exact ⟨_, ⟨v, hv, rfl⟩, by simp only [ha]; rfl⟩

/-- An object is read as a variant with content if the content is its one member. -/
theorem reads_variant_object {variants : List (Variant α)} (kind : String → Kind α)
    (h : ∀ v ∈ variants, ∀ content, Reads v.withContent (kind v.name) content)
    (members : List (String × Document)) :
    Reads (readVariant variants) (IsVariant variants kind) (.object members) := by
  intro ls rest finish hsigns r
  rw [Document.signs] at hsigns
  obtain ⟨o, body, c, rfl, ho, hbody, hc⟩ := exists_enclosed hsigns
  have hopen : o.token = .openBrace := (Lexeme.describes ho).1
  have hclose : c.token = .closeBrace := Lexeme.describes hc
  simp only [readVariant, Input.token?, List.cons_append, List.head?_cons, Option.map_some,
    hopen, Input.eat, List.drop_succ_cons, List.drop_zero]
  cases members with
  | nil =>
    rw [memberSigns.eq_def] at hbody
    obtain rfl := List.map_eq_nil_iff.1 hbody
    simp [readVariantName, readString, Input.token?, hclose, bind, Except.bind, IsVariant]
  | cons m members =>
    obtain ⟨gap, k, colon, own, more, rfl, hgap, hk, hcolon, hown, hmore⟩ :=
      exists_memberLexemes hbody
    obtain rfl := List.map_eq_nil_iff.1 hgap
    simp only [List.nil_append, List.cons_append, List.append_assoc]
    rw [readVariantName_bind_eq_ok_iff h hk hcolon hown]
    -- behind the content stands the brace, or a comma if there are more members
    cases members with
    | nil =>
      rw [memberSigns.eq_def] at hmore
      obtain rfl := List.map_eq_nil_iff.1 hmore
      simp [hclose, pure, Except.pure, eq_comm (a := r)]
    | cons m' members =>
      obtain ⟨gap, -, -, -, -, rfl, hgap, -⟩ := exists_memberLexemes hmore
      obtain ⟨comma, -, rfl, hcomma, -⟩ := exists_lexeme_of_map hgap
      have hcomma : comma.token = .comma := Lexeme.describes hcomma
      simp [hcomma, IsVariant]

/-- Nothing else is read as a variant. -/
theorem reads_variant_other {variants : List (Variant α)} (kind : String → Kind α)
    {d : Document} (hstring : ∀ name, d ≠ .string name) (hobject : ∀ members, d ≠ .object members) :
    Reads (readVariant variants) (IsVariant variants kind) d := by
  intro ls rest finish hsigns r
  obtain ⟨l, more, rfl, hstart, hsigns', -⟩ := Document.exists_lexeme hsigns
  have hbrace : l.token ≠ .openBrace := fun ht => by
    obtain ⟨members, rfl⟩ := (token_eq_openBrace_iff hstart hsigns').1 ht
    exact hobject members rfl
  have hquoted : ∀ x, l.token ≠ .string x := by
    intro x ht
    cases x with
    | error f => simp [Lexeme.sign, ht, Sign.IsStart] at hstart
    | ok name =>
      rw [(Lexeme.token_iff hstart (.string name) rfl).1 ht] at hsigns'
      exact hstring name (Document.signs_eq_string.1 hsigns').1
  simp [readVariant, Input.token?, IsVariant, hstring, hobject]

/-- **A variant is read from its name, or from an object that holds its content.** -/
theorem reads_variant {variants : List (Variant α)} (kind : String → Kind α) {d : Document}
    (h : ∀ v ∈ variants, ∀ content, Reads v.withContent (kind v.name) content) :
    Reads (readVariant variants) (IsVariant variants kind) d := by
  cases d with
  | string name => exact reads_variant_string kind name
  | object members => exact reads_variant_object kind h members
  | _ => exact reads_variant_other kind nofun nofun

end ScriptInventory.Json
