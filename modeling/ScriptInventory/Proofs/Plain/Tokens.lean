import ScriptInventory.Proofs.Canonical.Program
import ScriptInventory.Proofs.Text.Runs

/-!
# Tokens of plain scripts cover the text

Where the pass over the characters of a text gives tokens, the text is these tokens, each as it
is spelled and where it says it is, with plain blanks between them (`laid_of_tokens?`). A word
goes as far as it can.
-/

namespace ScriptInventory.Script.Plain

/-! ## Spelled tokens -/

def Form.source : Form → List Char
  | .opener o => (Canonical.Piece.word o).toList
  | .name text | .number text | .quoted text => text.toList
  | .sign c => [c]
  | .dots => ['.', '.', '.']

def Form.isWord : Form → Bool
  | .opener _ | .name _ => true
  | .number _ | .quoted _ | .sign _ | .dots => false

/-- A token in front of a text: a word has ended there, and a sign is one of those of plain
scripts. -/
structure Form.Ends (form : Form) (behind : List Char) : Prop where
  parts : form.isWord → ∀ c ∈ form.source, isWordPart c
  stop : form.isWord → ∀ c ∈ behind.head?, isWordPart c = false
  sign : ∀ c, form = .sign c → isSign c

theorem Form.ends_of_not_isWord {form : Form} (hword : form.isWord = false)
    (hsign : ∀ c, form ≠ .sign c) (behind : List Char) : form.Ends behind where
  parts h := by
    rw [hword] at h
    cases h
  stop h := by
    rw [hword] at h
    cases h
  sign c h := absurd h (hsign c)

theorem Form.ends_sign {c : Char} (hc : isSign c) (behind : List Char) :
    (Form.sign c).Ends behind where
  parts h := by cases h
  stop h := by cases h
  sign d hd := Form.sign.inj hd ▸ hc

/-- The tokens of a text that stands behind the characters in `before`, each at its place, with
plain blanks around them. -/
inductive Laid : List Char → List Token → List Char → Prop
  | nil {before : List Char} : Laid before [] []
  | blank {before : List Char} {c : Char} {ts : List Token} {text : List Char} (hc : isPlainBlank c)
      (h : Laid (before ++ [c]) ts text) : Laid before ts (c :: text)
  | token {before : List Char} {form : Form} {newLine : Bool} {ts : List Token} {text : List Char}
      (hends : form.Ends text) (h : Laid (before ++ form.source) ts text) :
      Laid before (⟨form, Place.start.after before, newLine⟩ :: ts) (form.source ++ text)

/-! ## The pass over the characters -/

/-- What has been seen of the token that is being read. -/
def Pending.source : Pending → List Char
  | .nothing => []
  | .word _ seen | .number _ seen | .quoted _ _ seen => seen.reverse
  | .dot _ => ['.']
  | .twoDots _ => ['.', '.']

/-- A token that is being read starts at a place, and a word has word characters only. -/
def Pending.StartsAt (p : Place) : Pending → Prop
  | .nothing => True
  | .word start seen => start = p ∧ ∀ c ∈ seen, isWordPart c
  | .number start _ | .quoted start _ _ | .dot start | .twoDots start => start = p

/-- The pass goes on from a state over a text, up to its end. -/
def Scan.run (s : Scan) (text : List Char) : Option Scan :=
  (text.foldlM Scan.step? s).bind Scan.finish?

theorem Scan.run_cons (s : Scan) (c : Char) (text : List Char) :
    s.run (c :: text) = (s.step? c).bind fun t => t.run text := by
  rw [Scan.run, List.foldlM_cons, Option.bind_eq_bind, Option.bind_assoc]
  rfl

/-- The pass stands behind the characters in `before` and those that it has seen of a token. -/
structure Scan.Stands (s : Scan) (before : List Char) : Prop where
  place : s.place = Place.start.after (before ++ s.pending.source)
  pending : s.pending.StartsAt (Place.start.after before)

/-- The tokens that a pass adds are laid in the text, together with what it has seen already. -/
def Scan.Lays (s t : Scan) (before text : List Char) : Prop :=
  ∃ ts, t.found.reverse = s.found.reverse ++ ts ∧ Laid before ts (s.pending.source ++ text)

theorem source_of_ofWord? {word : String} {form : Form} (h : Form.ofWord? word = some form) :
    form.source = word.toList ∧ form.isWord ∧ ∀ c, form ≠ .sign c := by
  unfold Form.ofWord? at h
  split at h
  · next o ho =>
    cases h
    unfold Opener.ofWord? at ho
    split at ho
    all_goals first
      | (cases ho; exact ⟨rfl, rfl, nofun⟩)
      | cases ho
  · split at h
    · cases h
    · cases h
      exact ⟨rfl, rfl, nofun⟩

namespace Scan

variable {s t u : Scan} {before text : List Char}

/-- A token that is added is laid in front of those that follow. -/
theorem lays_emit {form : Form} (place : Place) (hends : form.Ends text)
    (hsource : s.pending.source = form.source)
    (h : Lays { s.emit form (Place.start.after before) with place := place } t
      (before ++ form.source) text) : s.Lays t before text := by
  obtain ⟨ts, hfound, hlaid⟩ := h
  refine ⟨⟨form, Place.start.after before, s.newLine⟩ :: ts, ?_, ?_⟩
  · rw [hfound]
    simp [emit]
  · rw [hsource]
    exact .token hends hlaid

/-- Between tokens, and at the end of a word or a number, nothing is pending. -/
theorem stands_emit (h : s.Stands before) {form : Form} {start : Place}
    (hsource : s.pending.source = form.source) :
    (s.emit form start).Stands (before ++ form.source) where
  place := by
    rw [← hsource]
    simpa [emit, Pending.source] using h.place
  pending := trivial

/-- A word or a number that ends is laid in front of what follows. -/
theorem lays_finish (h : s.Stands before) (hfinish : s.finish? = some u)
    (hword : ∀ start seen, s.pending = .word start seen →
      ∀ c ∈ text.head?, isWordPart c = false)
    (hgo : ∀ between, u.pending = .nothing → u.Stands between → u.Lays t between text) :
    s.Lays t before text := by
  unfold finish? at hfinish
  cases hp : s.pending with
  | nothing =>
    rw [hp] at hfinish
    cases hfinish
    exact hgo _ hp h
  -- the one token that what is behind it could prolong, which `hword` rules out
  | word start seen =>
    rw [hp] at hfinish
    obtain ⟨form, hform, rfl⟩ := Option.map_eq_some_iff.1 hfinish
    obtain ⟨hsource, -, hsign⟩ := source_of_ofWord? hform
    have hsource : s.pending.source = form.source := by
      rw [hsource, hp, String.toList_ofList]
      rfl
    have hpending := h.pending
    rw [hp] at hpending
    obtain ⟨rfl, hparts⟩ := hpending
    refine lays_emit s.place ⟨fun _ c hc => ?_, fun _ => hword _ _ hp, fun c hc => ?_⟩
      hsource (hgo _ rfl (stands_emit h hsource))
    · rw [← hsource, hp] at hc
      exact hparts c (List.mem_reverse.1 hc)
    · exact absurd hc (hsign c)
  | number start seen =>
    rw [hp] at hfinish
    cases hfinish
    have hsource : s.pending.source = (Form.number (String.ofList seen.reverse)).source := by
      rw [hp, Form.source, String.toList_ofList]
      rfl
    have hpending := h.pending
    rw [hp] at hpending
    obtain rfl := hpending
    exact lays_emit s.place (Form.ends_of_not_isWord rfl (fun _ h => by cases h) _) hsource
      (hgo _ rfl (stands_emit h hsource))
  -- none of these can end here
  | quoted start quote seen =>
    rw [hp] at hfinish
    cases hfinish
  | dot start =>
    rw [hp] at hfinish
    cases hfinish
  | twoDots start =>
    rw [hp] at hfinish
    cases hfinish

theorem place_of_finish? (h : s.finish? = some u) : u.place = s.place := by
  unfold finish? at h
  split at h
  · cases h
    rfl
  · obtain ⟨form, -, rfl⟩ := Option.map_eq_some_iff.1 h
    rfl
  · cases h
    rfl
  · cases h
  · cases h
  · cases h

section Read

variable {c : Char}

theorem place_next (h : s.Stands before) (c : Char) :
    s.place.next c = Place.start.after (before ++ (s.pending.source ++ [c])) := by
  rw [h.place, ← List.append_assoc, Place.after_append _ _ [c]]
  rfl

/-- A character belongs to a token that goes on behind it. -/
theorem lays_more (h : s.Stands before) (p : Pending) (hu : u = { s with pending := p })
    (hsource : p.source = s.pending.source ++ [c])
    (hstarts : p.StartsAt (Place.start.after before))
    (hgo : ∀ between, { u with place := s.place.next c }.Stands between →
      { u with place := s.place.next c }.Lays t between text) : s.Lays t before (c :: text) := by
  subst hu
  obtain ⟨ts, hfound, hlaid⟩ := hgo before ⟨hsource ▸ place_next h c, hstarts⟩
  refine ⟨ts, hfound, ?_⟩
  change Laid before ts (p.source ++ text) at hlaid
  simpa [hsource] using hlaid

/-- A character is the last one of a token. -/
theorem lays_last (h : s.Stands before) (form : Form)
    (hu : u = s.emit form (Place.start.after before))
    (hsource : form.source = s.pending.source ++ [c]) (hends : form.Ends text)
    (hgo : ∀ between, { u with place := s.place.next c }.Stands between →
      { u with place := s.place.next c }.Lays t between text) : s.Lays t before (c :: text) := by
  subst hu
  obtain ⟨ts, hfound, hlaid⟩ := hgo (before ++ form.source)
    ⟨by simpa [emit, Pending.source, hsource] using place_next h c, trivial⟩
  refine ⟨⟨form, Place.start.after before, s.newLine⟩ :: ts, by rw [hfound]; simp [emit], ?_⟩
  have htoken : Laid before (⟨form, Place.start.after before, s.newLine⟩ :: ts)
      (form.source ++ text) := .token hends hlaid
  simpa [hsource] using htoken

/-- Between tokens, a character opens one or separates them. -/
theorem lays_open (h : s.Stands before) (hp : s.pending = .nothing) (hopen : s.open? c = some u)
    (hgo : ∀ between, { u with place := s.place.next c }.Stands between →
      { u with place := s.place.next c }.Lays t between text) : s.Lays t before (c :: text) := by
  have hplace : s.place = Place.start.after before := by
    rw [h.place, hp, Pending.source, List.append_nil]
  -- the first character of a longer token
  have hfirst : ∀ p : Pending, u = { s with pending := p } → p.source = [c] →
      p.StartsAt (Place.start.after before) → s.Lays t before (c :: text) :=
    fun p hu hsource hstarts => lays_more h p hu (by rw [hsource, hp]; rfl) hstarts hgo
  unfold open? at hopen
  split at hopen
  · next hblank =>
    cases hopen
    obtain ⟨ts, hfound, hlaid⟩ := hgo (before ++ [c])
      ⟨by simpa [hp, Pending.source] using place_next h c, by simp [hp, Pending.StartsAt]⟩
    refine ⟨ts, hfound, ?_⟩
    rw [hp] at hlaid ⊢
    exact .blank hblank hlaid
  · split at hopen
    · next hword =>
      cases hopen
      rw [isWordStart, Bool.and_eq_true] at hword
      exact hfirst _ rfl rfl ⟨hplace, fun d hd => List.mem_singleton.1 hd ▸ hword.1⟩
    · split at hopen
      · cases hopen
        exact hfirst _ rfl rfl hplace
      · split at hopen
        · cases hopen
          exact hfirst _ rfl rfl hplace
        · split at hopen
          · next hdot =>
            cases hopen
            exact hfirst (.dot s.place) rfl (congrArg (fun d => [d]) hdot.symm) hplace
          · split at hopen
            · next hsign =>
              cases hopen
              exact lays_last h (.sign c) (by rw [hplace]) (by rw [hp]; rfl)
                (Form.ends_sign hsign text) hgo
            · cases hopen

/-- A character that is behind a word or a number ends that and opens what comes next. -/
theorem lays_behind (h : s.Stands before) {r : Scan} (hfinish : s.finish? = some r)
    (hopen : r.open? c = some u)
    (hword : ∀ start seen, s.pending = .word start seen → isWordPart c = false)
    (hgo : ∀ between, { u with place := s.place.next c }.Stands between →
      { u with place := s.place.next c }.Lays t between text) : s.Lays t before (c :: text) := by
  refine lays_finish h hfinish (fun start seen hp d hd => ?_) fun between hp hr =>
    lays_open hr hp hopen (place_of_finish? hfinish ▸ hgo)
  obtain rfl := Option.some.inj hd
  exact hword start seen hp

/-- What ends a token, or goes on with it. -/
theorem lays_read (h : s.Stands before) (hread : s.read? c = some u)
    (hgo : ∀ between, { u with place := s.place.next c }.Stands between →
      { u with place := s.place.next c }.Lays t between text) : s.Lays t before (c :: text) := by
  have hpending := h.pending
  unfold read? at hread
  cases hp : s.pending with
  | nothing =>
    rw [hp] at hread
    exact lays_open h hp hread hgo
  | word start seen =>
    rw [hp] at hread hpending
    dsimp only at hread
    split at hread
    · -- the word goes on
      next hc =>
      cases hread
      refine lays_more h (.word start (c :: seen)) rfl (by simp [hp, Pending.source])
        ⟨hpending.1, ?_⟩ hgo
      exact List.forall_mem_cons.2 ⟨hc, hpending.2⟩
    · -- the character ends the word, and opens what comes next
      next hc =>
      obtain ⟨r, hfinish, hopen⟩ := Option.bind_eq_some_iff.1 hread
      exact lays_behind h hfinish hopen (fun _ _ _ => Bool.eq_false_iff.2 hc) hgo
  | number start seen =>
    rw [hp] at hread hpending
    dsimp only at hread
    split at hread
    · cases hread
      exact lays_more h (.number start (c :: seen)) rfl (by simp [hp, Pending.source])
        hpending hgo
    · split at hread
      · cases hread
      · obtain ⟨r, hfinish, hopen⟩ := Option.bind_eq_some_iff.1 hread
        -- a number is ended by any character that no word has
        refine lays_behind h hfinish hopen (fun _ _ hw => ?_) hgo
        rw [hp] at hw
        cases hw
  | quoted start quote seen =>
    rw [hp] at hread hpending
    dsimp only at hread
    split at hread
    · -- the second quote
      obtain rfl : start = _ := hpending
      cases hread
      exact lays_last h _ rfl (by simp [hp, Pending.source, Form.source])
        (Form.ends_of_not_isWord rfl (fun _ h => by cases h) _) hgo
    · split at hread
      · cases hread
        exact lays_more h (.quoted start quote (c :: seen)) rfl
          (by simp [hp, Pending.source]) hpending hgo
      · cases hread
  -- a dot is no token by itself, only three of them are
  | dot start =>
    rw [hp] at hread hpending
    dsimp only at hread
    split at hread
    · next hc =>
      cases hread
      exact lays_more h (.twoDots start) rfl (by simp [hp, hc, Pending.source]) hpending hgo
    · cases hread
  | twoDots start =>
    rw [hp] at hread hpending
    dsimp only at hread
    split at hread
    · next hc =>
      obtain rfl : start = _ := hpending
      cases hread
      exact lays_last h .dots rfl (by simp [hp, hc, Pending.source, Form.source])
        (Form.ends_of_not_isWord rfl (fun _ h => by cases h) _) hgo
    · cases hread

end Read

/-- The tokens that a pass adds up to the end of a text cover the text. -/
theorem lays_of_run (h : s.Stands before) (hrun : s.run text = some t) : s.Lays t before text := by
  induction text generalizing s before with
  | nil =>
    refine lays_finish h hrun (fun _ _ _ c hc => by cases hc) fun between hp _ =>
      ⟨[], by simp, ?_⟩
    rw [hp]
    exact .nil
  | cons c text ih =>
    rw [run_cons] at hrun
    obtain ⟨_, hstep, hrun⟩ := Option.bind_eq_some_iff.1 hrun
    obtain ⟨u, hread, rfl⟩ := Option.map_eq_some_iff.1 hstep
    exact lays_read h hread fun between hstands => ih hstands hrun

end Scan

/-- **Tokens of plain scripts cover the text.** The tokens of a text are laid in it from its
start to its end. -/
theorem laid_of_tokens? {text : List Char} {ts : List Token} (h : tokens? text = some ts) :
    Laid [] ts text := by
  obtain ⟨t, hrun, rfl⟩ := Option.map_eq_some_iff.1 h
  have hstart : Scan.start.Stands [] := ⟨rfl, trivial⟩
  obtain ⟨ts, hfound, hlaid⟩ := Scan.lays_of_run hstart hrun
  rw [hfound]
  exact hlaid

/-! ## The token at a position -/

/-- A token where it stands in a text, between the characters in `front` and those in
`behind`. -/
structure Token.Lies (t : Token) (text front behind : List Char) : Prop where
  split : text = front ++ (t.form.source ++ behind)
  place : t.place = Place.start.after front
  ends : t.form.Ends behind

namespace Laid

variable {before text : List Char} {ts : List Token}

/-- Every character that is no blank is in a token. -/
theorem exists_token (h : Laid before ts text) {i : Nat} {c : Char} (hc : text[i]? = some c)
    (hblank : isPlainBlank c = false) : ∃ earlier t later front behind,
      ts = earlier ++ t :: later ∧ t.Lies (before ++ text) (before ++ front) behind ∧
        front.length ≤ i ∧ i < front.length + t.form.source.length ∧
        Laid (before ++ front ++ t.form.source) later behind := by
  induction h generalizing i with
  | nil => cases hc
  -- the blank is not the character, which is then one place further to the front
  | @blank before d ts text hd _ ih =>
    cases i with
    | zero =>
      obtain rfl := Option.some.inj hc
      rw [hd] at hblank
      cases hblank
    | succ i =>
      obtain ⟨earlier, t, later, front, behind, hts, hlies, hle, hlt, hlaid⟩ := ih hc
      refine ⟨earlier, t, later, d :: front, behind, hts, ⟨?_, ?_, hlies.ends⟩, ?_, ?_, ?_⟩
      · simpa using hlies.split
      · simpa using hlies.place
      · simpa using hle
      · simp only [List.length_cons]
        omega
      · simpa using hlaid
  | @token before form newLine ts text hends hlaid ih =>
    -- the character is in the first token, or behind it
    by_cases hlt : i < form.source.length
    · exact ⟨[], _, ts, [], text, rfl, ⟨by simp, by simp, hends⟩, Nat.zero_le i, by simpa using hlt,
        by simpa using hlaid⟩
    · rw [List.getElem?_append_right (Nat.le_of_not_lt hlt)] at hc
      obtain ⟨earlier, t, later, front, behind, rfl, hlies, hle, hlt', hlaid⟩ := ih hc
      refine ⟨⟨form, _, newLine⟩ :: earlier, t, later, form.source ++ front, behind, rfl,
        ⟨?_, ?_, hlies.ends⟩, ?_, ?_, ?_⟩
      · simpa using hlies.split
      · simpa using hlies.place
      · rw [List.length_append]
        omega
      · rw [List.length_append]
        omega
      · simpa using hlaid

/-- The first token stands behind blanks. -/
theorem head {t : Token} (h : Laid before (t :: ts) text) : ∃ blanks behind,
    text = blanks ++ (t.form.source ++ behind) ∧ (∀ c ∈ blanks, isPlainBlank c) ∧
      t.form.Ends behind := by
  generalize hall : t :: ts = all at h
  induction h with
  | nil => cases hall
  | blank hc _ ih =>
    obtain ⟨blanks, behind, rfl, hblanks, hends⟩ := ih hall
    exact ⟨_ :: blanks, behind, rfl, List.forall_mem_cons.2 ⟨hc, hblanks⟩, hends⟩
  | token hends _ _ =>
    cases hall
    exact ⟨[], _, rfl, by simp, hends⟩

end Laid

end ScriptInventory.Script.Plain
