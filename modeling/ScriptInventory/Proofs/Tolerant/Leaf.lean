import ScriptInventory.Proofs.Text.Lexemes
import ScriptInventory.Proofs.Tolerant.Accept

/-!
# Terminals that come next stand in the text

Whatever terminal the reader finds at a position, expected or not, stands there with blanks
in front of it (`shows_longest`, `shows_surrounded`), and so does the leaf made of it
(`ahead_nextLeaf`).
-/

namespace ScriptInventory.Script.Tolerant

open Grammar

variable {g : Numbered} {text : String} {x : Context}

/-! ## Lengths -/

theorem head?_take {cs : List Char} {n : Nat} (hn : 0 < n) : (cs.take n).head? = cs.head? := by
  cases n with
  | zero => exact absurd hn (by decide)
  | succ n => cases cs <;> rfl

theorem fixed?_eq {mark : String} {cs : List Char} {n : Nat} (h : fixed? mark cs = some n) :
    ∃ behind, cs = mark.toList ++ behind ∧ n = mark.toList.length := by
  unfold fixed? at h
  split at h
  · next hprefix =>
    cases h
    obtain ⟨behind, rfl⟩ := List.isPrefixOf_iff_prefix.1 hprefix
    exact ⟨behind, rfl, rfl⟩
  · cases h

theorem le_of_blockComment? {cs : List Char} {seen n : Nat} (h : blockComment? seen cs = some n) :
    seen ≤ n := by
  induction cs generalizing seen with
  | nil => cases h
  | cons c cs ih =>
    unfold blockComment? at h
    split at h
    · cases h
      omega
    · next heq =>
      cases heq
      split at h
      · cases h
      · exact Nat.le_of_succ_le (ih h)
    · cases h

/-- A comment starts with a slash. -/
theorem head_of_comment? {cs : List Char} {n : Nat} (h : comment? cs = some n) :
    0 < n ∧ cs.head? = some '/' := by
  unfold comment? at h
  split at h
  · cases h
    exact ⟨by omega, rfl⟩
  · have := le_of_blockComment? h
    exact ⟨by omega, rfl⟩
  · cases h

/-- A lexeme of a known length, as what is read and what is behind it. -/
theorem reads_split {cs : List Char} {s : Lexeme.Split} {t : Terminal}
    (hs : s.1 ++ s.2 = cs) (h : Reads s.1 s.2 t) :
    Reads (cs.take s.1.length) (cs.drop s.1.length) t := by
  rw [← hs, List.take_left, List.drop_left]
  exact h

/-- A terminal of some length reads what stands there. -/
theorem reads_of_length? {t : Terminal} {here rest : List Char} {spaced : Bool} {n : Nat}
    (h : length? t here rest = some (spaced, n)) :
    Reads ((if spaced then rest else here).take n) ((if spaced then rest else here).drop n) t := by
  -- all terminals but the end of a regular expression are looked for behind the blanks
  have hspaced : ∀ {n? : Option Nat}, n?.map (fun n => (true, n)) = some (spaced, n) →
      n? = some n ∧ spaced = true := by
    intro n? hn
    obtain ⟨n, hsome, heq⟩ := Option.map_eq_some_iff.1 hn
    cases heq
    exact ⟨hsome, rfl⟩
  have hfixed : ∀ {mark : String} {cs : List Char}, fixed? mark cs = some n →
      cs.take n = mark.toList := by
    intro mark cs hn
    obtain ⟨behind, rfl, rfl⟩ := fixed?_eq hn
    exact List.take_left
  unfold length? at h
  cases t with
  | mark mark =>
    obtain ⟨hn, rfl⟩ := hspaced h
    exact hfixed hn
  | named kind mark =>
    obtain ⟨hn, rfl⟩ := hspaced h
    exact hfixed hn
  -- a word is as long as its tail, which `wordTail_append` splits off
  | word =>
    obtain ⟨hn, rfl⟩ := hspaced h
    obtain ⟨s, hs, rfl⟩ := Option.map_eq_some_iff.1 hn
    obtain ⟨htail, hne⟩ := Lexeme.word?_eq hs
    have happend := (Lexeme.wordTail_append rest).1
    rw [htail] at happend
    refine reads_split happend ⟨hne, ?_⟩
    rw [happend, htail]
  | comment =>
    obtain ⟨hn, rfl⟩ := hspaced h
    obtain ⟨hpos, hhead⟩ := head_of_comment? hn
    exact (head?_take hpos).trans hhead
  | regexClose =>
    obtain ⟨n', hn, heq⟩ := Option.map_eq_some_iff.1 h
    cases heq
    exact hfixed hn
  -- these four are told by their surroundings, and the lexer has no length for them
  | endOfText | lineEnd | questionMark | markupComment => cases h
  | _ => trivial

/-! ## What is found -/

theorem take_takeWhile (q : Char → Bool) (cs : List Char) :
    cs.take (cs.takeWhile q).length = cs.takeWhile q :=
  (List.prefix_iff_eq_take.1 (List.takeWhile_prefix q)).symm

theorem of_mem_takeWhile {q : Char → Bool} {cs : List Char} {c : Char}
    (h : c ∈ cs.takeWhile q) : q c :=
  List.all_eq_true.1 List.all_takeWhile c h

theorem blank_behindBlanks (text : String) (i : Nat) :
    ∀ c ∈ (Text.ofString text).between i ((Text.ofString text).behindBlanks i), isBlank c := by
  intro c hc
  rw [Text.between, Text.behindBlanks, Nat.add_sub_cancel_left, take_takeWhile] at hc
  exact of_mem_takeWhile hc

/-- A lexeme stands in a text behind blanks. -/
theorem shows_of_reads {t : Terminal} {i start n : Nat} (hle : i ≤ start)
    (hblank : ∀ c ∈ (Text.ofString text).between i start, isBlank c)
    (hreads : Reads (((Text.ofString text).rest start).take n)
      (((Text.ofString text).rest start).drop n) t) :
    (Text.ofString text).Shows t i start (start + n) := by
  refine ⟨hle, Nat.le_add_right _ _, hblank, ?_⟩
  rw [Text.between, Nat.add_sub_cancel_left]
  rw [Text.rest_ofString] at hreads ⊢
  rw [Text.rest_ofString, ← List.drop_drop]
  exact hreads

/-- A terminal that has been found stands in the text. -/
def Found.Stands (x : Context) (i : Nat) (f : Found) (terminal : Terminal) : Prop :=
  x.terminals[f.terminal]? = some terminal ∧ x.text.Shows terminal i f.start f.stop

/-- One turn of the loop over terminals. -/
def consider (t : Text) (i : Nat) (best : Option (Terminal × Found)) (n : Nat)
    (terminal : Terminal) : Option (Terminal × Found) :=
  match length? terminal (t.rest i) (t.rest (t.behindBlanks i)) with
  | none => best
  | some (spaced, length) =>
    let start := if spaced then t.behindBlanks i else i
    let found : Found := ⟨n, start, start + length⟩
    match best with
    | none => some (terminal, found)
    | some (old, was) =>
      if isBetter old was.stop terminal found.stop then some (terminal, found) else best

theorem longest?_eq (terminals : Array Terminal) (t : Text) (valid : Nat → Bool) (i : Nat) :
    ∃ wantsWord : Bool, longest? terminals t valid i =
      match terminals.zipIdx.foldl (fun best (terminal, n) =>
          if valid n && terminal ≠ .word && (keywordText? terminal).isNone then
            consider t i best n terminal
          else best)
        (if wantsWord then consider t i none (terminals.idxOf .word) .word else none) with
      | some (_, found) => some found
      | none =>
        if t.size ≤ t.behindBlanks i && valid 0 then some ⟨0, t.behindBlanks i, t.behindBlanks i⟩
        else none :=
  ⟨_, rfl⟩

/-- What is the best so far stands there. -/
def Good (x : Context) (i : Nat) (best : Option (Terminal × Found)) : Prop :=
  ∀ terminal f, best = some (terminal, f) → f.Stands x i terminal

theorem Good.consider (hx : x.Reads g text) {i n : Nat} {best : Option (Terminal × Found)}
    (h : Good x i best) {terminal : Terminal} (hn : x.terminals[n]? = some terminal) :
    Good x i (Tolerant.consider x.text i best n terminal) := by
  unfold Tolerant.consider
  split
  · exact h
  · next spaced length hlength =>
    have hnew : Found.Stands x i ⟨n, if spaced then x.text.behindBlanks i else i,
        (if spaced then x.text.behindBlanks i else i) + length⟩ terminal := by
      have hreads := reads_of_length? hlength
      rw [Found.Stands, hx.text]
      rw [hx.text] at hreads
      refine ⟨hn, shows_of_reads ?_ ?_ ?_⟩
      · split
        · exact Nat.le_add_right _ _
        · exact Nat.le_refl _
      · split
        · exact blank_behindBlanks text i
        · simp [Text.between]
      · cases spaced <;> exact hreads
    intro t f hbest
    dsimp only at hbest
    generalize (if spaced = true then x.text.behindBlanks i else i) = start at hnew hbest
    split at hbest
    · cases hbest
      exact hnew
    · split at hbest
      · cases hbest
        exact hnew
      · exact h t f hbest

theorem getElem?_idxOf {terminals : Array Terminal} {t : Terminal} (h : t ∈ terminals) :
    terminals[terminals.idxOf t]? = some t := by
  have hlt := Array.idxOf_lt_length_of_mem h
  rw [Array.getElem?_eq_getElem hlt]
  exact congrArg some (eq_of_beq (@Array.findIdx_getElem _ (· == t) terminals hlt))

/-- The longest terminal at a position stands there. -/
theorem stands_longest? (hx : x.Reads g text) {valid : Nat → Bool} {i : Nat} {f : Found}
    (h : longest? x.terminals x.text valid i = some f) : ∃ terminal, f.Stands x i terminal := by
  have hterminals : x.terminals = g.terminals := by rw [Context.terminals, hx.automaton]; rfl
  obtain ⟨wantsWord, heq⟩ := longest?_eq x.terminals x.text valid i
  -- the loop starts with the word, where one is wanted, and keeps what stands there
  have hfirst : Good x i (if wantsWord then
      consider x.text i none (x.terminals.idxOf .word) .word else none) := by
    split
    · refine Good.consider hx (fun t f ht => by cases ht) ?_
      exact getElem?_idxOf (hterminals ▸ hx.word)
    · exact fun t f ht => by cases ht
  have hall : Good x i (x.terminals.zipIdx.foldl (fun best (terminal, n) =>
      if valid n && terminal ≠ .word && (keywordText? terminal).isNone then
        consider x.text i best n terminal
      else best)
      (if wantsWord then consider x.text i none (x.terminals.idxOf .word) .word else none)) := by
    rw [← Array.foldl_toList]
    refine List.foldlRecOn (motive := Good x i) _ _ hfirst ?_
    rintro best hbest ⟨terminal, n⟩ hmem
    dsimp only
    split
    · exact hbest.consider hx (Array.mem_zipIdx_iff_getElem?.1 (Array.mem_def.2 hmem))
    · exact hbest
  rw [heq] at h
  split at h
  · next terminal found hsome =>
    cases h
    exact ⟨terminal, hall terminal _ hsome⟩
  · split at h
    · -- nothing was found, and only blanks are left: the end of the text
      next hcond =>
      cases h
      rw [Bool.and_eq_true, decide_eq_true_eq] at hcond
      refine ⟨.endOfText, hterminals ▸ hx.ends, ?_⟩
      rw [hx.text] at hcond ⊢
      refine shows_of_reads (n := 0) (Nat.le_add_right _ _) (blank_behindBlanks text i)
        ⟨rfl, ?_⟩
      rw [List.drop_zero, Text.rest_ofString]
      rw [Text.size_ofString] at hcond
      exact List.drop_eq_nil_of_le hcond.1
    · cases h

/-! ## What its surroundings show -/

theorem isBlank_of_isPlainBlank {c : Char} (h : isPlainBlank c) : isBlank c := by
  simp [isBlank, h]

theorem isBlank_of_isLineSeparator {c : Char} (h : isLineSeparator c) : isBlank c := by
  simp [isBlank, h]

theorem blank_of_takeWhile {q : Char → Bool} (hq : ∀ c, q c → isBlank c) {cs : List Char} :
    ∀ c ∈ cs.take (cs.takeWhile q).length, isBlank c := by
  rw [take_takeWhile]
  exact fun c hc => hq c (of_mem_takeWhile hc)

/-- A question mark stands behind blanks. -/
theorem questionMark?_eq {cs : List Char} {n : Nat} (h : questionMark? cs = some n) :
    (∀ c ∈ cs.take n, isBlank c) ∧ ∃ rest, cs.drop n = '?' :: rest := by
  have hblank : ∀ c ∈ cs.take (cs.takeWhile isPlainBlank).length, isBlank c :=
    blank_of_takeWhile fun _ => isBlank_of_isPlainBlank
  unfold questionMark? at h
  dsimp only at h
  split at h
  · cases h
  · next heq =>
    split at h <;> cases h
    exact ⟨hblank, _, heq⟩
  · cases h
  · next heq =>
    cases h
    exact ⟨hblank, _, heq⟩
  · cases h

/-- What is skipped up to the next line is blank. -/
theorem behindLine_eq (cs : List Char) :
    ∃ front, cs = front ++ behindLine cs ∧ ∀ c ∈ front, isBlank c := by
  have hsplit : ∀ rest : List Char, ∃ front, rest = front ++ rest.dropWhile isPlainBlank ∧
      ∀ c ∈ front, isBlank c := fun rest =>
    ⟨rest.takeWhile isPlainBlank, (List.takeWhile_append_dropWhile).symm,
      fun c hc => isBlank_of_isPlainBlank (of_mem_takeWhile hc)⟩
  obtain ⟨front, hfront, hblank⟩ := hsplit cs
  unfold behindLine
  dsimp only
  split
  · next c rest hrest =>
    split
    · next hc =>
      obtain ⟨more, hmore, hblank'⟩ := hsplit rest
      refine ⟨front ++ c :: more, ?_, ?_⟩
      · rw [List.append_assoc, List.cons_append, ← hmore, ← hrest]
        exact hfront
      · refine List.forall_mem_append.2 ⟨hblank, List.forall_mem_cons.2 ⟨?_, hblank'⟩⟩
        exact isBlank_of_isLineSeparator hc
    · exact ⟨front, hfront, hblank⟩
  · next hrest =>
    rw [hrest] at hfront
    exact ⟨front, hfront, hblank⟩

/-- A line that is commented out by markup starts with markup. -/
theorem markupComment?_eq {cs : List Char} {n length : Nat}
    (h : markupComment? cs = some (n, length)) :
    (∀ c ∈ cs.take n, isBlank c) ∧
      ((cs.drop n).take length).head?.any fun c => c = '<' || c = '-' := by
  have hblank : ∀ c ∈ cs.take (cs.takeWhile fun c => isPlainBlank c || isLineSeparator c).length,
      isBlank c := by
    refine blank_of_takeWhile fun c hc => ?_
    rcases Bool.or_eq_true_iff.1 hc with hc | hc
    · exact isBlank_of_isPlainBlank hc
    · exact isBlank_of_isLineSeparator hc
  unfold markupComment? at h
  dsimp only at h
  split at h
  · next heq =>
    cases h
    refine ⟨hblank, ?_⟩
    rw [heq, Nat.add_comm]
    rfl
  · next heq =>
    cases h
    refine ⟨hblank, ?_⟩
    rw [heq, Nat.add_comm]
    rfl
  · cases h

/-- A terminal of the surroundings stands where a text can be read as it. -/
theorem stands_contextual (hx : x.Reads g text) {terminal : Terminal} {i blanks length : Nat}
    (hcontextual : terminal.isContextual)
    (hblank : ∀ c ∈ (x.text.rest i).take blanks, isBlank c)
    (hreads : Reads (((x.text.rest i).drop blanks).take length)
      (((x.text.rest i).drop blanks).drop length) terminal) :
    ∃ terminal', Found.Stands x i ⟨x.terminals.idxOf terminal, i + blanks,
      i + blanks + length⟩ terminal' := by
  have hterminals : x.terminals = g.terminals := by rw [Context.terminals, hx.automaton]; rfl
  refine ⟨terminal, getElem?_idxOf (hterminals ▸ hx.contextual terminal hcontextual), ?_⟩
  rw [hx.text] at hblank hreads ⊢
  refine shows_of_reads (Nat.le_add_right _ _) ?_ ?_
  · rw [Text.between, Nat.add_sub_cancel_left]
    exact hblank
  · rw [Text.rest_ofString] at hreads ⊢
    rw [← List.drop_drop]
    exact hreads

/-- A question mark stands behind blanks of which some were skipped before. -/
theorem stands_questionMark (hx : x.Reads g text) (front : List Char) {rest : List Char} {i : Nat}
    {f : Found}
    (hsplit : x.text.rest i = front ++ rest) (hblank : ∀ c ∈ front, isBlank c)
    (h : ((questionMark? ((x.text.rest i).drop front.length)).bind fun blanks =>
      some (⟨x.terminals.idxOf .questionMark, i + (front.length + blanks),
        i + (front.length + blanks) + 1⟩ : Found)) = some f) :
    ∃ terminal, f.Stands x i terminal := by
  obtain ⟨blanks, hmark, heq⟩ := Option.bind_eq_some_iff.1 h
  cases heq
  rw [hsplit, List.drop_left] at hmark
  obtain ⟨hblank', behind, hbehind⟩ := questionMark?_eq hmark
  refine stands_contextual hx rfl ?_ ?_
  · rw [hsplit, List.take_length_add_append]
    exact List.forall_mem_append.2 ⟨hblank, hblank'⟩
  · rw [hsplit, List.drop_length_add_append, hbehind]
    rfl

/-- What its surroundings show at a position stands there. -/
theorem stands_surrounded? (hx : x.Reads g text) {wanted : Terminal → Bool} {i : Nat} {f : Found}
    (h : surrounded? x.terminals x.text wanted i = some f) :
    ∃ terminal, f.Stands x i terminal := by
  have hnone : ∀ c ∈ (x.text.rest i).take 0, isBlank c := fun c hc => by cases hc
  unfold surrounded? at h
  dsimp only at h
  split at h
  · -- text of a template, which is looked for first
    split at h
    · cases h
    · split at h
      · split at h
        · cases h
        · cases h
          exact stands_contextual hx rfl hnone trivial
      · cases h
  · -- then text between tags, and then a line end
    generalize htext : (if wanted .elementText = true then _ else none : Option Found) = shown at h
    split at h
    · rw [h] at htext
      split at htext
      · split at htext
        · cases htext
          exact stands_contextual hx rfl hnone trivial
        · cases htext
      · cases htext
    · split at h
      · split at h
        · cases h
          exact stands_contextual hx rfl hnone rfl
        · split at h
          · -- the question mark is on a later line
            obtain ⟨front, hfront, hblank⟩ := behindLine_eq (x.text.rest i)
            have hlength : (x.text.rest i).length - (behindLine (x.text.rest i)).length =
                front.length := by
              have := congrArg List.length hfront
              rw [List.length_append] at this
              omega
            rw [hlength] at h
            exact stands_questionMark hx front hfront hblank h
          · cases h
      · split at h
        · -- the question mark is on this line
          exact stands_questionMark hx [] rfl (fun c hc => by cases hc) h
        · split at h
          · obtain ⟨⟨blanks, length⟩, hmarkup, heq⟩ := Option.bind_eq_some_iff.1 h
            cases heq
            obtain ⟨hblank, hreads⟩ := markupComment?_eq hmarkup
            exact stands_contextual hx rfl hblank hreads
          · cases h

/-! ## Leaves -/

theorem stands_of_or (hx : x.Reads g text) {wanted : Terminal → Bool} {valid : Nat → Bool}
    {q : Found → Bool} {i : Nat} {f : Found}
    (h : ((surrounded? x.terminals x.text wanted i).filter q).or
      (longest? x.terminals x.text valid i) = some f) : ∃ terminal, f.Stands x i terminal := by
  rcases Option.or_eq_some_iff.1 h with hshown | ⟨-, hlong⟩
  · exact stands_surrounded? hx (Option.filter_eq_some_iff.1 hshown).1
  · exact stands_longest? hx hlong

/-- The leaf of a terminal has a node if the terminal has one. -/
theorem isVisible_terminal {n : Nat} {t : Terminal} (h : x.terminals[n]? = some t) :
    (Label.terminal n).isVisible x = t.kind?.isSome := by
  change (x.terminals[n]?).any _ = _
  rw [h]
  rfl

/-- A terminal that has been found, as a leaf. -/
theorem Found.Stands.leaf {i : Nat} {f : Found} {terminal : Terminal}
    (h : f.Stands x i terminal) :
    Tree.IsLeaf x (Tree.leaf x (.terminal f.terminal) i f.start f.stop) f.terminal terminal :=
  ⟨rfl, h.1, rfl, isVisible_terminal h.1, rfl, h.2, fun hextra => by cases hextra⟩

theorem keywordText?_eq {t : Terminal} {w : List Char} (h : keywordText? t = some w) :
    t.kind?.isSome ∧ ∀ rest, Reads w rest t := by
  unfold keywordText? at h
  split at h
  · split at h <;> cases h
    exact ⟨rfl, fun _ => rfl⟩
  · split at h <;> cases h
    exact ⟨rfl, fun _ => rfl⟩
  · cases h

/-- A word that spells a keyword comes next, as either of the two. -/
theorem ahead_keyword {i n taken : Nat} {f : Found} {keyword : Terminal}
    (h : f.Stands x i .word) (hword : f.terminal = x.numberOf .word)
    (hkeyword : x.terminals[n]? = some keyword)
    (hspelled : keywordText? keyword = some (x.text.between f.start f.stop))
    (htaken : taken = n ∨ taken = f.terminal) :
    Ahead x { Tree.leaf x (.terminal taken) i f.start f.stop with keyword := true } := by
  obtain ⟨hkind, hreads⟩ := keywordText?_eq hspelled
  -- both have a node, so that the leaf can be shown as a word as it stands
  have hvisible : (Label.terminal taken).isVisible x = true := by
    rcases htaken with rfl | rfl
    · rw [isVisible_terminal hkeyword, hkind]
    · exact isVisible_terminal h.1
  refine ⟨fun k hk => ?_, fun _ => ⟨.word, rfl, hword ▸ h.1, rfl, hvisible, rfl, h.2,
    fun he => by cases he⟩, rfl, rfl, rfl⟩
  cases hk
  rcases htaken with rfl | rfl
  · exact ⟨_, rfl, hkeyword, rfl, hvisible.trans hkind.symm, rfl,
      ⟨h.2.reach_le, h.2.start_le, h.2.blank, hreads _⟩, fun he => by cases he⟩
  · exact ⟨.word, rfl, h.1, rfl, hvisible, rfl, h.2, fun he => by cases he⟩

/-- The leaf of a terminal that has been found. -/
theorem ahead_leafOf (hx : x.Reads g text) (s : Option Nat) {i : Nat} {f : Found}
    {terminal : Terminal} (h : f.Stands x i terminal) :
    Ahead x (leafOf x s i f) ∧ (leafOf x s i f).reach = i := by
  have hterminals : x.terminals = g.terminals := by rw [Context.terminals, hx.automaton]; rfl
  have hplain : Ahead x (Tree.leaf x (.terminal f.terminal) i f.start f.stop) := by
    refine ⟨fun n hn => ?_, fun hkeyword => (by cases hkeyword), rfl, rfl, rfl⟩
    cases hn
    exact ⟨terminal, h.leaf⟩
  unfold leafOf
  split
  · next hword =>
    obtain rfl : terminal = .word :=
      Option.some.inj (h.1.symm.trans (hword ▸ getElem?_idxOf (hterminals ▸ hx.word)))
    dsimp only
    split
    · next n hn =>
      obtain ⟨hlt, hspelled, -⟩ := Array.findIdx?_eq_some_iff_getElem.1 hn
      refine ⟨ahead_keyword h hword (Array.getElem?_eq_getElem hlt)
        (of_decide_eq_true hspelled) ?_, rfl⟩
      split
      · exact .inl rfl
      · exact .inr rfl
    · exact ⟨hplain, rfl⟩
  · exact ⟨hplain, rfl⟩

/-- The leaf that comes next stands at its position. -/
theorem ahead_nextLeaf (hx : x.Reads g text) (s : Nat) (moved : Bool) (i : Nat) :
    Ahead x (nextLeaf x s moved i) ∧ (nextLeaf x s moved i).reach = i := by
  unfold nextLeaf
  dsimp only
  split
  · next f hf =>
    split at hf
    · cases hf
    · unfold expectedTerminal? at hf
      obtain ⟨terminal, hstands⟩ := stands_of_or hx hf
      exact ahead_leafOf hx _ hstands
  · split
    · next f hf =>
      unfold anyTerminal? at hf
      obtain ⟨terminal, hstands⟩ := stands_of_or hx hf
      exact ahead_leafOf hx _ hstands
    · exact ⟨⟨fun n hn => (by cases hn), fun hkeyword => (by cases hkeyword), rfl, rfl, rfl⟩, rfl⟩

end ScriptInventory.Script.Tolerant
