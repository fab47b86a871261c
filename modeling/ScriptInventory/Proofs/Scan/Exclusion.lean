import ScriptInventory.Proofs.Glob.Components
import ScriptInventory.Scan.Sources

/-!
# Excluded names

An excluded name gives two rules, of which one is for entries with the name and the other
for what is below them. Main statement: if the excluded names are literal, the rules hold
for a path if and only if one of its names is excluded (`verdict?_isSome_iff`).

* `Glob.readGlob_plain`: characters that mean nothing special are read as they are.
* `exclusions_of_literal`: literal names give rules, without an error.
-/

namespace ScriptInventory

namespace Glob

/-- The characters with a meaning of their own in a glob. -/
def special : List Char := ['?', '*', '[', '{', '}', '\\']

/-- A character without a meaning of its own stands for itself. -/
theorem readGlob_cons_plain (lenient : Bool) (fuel : Nat) {s : State} (hs : s.groups = [])
    {c : Char} (hc : c ∉ special) (rest : List Char) :
    readGlob lenient (fuel + 1) s (c :: rest) =
      readGlob lenient fuel (s.push (.literal c) c) rest := by
  simp only [special, List.mem_cons, List.not_mem_nil, or_false, not_or] at hc
  obtain ⟨hone, hrun, hclass, hopen, hclose, hescape⟩ := hc
  by_cases hcomma : c = ','
  · -- outside of groups, a comma is a character like others
    subst hcomma
    rw [readGlob, hs]
  · rw [readGlob] <;> assumption

/-- Such characters are read one after the other. -/
theorem readGlob_plain (lenient : Bool) (fuel : Nat) {text : List Char}
    (htext : ∀ c ∈ text, c ∉ special) (tokens : List Token) (behind : Option Char)
    (plainBrackets : Bool) (rest : List Char) :
    readGlob lenient (text.length + fuel) ⟨tokens, [], behind, plainBrackets⟩ (text ++ rest) =
      readGlob lenient fuel ⟨(text.map .literal).reverse ++ tokens, [],
        text.getLast?.or behind, plainBrackets⟩ rest := by
  induction text generalizing tokens behind with
  | nil => simp
  | cons c text ih =>
    have hc : c ∉ special := htext c List.mem_cons_self
    have hmore : ∀ d ∈ text, d ∉ special := fun d hd => htext d (List.mem_cons_of_mem _ hd)
    rw [List.length_cons, Nat.add_right_comm, List.cons_append,
      readGlob_cons_plain lenient _ rfl hc, State.push, ih hmore]
    congr 2
    · simp
    · cases hlast : text.getLast? <;> simp [List.getLast?_cons, hlast]

theorem expand_cons_of_options {t : Token} {pieces : List Piece} (ht : t.options = [pieces])
    (rest : List Token) : expand (t :: rest) = (expand rest).map (pieces ++ ·) := by
  simp [expand, ht]

/-- Literal characters stand for their bytes. -/
theorem expand_literals (text : List Char) (rest : List Token) :
    expand (text.map .literal ++ rest) =
      (expand rest).map ((utf8 text).map .byte ++ ·) := by
  induction text with
  | nil => simp [utf8]
  | cons c text ih =>
    rw [List.map_cons, List.cons_append, expand_cons_of_options rfl, ih, List.map_map]
    congr 1
    funext pieces
    simp [utf8]

/-- The glob of a name without special characters. -/
theorem parse_name (lenient : Bool) {body : List Char} (hne : body ≠ [])
    (hbody : ∀ c ∈ body, c ∉ special) :
    Glob.parse lenient ("**/".toList ++ body) = .ok ⟨[namePieces (utf8 body)]⟩ := by
  have hread : readGlob lenient (("**/".toList ++ body).length + 1) ⟨[], [], none, false⟩
      ("**/".toList ++ body) =
      readGlob lenient (body.length + 3) ⟨[.piece .leading], [], some '/', false⟩
        (body ++ []) := by
    rw [List.append_nil, List.length_append, Nat.add_comm _ body.length]
    rfl
  rw [Glob.parse, hread, readGlob_plain lenient 3 hbody]
  simp only [readGlob, List.isEmpty_nil, if_true, Except.map]
  rw [List.reverse_append, List.reverse_reverse]
  -- there is a character behind the directories, so the glob is no lone pair of stars
  obtain ⟨c, text, rfl⟩ := List.exists_cons_of_ne_nil hne
  show Except.ok (Glob.mk (expand (.piece .leading :: ((c :: text).map .literal)))) = _
  rw [expand_cons_of_options rfl, ← List.append_nil ((c :: text).map Token.literal),
    expand_literals]
  simp [expand, namePieces]

/-- The glob of what is below such a name. -/
theorem parse_below (lenient : Bool) {body : List Char} (hbody : ∀ c ∈ body, c ∉ special) :
    Glob.parse lenient ("**/".toList ++ body ++ "/**/*".toList) =
      .ok ⟨[belowPieces (utf8 body)]⟩ := by
  have hslash : ∀ c ∈ body ++ ['/'], c ∉ special := by
    intro c hc
    rcases List.mem_append.1 hc with hc | hc
    · exact hbody c hc
    · rw [List.mem_singleton.1 hc]
      decide
  have hread : readGlob lenient (("**/".toList ++ body ++ "/**/*".toList).length + 1)
      ⟨[], [], none, false⟩ ("**/".toList ++ body ++ "/**/*".toList) =
      readGlob lenient ((body ++ ['/']).length + 7) ⟨[.piece .leading], [], some '/', false⟩
        ((body ++ ['/']) ++ "**/*".toList) := by
    rw [show (body ++ ['/']) ++ "**/*".toList = body ++ "/**/*".toList by simp,
      show ("**/".toList ++ body ++ "/**/*".toList).length + 1 =
        (body ++ ['/']).length + 7 + 1 by simp]
    rfl
  rw [Glob.parse, hread, readGlob_plain lenient 7 hslash]
  have hrest : readGlob lenient 7 ⟨((body ++ ['/']).map .literal).reverse ++ [.piece .leading],
      [], (body ++ ['/']).getLast?.or (some '/'), false⟩ "**/*".toList =
      .ok (.piece .leading :: (body.map .literal ++ [.piece .between, .piece .run])) := by
    simp [readGlob, State.twoStars, State.isInName, State.pushDirectories, State.push]
  rw [hrest]
  show Except.ok (Glob.ofTokens _) = _
  cases body with
  | nil => rfl
  | cons c text =>
    show Except.ok (Glob.mk (expand (.piece .leading ::
      ((c :: text).map .literal ++ [.piece .between, .piece .run])))) = _
    rw [expand_cons_of_options rfl, expand_literals]
    simp [expand, Token.options, belowPieces]

end Glob

/-! ## Literal names -/

/-- An excluded name without the white space around it, and then without the slashes
around it. -/
def bareName (name : String) : List Char :=
  (((Text.trim name.toList).dropWhile (· = '/')).reverse.dropWhile (· = '/')).reverse

/-- An excluded name that stands for itself: in what is left of it there is no character
that is special in globs, no slash, and no white space at the end. -/
structure IsLiteral (name : String) : Prop where
  notSpecial : ∀ c ∈ bareName name, c ∉ Glob.special
  noSlash : '/' ∉ bareName name
  noBlank : ∀ c ∈ (bareName name).getLast?, Text.isWhiteSpace c = false

/-- The name of an entry is excluded; what is empty excludes nothing. -/
def Excludes (excluded : List String) (name : String) : Prop :=
  ∃ e ∈ excluded, bareName e ≠ [] ∧ name.toList = bareName e

theorem Excludes.ne_empty {excluded : List String} {name : String}
    (h : Excludes excluded name) : name ≠ "" := by
  obtain ⟨e, -, hne, heq⟩ := h
  rintro rfl
  exact hne heq.symm

theorem not_excludes_nil (name : String) : ¬ Excludes [] name := by
  rintro ⟨e, he, -⟩
  cases he

theorem exclusionRules_eq (name : String) :
    exclusionRules name =
      if bareName name = [] then []
      else [String.ofList ("!**/".toList ++ bareName name),
        String.ofList ("!**/".toList ++ bareName name ++ "/**".toList)] := by
  unfold exclusionRules bareName
  simp only [List.isEmpty_iff, List.reverse_eq_nil_iff]

def rulesOfName (name : String) : List Ignore.Rule :=
  if bareName name = [] then []
  else [⟨⟨[Glob.namePieces (Glob.utf8 (bareName name))]⟩, .kept, false⟩,
    ⟨⟨[Glob.belowPieces (Glob.utf8 (bareName name))]⟩, .kept, false⟩]

section Rules

open Ignore

theorem lineBody_of_getLast? {line : List Char} {c : Char} (hlast : line.getLast? = some c)
    (hc : Text.isWhiteSpace c = false) : lineBody line = line := by
  unfold lineBody trimEnd
  rw [← List.head?_reverse] at hlast
  cases hrev : line.reverse with
  | nil =>
    rw [hrev] at hlast
    cases hlast
  | cons d rest =>
    rw [hrev] at hlast
    obtain rfl : d = c := by simpa using hlast
    rw [List.dropWhile_cons_of_neg (by simp [hc]), ← hrev, List.reverse_reverse, ite_self]

theorem withoutSlash_of_getLast? {text : List Char} (h : text.getLast? ≠ some '/') :
    withoutSlash text = (false, text) := by
  unfold withoutSlash
  rw [← List.head?_reverse] at h
  split
  · rename_i hrev
    rw [hrev] at h
    exact absurd rfl h
  · rename_i hrev
    rw [hrev] at h
    exact absurd rfl h
  · rfl

theorem globText_of_mem {text : List Char} (h : '/' ∈ text) (isBound : Bool) :
    globText isBound text =
      if ['/', '*', '*'].isSuffixOf text then text ++ ['/', '*'] else text := by
  have hslash : (isBound || text.contains '/' || decide (text = ['*', '*'])) = true := by
    simp [h]
  unfold globText
  rw [if_pos hslash]

/-- The rule of a line that starts like those of excluded names. -/
theorem parse_line (lenient : Bool) {rest : List Char} {c : Char}
    (hlast : rest.getLast? = some c) (hblank : Text.isWhiteSpace c = false)
    (hslash : c ≠ '/') :
    Rule.parse lenient ("!**/".toList ++ rest) =
      (Glob.parse lenient (globText false ("**/".toList ++ rest))).map
        fun glob => some ⟨glob, .kept, false⟩ := by
  have hlastLine : ∀ front : List Char, (front ++ rest).getLast? = some c := by
    intro front
    rw [List.getLast?_append, hlast]
    rfl
  have hbody : lineBody ("!**/".toList ++ rest) = '!' :: ("**/".toList ++ rest) :=
    lineBody_of_getLast? (hlastLine _) hblank
  have hslashless : withoutSlash ("**/".toList ++ rest) = (false, "**/".toList ++ rest) := by
    apply withoutSlash_of_getLast?
    rw [hlastLine]
    simpa using hslash
  have hhead : ruleHead ('!' :: ("**/".toList ++ rest)) =
      (.kept, false, "**/".toList ++ rest) := rfl
  unfold Rule.parse
  rw [if_neg (by simp), hbody]
  simp only [hhead, hslashless]
  cases Glob.parse lenient (globText false ("**/".toList ++ rest)) <;> rfl

theorem IsLiteral.parse_name {name : String} (h : IsLiteral name) (hne : bareName name ≠ []) :
    Rule.parse false ("!**/".toList ++ bareName name) =
      .ok (some ⟨⟨[Glob.namePieces (Glob.utf8 (bareName name))]⟩, .kept, false⟩) := by
  obtain ⟨c, hlast⟩ : ∃ c, (bareName name).getLast? = some c :=
    ⟨_, List.getLast?_eq_some_getLast hne⟩
  have hmem : c ∈ bareName name := List.mem_of_getLast? hlast
  have hslash : c ≠ '/' := by
    rintro rfl
    exact h.noSlash hmem
  have hstar : c ≠ '*' := by
    rintro rfl
    exact h.notSpecial _ hmem (by decide)
  have htext : globText false ("**/".toList ++ bareName name) = "**/".toList ++ bareName name := by
    have hsuffix : ¬ ['/', '*', '*'].isSuffixOf ("**/".toList ++ bareName name) := by
      rw [List.isSuffixOf_iff_suffix]
      rintro ⟨front, hfront⟩
      have hend := congrArg List.getLast? hfront
      rw [List.getLast?_append, List.getLast?_append, hlast] at hend
      exact hstar (by simpa using hend.symm)
    rw [globText_of_mem (by simp), if_neg hsuffix]
  rw [parse_line false hlast (h.noBlank c hlast) hslash, htext,
    Glob.parse_name false hne h.notSpecial]
  rfl

theorem IsLiteral.parse_below {name : String} (h : IsLiteral name) :
    Rule.parse false ("!**/".toList ++ bareName name ++ "/**".toList) =
      .ok (some ⟨⟨[Glob.belowPieces (Glob.utf8 (bareName name))]⟩, .kept, false⟩) := by
  have htext : globText false ("**/".toList ++ (bareName name ++ "/**".toList)) =
      "**/".toList ++ bareName name ++ "/**/*".toList := by
    have hsuffix : ['/', '*', '*'].isSuffixOf
        ("**/".toList ++ (bareName name ++ "/**".toList)) := by
      rw [List.isSuffixOf_iff_suffix]
      exact ⟨"**/".toList ++ bareName name, by simp⟩
    rw [globText_of_mem (by simp), if_pos hsuffix]
    simp
  rw [List.append_assoc, parse_line false (c := '*') (by simp) (by decide) (by decide), htext,
    Glob.parse_below false h.notSpecial]
  rfl

/-- Reads one of the rules for an excluded name. -/
def readExclusion (root rule : String) : Except ScanError (Option Rule) :=
  (Rule.parse false rule.toList).mapError fun e =>
    .badGlob root (String.ofList (lineBody rule.toList)) e

theorem exclusions_eq (root : String) (names : List String) :
    exclusions root names =
      (names.flatMap exclusionRules).mapM (readExclusion root) >>= fun rules =>
        pure (rules.filterMap id) := by
  unfold exclusions
  congr 2
  funext rule
  unfold readExclusion
  cases Rule.parse false rule.toList <;> rfl

theorem readExclusion_of_parse {root : String} {text : List Char} {r : Option Rule}
    (h : Rule.parse false text = .ok r) :
    readExclusion root (String.ofList text) = .ok r := by
  rw [readExclusion, String.toList_ofList, h]
  rfl

/-- All elements of a list can be mapped if each of them can. -/
theorem exists_mapM_eq_ok_iff {α β ε : Type} {f : α → Except ε β} {l : List α} :
    (∃ bs, l.mapM f = .ok bs) ↔ ∀ a ∈ l, ∃ b, f a = .ok b := by
  induction l with
  | nil => simp [pure, Except.pure]
  | cons a l ih =>
    rw [List.forall_mem_cons, ← ih, List.mapM_cons]
    cases f a with
    | error e => simp [bind, Except.bind]
    | ok b => cases l.mapM f <;> simp [bind, Except.bind, pure, Except.pure]

/-- What a list is mapped to comes from its elements. -/
theorem mem_iff_of_mapM_eq_ok {α β ε : Type} {f : α → Except ε β} {l : List α} {bs : List β}
    (h : l.mapM f = .ok bs) (b : β) : b ∈ bs ↔ ∃ a ∈ l, f a = .ok b := by
  induction l generalizing bs with
  | nil =>
    cases h
    simp
  | cons a l ih =>
    rw [List.mapM_cons] at h
    cases hfirst : f a with
    | error e => simp [hfirst, bind, Except.bind] at h
    | ok first =>
      cases hrest : l.mapM f with
      | error e => simp [hfirst, hrest, bind, Except.bind] at h
      | ok rest =>
        simp only [hfirst, hrest, bind, Except.bind, pure, Except.pure, Except.ok.injEq] at h
        rw [← h, List.mem_cons, ih hrest]
        simp [hfirst, @eq_comm _ first b]

theorem exclusions_eq_ok_iff {root : String} {names : List String} {rules : List Rule} :
    exclusions root names = .ok rules ↔
      ∃ read, (names.flatMap exclusionRules).mapM (readExclusion root) = .ok read ∧
        read.filterMap id = rules := by
  rw [exclusions_eq]
  cases (names.flatMap exclusionRules).mapM (readExclusion root) with
  | error e => simp [bind, Except.bind]
  | ok read => simp [bind, Except.bind, pure, Except.pure]

/-- The rules for excluded names come from their lines. -/
theorem mem_exclusions_iff {root : String} {names : List String} {rules : List Rule}
    (h : exclusions root names = .ok rules) {r : Rule} :
    r ∈ rules ↔ ∃ line ∈ names.flatMap exclusionRules, readExclusion root line = .ok (some r) := by
  obtain ⟨read, hread, rfl⟩ := exclusions_eq_ok_iff.1 h
  rw [← mem_iff_of_mapM_eq_ok hread, List.mem_filterMap]
  simp

/-- Of fewer names, the rules are among those of all. -/
theorem exclusions_subset {root : String} {names fewer : List String} (hfewer : fewer ⊆ names)
    {rules : List Rule} (h : exclusions root names = .ok rules) :
    ∃ some, exclusions root fewer = .ok some ∧ some ⊆ rules := by
  have hlines : fewer.flatMap exclusionRules ⊆ names.flatMap exclusionRules := by
    intro line hline
    obtain ⟨name, hname, hmem⟩ := List.mem_flatMap.1 hline
    exact List.mem_flatMap.2 ⟨name, hfewer hname, hmem⟩
  obtain ⟨all, hall, -⟩ := exclusions_eq_ok_iff.1 h
  obtain ⟨read, hread⟩ := exists_mapM_eq_ok_iff.2 fun line hline =>
    exists_mapM_eq_ok_iff.1 ⟨all, hall⟩ line (hlines hline)
  have hfew := exclusions_eq_ok_iff.2 ⟨read, hread, rfl⟩
  refine ⟨_, hfew, ?_⟩
  intro r hr
  obtain ⟨line, hline, hparse⟩ := (mem_exclusions_iff hfew).1 hr
  exact (mem_exclusions_iff h).2 ⟨line, hlines hline, hparse⟩

/-- A literal name gives its rules, and no error. -/
theorem IsLiteral.mapM_readExclusion {name : String} (h : IsLiteral name) (root : String) :
    (exclusionRules name).mapM (readExclusion root) = .ok ((rulesOfName name).map some) := by
  rw [exclusionRules_eq, rulesOfName]
  by_cases hempty : bareName name = []
  · rw [if_pos hempty, if_pos hempty]
    rfl
  · rw [if_neg hempty, if_neg hempty, List.mapM_cons, List.mapM_cons, List.mapM_nil,
      readExclusion_of_parse (h.parse_name hempty), readExclusion_of_parse h.parse_below]
    rfl

/-- Literal names give their rules, and no error. -/
theorem exclusions_of_literal (root : String) {excluded : List String}
    (h : ∀ name ∈ excluded, IsLiteral name) :
    exclusions root excluded = .ok (excluded.flatMap rulesOfName) := by
  have hmap : (excluded.flatMap exclusionRules).mapM (readExclusion root) =
      .ok ((excluded.flatMap rulesOfName).map some) := by
    induction excluded with
    | nil => rfl
    | cons name rest ih =>
      rw [List.flatMap_cons, List.mapM_append, (h name List.mem_cons_self).mapM_readExclusion,
        ih fun other hother => h other (List.mem_cons_of_mem _ hother), List.flatMap_cons,
        List.map_append]
      rfl
  rw [exclusions_eq, hmap]
  show Except.ok _ = _
  rw [List.filterMap_map]
  simp

/-! ## Paths -/

theorem verdict?_isSome (rules : List Rule) (path : List Char) (isDirectory : Bool) :
    (verdict? rules path isDirectory).isSome ↔
      ∃ r ∈ rules, (!r.onlyDirectories || isDirectory) = true ∧ r.glob.accepts path = true := by
  unfold verdict?
  rw [Option.isSome_map, List.find?_isSome]
  simp only [List.mem_reverse, Bool.and_eq_true]

/-- The rules for a literal name hold for a path if and only if the path has it. -/
theorem rulesOfName_accept {name : String} (h : IsLiteral name) {path : List String}
    (hne : path ≠ []) (hpath : ∀ n ∈ path, '/' ∉ n.toList) :
    (∃ r ∈ rulesOfName name, r.glob.accepts ("/".intercalate path).toList = true) ↔
      bareName name ≠ [] ∧ ∃ n ∈ path, n.toList = bareName name := by
  by_cases hempty : bareName name = []
  · simp [rulesOfName, hempty]
  · have hnames : ∀ n ∈ path.map (fun n => Glob.utf8 n.toList), Glob.slash ∉ n := by
      intro n hn
      obtain ⟨m, hm, rfl⟩ := List.mem_map.1 hn
      rw [Glob.slash_mem_utf8]
      exact hpath m hm
    have hname : Glob.slash ∉ Glob.utf8 (bareName name) := by
      rw [Glob.slash_mem_utf8]
      exact h.noSlash
    have hmatch := Glob.matchPieces_name_or_below (by simpa using hne) hnames hname
    rw [← Glob.utf8_intercalate] at hmatch
    have hmem : Glob.utf8 (bareName name) ∈ path.map (fun n => Glob.utf8 n.toList) ↔
        ∃ n ∈ path, n.toList = bareName name := by
      rw [List.mem_map]
      constructor
      · rintro ⟨n, hn, heq⟩
        exact ⟨n, hn, Glob.utf8_injective heq⟩
      · rintro ⟨n, hn, heq⟩
        exact ⟨n, hn, by rw [heq]⟩
    rw [← hmem, ← hmatch, rulesOfName, if_neg hempty]
    simp [Glob.accepts, hempty]

/-- The rules for literal names hold for a path if and only if one of its names is
excluded. -/
theorem verdict?_isSome_iff {excluded : List String} (h : ∀ name ∈ excluded, IsLiteral name)
    {path : List String} (hne : path ≠ []) (hpath : ∀ n ∈ path, '/' ∉ n.toList)
    (isDirectory : Bool) :
    (verdict? (excluded.flatMap rulesOfName) ("/".intercalate path).toList
        isDirectory).isSome ↔
      ∃ n ∈ path, Excludes excluded n := by
  have hanywhere : ∀ r ∈ excluded.flatMap rulesOfName, r.onlyDirectories = false := by
    intro r hr
    obtain ⟨name, -, hr⟩ := List.mem_flatMap.1 hr
    unfold rulesOfName at hr
    split at hr
    · cases hr
    · simp only [List.mem_cons, List.not_mem_nil, or_false] at hr
      rcases hr with rfl | rfl <;> rfl
  rw [verdict?_isSome]
  constructor
  · rintro ⟨r, hr, -, haccepts⟩
    obtain ⟨name, hname, hr⟩ := List.mem_flatMap.1 hr
    obtain ⟨hne', n, hn, heq⟩ := (rulesOfName_accept (h name hname) hne hpath).1
      ⟨r, hr, haccepts⟩
    exact ⟨n, hn, name, hname, hne', heq⟩
  · rintro ⟨n, hn, name, hname, hne', heq⟩
    obtain ⟨r, hr, haccepts⟩ := (rulesOfName_accept (h name hname) hne hpath).2
      ⟨hne', n, hn, heq⟩
    have hmem : r ∈ excluded.flatMap rulesOfName := List.mem_flatMap.2 ⟨name, hname, hr⟩
    exact ⟨r, hmem, by rw [hanywhere r hmem]; rfl, haccepts⟩

end Rules

end ScriptInventory
