import ScriptInventory.Proofs.Plain.Tokens
import ScriptInventory.Proofs.Text.Places
import ScriptInventory.Script.Plain.Read

/-!
# Nodes of plain scripts are sound

The reader of plain scripts makes no faults, and every node that it makes starts at a token
and has no character that is not one of the text (`sound_of_read?`). `Reads` is what each of
the readers keeps: a node that is sound, and tokens behind it that are among those in front.
-/

namespace ScriptInventory.Script

theorem Node.mem_preorderAll {m : Node} {ns : List Node} :
    m ∈ preorderAll ns ↔ ∃ n ∈ ns, m ∈ n.preorder := by
  induction ns with
  | nil => simp
  | cons n rest ih => simp [ih]

namespace Plain

/-! ## Sound nodes -/

/-- Characters that are all of a certain sort. -/
def Spelled (C : Char → Prop) (w : List Char) : Prop := ∀ c ∈ w, C c

@[simp] theorem spelled_nil (C : Char → Prop) : Spelled C [] := List.forall_mem_nil C

/-- No node of a subtree is a fault, and all of them start at certain places and have texts of
certain characters. -/
def Sound (Q : Place → Prop) (C : Char → Prop) (n : Node) : Prop :=
  ∀ m ∈ n.preorder, m.fault = none ∧ Q m.start ∧ Spelled C m.text.toList

def AllSound (Q : Place → Prop) (C : Char → Prop) (ns : List Node) : Prop :=
  ∀ n ∈ ns, Sound Q C n

/-- Tokens that are at certain places and made of certain characters. -/
def AllAt (Q : Place → Prop) (C : Char → Prop) (ts : List Token) : Prop :=
  ∀ t ∈ ts, Q t.place ∧ Spelled C t.form.source

variable {Q : Place → Prop} {C : Char → Prop}

theorem sound_iff {n : Node} :
    Sound Q C n ↔
      (n.fault = none ∧ Q n.start ∧ Spelled C n.text.toList) ∧ AllSound Q C n.children := by
  simp only [Sound, AllSound, Node.preorder_eq n, List.forall_mem_cons, Node.mem_preorderAll]
  constructor
  · rintro ⟨hnode, hbelow⟩
    exact ⟨hnode, fun c hc m hm => hbelow m ⟨c, hc, hm⟩⟩
  · rintro ⟨hnode, hbelow⟩
    refine ⟨hnode, ?_⟩
    rintro m ⟨c, hc, hm⟩
    exact hbelow c hc m hm

theorem Sound.start {n : Node} (h : Sound Q C n) : Q n.start := (sound_iff.1 h).1.2.1

@[simp] theorem allSound_nil : AllSound Q C [] := by
  intro n hn
  cases hn

@[simp] theorem allSound_cons {n : Node} {ns : List Node} :
    AllSound Q C (n :: ns) ↔ Sound Q C n ∧ AllSound Q C ns := List.forall_mem_cons

@[simp] theorem allSound_reverse {ns : List Node} : AllSound Q C ns.reverse ↔ AllSound Q C ns := by
  simp [AllSound]

theorem allAt_cons {t : Token} {ts : List Token} :
    AllAt Q C (t :: ts) ↔ (Q t.place ∧ Spelled C t.form.source) ∧ AllAt Q C ts :=
  List.forall_mem_cons

/-- A node that is made of a token has the text of the token. -/
@[simp] theorem allAt_name {text : String} {p : Place} {l : Bool} {ts : List Token} :
    AllAt Q C (⟨.name text, p, l⟩ :: ts) ↔ (Q p ∧ Spelled C text.toList) ∧ AllAt Q C ts :=
  allAt_cons

@[simp] theorem allAt_number {text : String} {p : Place} {l : Bool} {ts : List Token} :
    AllAt Q C (⟨.number text, p, l⟩ :: ts) ↔ (Q p ∧ Spelled C text.toList) ∧ AllAt Q C ts :=
  allAt_cons

@[simp] theorem allAt_quoted {text : String} {p : Place} {l : Bool} {ts : List Token} :
    AllAt Q C (⟨.quoted text, p, l⟩ :: ts) ↔ (Q p ∧ Spelled C text.toList) ∧ AllAt Q C ts :=
  allAt_cons

@[simp] theorem sound_leaf {kind : Kind} {start : Place} {text : String} :
    Sound Q C (.leaf kind start text) ↔ Q start ∧ Spelled C text.toList := by
  simp [sound_iff, Node.leaf]

@[simp] theorem sound_branch {kind : Kind} {start : Place} {children : List Node} :
    Sound Q C (.branch kind start children) ↔ Q start ∧ AllSound Q C children := by
  simp [sound_iff, Node.branch]

@[simp] theorem sound_withRole {role : Role} {n : Node} :
    Sound Q C (n.withRole role) ↔ Sound Q C n := by
  rw [sound_iff, sound_iff, Node.withRole]

/-! ## Readers -/

/-- A node is sound, and so are the tokens behind it. -/
def Reads (Q : Place → Prop) (C : Char → Prop) (n : Node) (rest : List Token) : Prop :=
  Sound Q C n ∧ AllAt Q C rest

def ReadsAll (Q : Place → Prop) (C : Char → Prop) (ns : List Node) (rest : List Token) : Prop :=
  AllSound Q C ns ∧ AllAt Q C rest

theorem reads_of_value? {ts rest : List Token} {n : Node} (h : value? ts = some (n, rest))
    (hts : AllAt Q C ts) : Reads Q C n rest := by
  unfold value? at h
  split at h <;> cases h <;> simpa [Reads] using hts

theorem reads_of_key? {ts rest : List Token} {n : Node} (h : key? ts = some (n, rest))
    (hts : AllAt Q C ts) : Reads Q C n rest := by
  unfold key? at h
  split at h <;> cases h <;> simpa [Reads] using hts

theorem reads_of_withDefault? {target n : Node} {ts rest : List Token}
    (h : withDefault? target ts = some (n, rest)) (hread : Reads Q C target ts) :
    Reads Q C n rest := by
  obtain ⟨htarget, hts⟩ := hread
  unfold withDefault? at h
  split at h
  · obtain ⟨⟨value, tail⟩, hvalue, heq⟩ := Option.map_eq_some_iff.1 h
    cases heq
    obtain ⟨hvalue, hrest⟩ := reads_of_value? hvalue (allAt_cons.1 hts).2
    simp [Reads, htarget, htarget.start, hvalue, hrest]
  · cases h
    exact ⟨htarget, hts⟩

/-! ### Patterns -/

/-- What the readers of patterns keep, with a bound on the open calls. -/
structure PatternsSound (Q : Place → Prop) (C : Char → Prop) (fuel : Nat) : Prop where
  pattern {ts rest n} : pattern? fuel ts = some (n, rest) → AllAt Q C ts → Reads Q C n rest
  entries {seen ts rest ns} : entries? fuel seen ts = some (ns, rest) → AllSound Q C seen →
    AllAt Q C ts → ReadsAll Q C ns rest
  moreEntries {seen ts rest ns} : moreEntries? fuel seen ts = some (ns, rest) →
    AllSound Q C seen → AllAt Q C ts → ReadsAll Q C ns rest
  elements {seen ts rest ns} : elements? fuel seen ts = some (ns, rest) → AllSound Q C seen →
    AllAt Q C ts → ReadsAll Q C ns rest
  moreElements {seen ts rest ns} : moreElements? fuel seen ts = some (ns, rest) →
    AllSound Q C seen → AllAt Q C ts → ReadsAll Q C ns rest

section Step

variable {fuel : Nat} (ih : PatternsSound Q C fuel)
include ih

theorem reads_of_pattern? {ts rest : List Token} {n : Node}
    (h : pattern? (fuel + 1) ts = some (n, rest)) (hts : AllAt Q C ts) : Reads Q C n rest := by
  unfold pattern? at h
  split at h
  · cases h
    simpa [Reads] using hts
  · next hfuel =>
    cases hfuel
    obtain ⟨⟨nodes, tail⟩, hnodes, heq⟩ := Option.map_eq_some_iff.1 h
    cases heq
    obtain ⟨⟨hp, -⟩, hts⟩ := allAt_cons.1 hts
    obtain ⟨hnodes, hrest⟩ := ih.entries hnodes allSound_nil hts
    exact ⟨sound_branch.2 ⟨hp, hnodes⟩, hrest⟩
  · next hfuel =>
    cases hfuel
    obtain ⟨⟨nodes, tail⟩, hnodes, heq⟩ := Option.map_eq_some_iff.1 h
    cases heq
    obtain ⟨⟨hp, -⟩, hts⟩ := allAt_cons.1 hts
    obtain ⟨hnodes, hrest⟩ := ih.elements hnodes allSound_nil hts
    exact ⟨sound_branch.2 ⟨hp, hnodes⟩, hrest⟩
  · cases h

theorem reads_of_entries? {seen ns : List Node} {ts rest : List Token}
    (h : entries? (fuel + 1) seen ts = some (ns, rest)) (hseen : AllSound Q C seen)
    (hts : AllAt Q C ts) : ReadsAll Q C ns rest := by
  unfold entries? at h
  split at h
  · cases h
    exact ⟨allSound_reverse.2 hseen, (allAt_cons.1 hts).2⟩
  · -- the rest of the object
    next hfuel =>
    cases hfuel
    obtain ⟨hp, hts⟩ := allAt_cons.1 hts
    split at h
    · next htarget =>
      obtain ⟨htarget, htail⟩ := ih.pattern htarget hts
      apply ih.moreEntries h _ htail
      simp [hseen, hp, htarget]
    · cases h
  · -- a key with a target
    next hfuel =>
    cases hfuel
    rw [allAt_name, allAt_cons] at hts
    obtain ⟨hp, -, hts⟩ := hts
    split at h
    · next htarget =>
      obtain ⟨⟨p, mid⟩, hpattern, htarget⟩ := Option.bind_eq_some_iff.1 htarget
      obtain ⟨htarget, htail⟩ := reads_of_withDefault? htarget (ih.pattern hpattern hts)
      apply ih.moreEntries h _ htail
      simp [hseen, hp, htarget]
    · cases h
  · -- a name with a default
    next hfuel =>
    cases hfuel
    rw [allAt_name, allAt_cons] at hts
    obtain ⟨hp, -, hts⟩ := hts
    split at h
    · next hvalue =>
      obtain ⟨hvalue, htail⟩ := reads_of_value? hvalue hts
      apply ih.moreEntries h _ htail
      simp [hseen, hp, hvalue]
    · cases h
  · next hfuel =>
    cases hfuel
    obtain ⟨hp, hts⟩ := allAt_name.1 hts
    apply ih.moreEntries h _ hts
    simp [hseen, hp]
  · cases h

theorem reads_of_moreEntries? {seen ns : List Node} {ts rest : List Token}
    (h : moreEntries? (fuel + 1) seen ts = some (ns, rest)) (hseen : AllSound Q C seen)
    (hts : AllAt Q C ts) : ReadsAll Q C ns rest := by
  unfold moreEntries? at h
  split at h
  · next hfuel =>
    cases hfuel
    exact ih.entries h hseen (allAt_cons.1 hts).2
  · cases h
    exact ⟨allSound_reverse.2 hseen, (allAt_cons.1 hts).2⟩
  · cases h

theorem reads_of_elements? {seen ns : List Node} {ts rest : List Token}
    (h : elements? (fuel + 1) seen ts = some (ns, rest)) (hseen : AllSound Q C seen)
    (hts : AllAt Q C ts) : ReadsAll Q C ns rest := by
  unfold elements? at h
  split at h
  · cases h
    exact ⟨allSound_reverse.2 hseen, (allAt_cons.1 hts).2⟩
  · next hfuel =>
    cases hfuel
    exact ih.elements h hseen (allAt_cons.1 hts).2
  · -- the rest of the array
    next hfuel =>
    cases hfuel
    obtain ⟨hp, hts⟩ := allAt_cons.1 hts
    split at h
    · next htarget =>
      obtain ⟨htarget, htail⟩ := ih.pattern htarget hts
      apply ih.moreElements h _ htail
      simp [hseen, hp, htarget]
    · cases h
  · next hfuel _ _ _ =>
    cases hfuel
    split at h
    · next helement =>
      obtain ⟨⟨p, mid⟩, hpattern, helement⟩ := Option.bind_eq_some_iff.1 helement
      obtain ⟨helement, htail⟩ := reads_of_withDefault? helement (ih.pattern hpattern hts)
      exact ih.moreElements h (allSound_cons.2 ⟨helement, hseen⟩) htail
    · cases h
  · cases h

theorem reads_of_moreElements? {seen ns : List Node} {ts rest : List Token}
    (h : moreElements? (fuel + 1) seen ts = some (ns, rest)) (hseen : AllSound Q C seen)
    (hts : AllAt Q C ts) : ReadsAll Q C ns rest := by
  unfold moreElements? at h
  split at h
  · next hfuel =>
    cases hfuel
    exact ih.elements h hseen (allAt_cons.1 hts).2
  · cases h
    exact ⟨allSound_reverse.2 hseen, (allAt_cons.1 hts).2⟩
  · cases h

end Step

theorem patternsSound_zero (Q : Place → Prop) (C : Char → Prop) : PatternsSound Q C 0 where
  pattern h := by simp [pattern?] at h
  entries h := by simp [entries?] at h
  moreEntries h := by simp [moreEntries?] at h
  elements h := by simp [elements?] at h
  moreElements h := by simp [moreElements?] at h

theorem patternsSound (Q : Place → Prop) (C : Char → Prop) (fuel : Nat) :
    PatternsSound Q C fuel := by
  induction fuel with
  | zero => exact patternsSound_zero Q C
  | succ fuel ih =>
    exact ⟨reads_of_pattern? ih, reads_of_entries? ih, reads_of_moreEntries? ih,
      reads_of_elements? ih, reads_of_moreElements? ih⟩

/-! ### Variables and fields -/

theorem reads_of_initial? {ts rest : List Token} {ns : List Node}
    (h : initial? ts = some (ns, rest)) (hts : AllAt Q C ts) : ReadsAll Q C ns rest := by
  unfold initial? at h
  split at h
  · obtain ⟨⟨value, tail⟩, hvalue, heq⟩ := Option.map_eq_some_iff.1 h
    cases heq
    obtain ⟨hvalue, hrest⟩ := reads_of_value? hvalue (allAt_cons.1 hts).2
    simp [ReadsAll, hvalue, hrest]
  · cases h
    exact ⟨allSound_nil, hts⟩

theorem allAt_of_ending? {ts rest : List Token} (h : ending? ts = some rest)
    (hts : AllAt Q C ts) : AllAt Q C rest := by
  unfold ending? at h
  split at h
  all_goals first
    | (cases h; exact hts)
    | (cases h; exact (allAt_cons.1 hts).2)
    | cases h

theorem allAt_of_fieldEnding? {ts rest : List Token} (h : fieldEnding? ts = some rest)
    (hts : AllAt Q C ts) : AllAt Q C rest := by
  unfold fieldEnding? at h
  split at h
  · cases h
    exact (allAt_cons.1 hts).2
  · cases h
    exact hts
  · cases h

theorem reads_of_declarator? {fuel : Nat} {ts rest : List Token} {n : Node}
    (h : declarator? fuel ts = some (n, rest)) (hts : AllAt Q C ts) : Reads Q C n rest := by
  obtain ⟨⟨target, mid⟩, htarget, h⟩ := Option.bind_eq_some_iff.1 h
  obtain ⟨⟨value, tail⟩, hvalue, heq⟩ := Option.map_eq_some_iff.1 h
  cases heq
  obtain ⟨htarget, hmid⟩ := (patternsSound Q C fuel).pattern htarget hts
  obtain ⟨hvalue, hrest⟩ := reads_of_initial? hvalue hmid
  simp [Reads, htarget, htarget.start, hvalue, hrest]

theorem reads_of_declarators? {fuel : Nat} {seen ns : List Node} {ts rest : List Token}
    (h : declarators? fuel seen ts = some (ns, rest)) (hseen : AllSound Q C seen)
    (hts : AllAt Q C ts) : ReadsAll Q C ns rest := by
  induction fuel generalizing seen ts with
  | zero => cases h
  | succ fuel ih =>
    unfold declarators? at h
    split at h
    · cases h
    · next hnode =>
      obtain ⟨hnode, htail⟩ := reads_of_declarator? hnode hts
      exact ih h (allSound_cons.2 ⟨hnode, hseen⟩) (allAt_cons.1 htail).2
    · next hnode =>
      obtain ⟨hnode, htail⟩ := reads_of_declarator? hnode hts
      obtain ⟨tail, hending, heq⟩ := Option.map_eq_some_iff.1 h
      cases heq
      exact ⟨allSound_reverse.2 (allSound_cons.2 ⟨hnode, hseen⟩),
        allAt_of_ending? hending htail⟩

theorem reads_of_field? {key n : Node} {ts rest : List Token}
    (h : field? key ts = some (n, rest)) (hread : Reads Q C key ts) : Reads Q C n rest := by
  obtain ⟨hkey, hts⟩ := hread
  obtain ⟨⟨value, tail⟩, hvalue, h⟩ := Option.bind_eq_some_iff.1 h
  obtain ⟨rest, hending, heq⟩ := Option.map_eq_some_iff.1 h
  cases heq
  obtain ⟨hvalue, htail⟩ := reads_of_initial? hvalue hts
  simp [Reads, hkey, hkey.start, hvalue, allAt_of_fieldEnding? hending htail]

/-! ### Classes and functions -/

/-- From a sound body, the head of a function or a method gives sound nodes. -/
theorem reads_of_head? {ts rest : List Token} {nodes : List Node → List Node}
    (h : head? ts = some (nodes, rest)) (hts : AllAt Q C ts) :
    (∀ body, AllSound Q C body → AllSound Q C (nodes body)) ∧ AllAt Q C rest := by
  unfold head? at h
  split at h
  · cases h
    rw [allAt_cons, allAt_cons, allAt_cons] at hts
    obtain ⟨hp, -, hq, hrest⟩ := hts
    refine ⟨?_, hrest⟩
    intro body hbody
    simp [hp, hq, hbody]
  · cases h

/-- What the readers of statements and members keep. -/
structure StatementsSound (Q : Place → Prop) (C : Char → Prop) (fuel : Nat) : Prop where
  statements {seen ts rest ns} : statements? fuel seen ts = some (ns, rest) →
    AllSound Q C seen → AllAt Q C ts → ReadsAll Q C ns rest
  members {seen ts rest ns} : members? fuel seen ts = some (ns, rest) → AllSound Q C seen →
    AllAt Q C ts → ReadsAll Q C ns rest

section Step

variable {fuel : Nat} (ih : StatementsSound Q C fuel)
include ih

/-- A declaration of variables, and the statements behind it. -/
theorem reads_of_declaration {kind : Kind} {p : Place} {seen nodes ns : List Node}
    {ts mid rest : List Token} (hp : Q p) (hseen : AllSound Q C seen) (hts : AllAt Q C ts)
    (hnodes : declarators? fuel [] ts = some (nodes, mid))
    (h : statements? fuel (.branch kind p nodes :: seen) mid = some (ns, rest)) :
    ReadsAll Q C ns rest := by
  obtain ⟨hnodes, htail⟩ := reads_of_declarators? hnodes allSound_nil hts
  apply ih.statements h _ htail
  simp [hseen, hp, hnodes]

theorem reads_of_statements? {seen ns : List Node} {ts rest : List Token}
    (h : statements? (fuel + 1) seen ts = some (ns, rest)) (hseen : AllSound Q C seen)
    (hts : AllAt Q C ts) : ReadsAll Q C ns rest := by
  unfold statements? at h
  split at h
  · cases h
    exact ⟨allSound_reverse.2 hseen, hts⟩
  · cases h
    exact ⟨allSound_reverse.2 hseen, hts⟩
  · -- a class
    next hfuel =>
    cases hfuel
    rw [allAt_cons, allAt_name, allAt_cons] at hts
    obtain ⟨hp, hq, hr, hts⟩ := hts
    split at h
    · next hbody =>
      obtain ⟨hbody, htail⟩ := ih.members hbody allSound_nil hts
      apply ih.statements h _ htail
      simp [hseen, hp, hq, hr, hbody]
    · cases h
  · -- a function
    next hfuel =>
    cases hfuel
    rw [allAt_cons, allAt_name] at hts
    obtain ⟨hp, hq, hts⟩ := hts
    split at h
    · cases h
    · next hhead =>
      obtain ⟨hnodes, htail⟩ := reads_of_head? hhead hts
      split at h
      · next hbody =>
        obtain ⟨hbody, hafter⟩ := ih.statements hbody allSound_nil htail
        apply ih.statements h _ (allAt_cons.1 hafter).2
        simp [hseen, hp, hq, hnodes _ hbody]
      · cases h
  · next hfuel =>
    cases hfuel
    obtain ⟨hp, hts⟩ := allAt_cons.1 hts
    split at h
    · next hnodes => exact reads_of_declaration ih hp.1 hseen hts hnodes h
    · cases h
  · next hfuel =>
    cases hfuel
    obtain ⟨hp, hts⟩ := allAt_cons.1 hts
    split at h
    · next hnodes => exact reads_of_declaration ih hp.1 hseen hts hnodes h
    · cases h
  · next hfuel =>
    cases hfuel
    obtain ⟨hp, hts⟩ := allAt_cons.1 hts
    split at h
    · cases h
    · split at h
      · next hnodes => exact reads_of_declaration ih hp.1 hseen hts hnodes h
      · cases h
  · cases h

theorem reads_of_members? {seen ns : List Node} {ts rest : List Token}
    (h : members? (fuel + 1) seen ts = some (ns, rest)) (hseen : AllSound Q C seen)
    (hts : AllAt Q C ts) : ReadsAll Q C ns rest := by
  unfold members? at h
  split at h
  · cases h
    exact ⟨allSound_reverse.2 hseen, (allAt_cons.1 hts).2⟩
  · next hfuel _ =>
    cases hfuel
    split at h
    · cases h
    · -- a method
      next hkey =>
      obtain ⟨hkey, hmid⟩ := reads_of_key? hkey hts
      split at h
      · cases h
      · next hhead =>
        obtain ⟨hnodes, htail⟩ := reads_of_head? hhead hmid
        split at h
        · next hbody =>
          obtain ⟨hbody, hafter⟩ := ih.statements hbody allSound_nil htail
          apply ih.members h _ (allAt_cons.1 hafter).2
          simp [hseen, hkey, hkey.start, hnodes _ hbody]
        · cases h
    · -- a field
      next hkey =>
      split at h
      · next hnode =>
        obtain ⟨hnode, htail⟩ := reads_of_field? hnode (reads_of_key? hkey hts)
        exact ih.members h (allSound_cons.2 ⟨hnode, hseen⟩) htail
      · cases h
  · cases h

end Step

theorem statementsSound (Q : Place → Prop) (C : Char → Prop) (fuel : Nat) :
    StatementsSound Q C fuel := by
  induction fuel with
  | zero => exact ⟨fun h => by simp [statements?] at h, fun h => by simp [members?] at h⟩
  | succ fuel ih => exact ⟨reads_of_statements? ih, reads_of_members? ih⟩

/-! ## Whole texts -/

/-- Tokens stand behind a part of the text and are made of its characters. -/
theorem Laid.exists_front {before text : List Char} {ts : List Token} (h : Laid before ts text) :
    ∀ t ∈ ts, (∃ front rest, before ++ text = front ++ rest ∧
      t.place = Place.start.after front) ∧ Spelled (· ∈ text) t.form.source := by
  induction h with
  | nil =>
    intro t ht
    cases ht
  | blank _ _ ih =>
    intro t ht
    obtain ⟨⟨front, rest, hsplit, hplace⟩, hspelled⟩ := ih t ht
    refine ⟨⟨front, rest, ?_, hplace⟩, fun c hc => List.mem_cons_of_mem _ (hspelled c hc)⟩
    rw [← hsplit]
    simp
  | @token before _ _ _ _ _ _ ih =>
    intro t ht
    rcases List.mem_cons.1 ht with rfl | ht
    · exact ⟨⟨before, _, rfl, rfl⟩, fun c hc => List.mem_append_left _ hc⟩
    · obtain ⟨⟨front, rest, hsplit, hplace⟩, hspelled⟩ := ih t ht
      refine ⟨⟨front, rest, ?_, hplace⟩, fun c hc => List.mem_append_right _ (hspelled c hc)⟩
      rw [← hsplit]
      simp

/-- The tokens of a text are at places of the text and made of its characters. -/
theorem allAt_of_tokens? {text : String} {ts : List Token} (h : tokens? text.toList = some ts) :
    AllAt (Place.IsIn text) (· ∈ text.toList) ts := by
  intro t ht
  obtain ⟨⟨front, rest, hsplit, hplace⟩, hspelled⟩ := (laid_of_tokens? h).exists_front t ht
  refine ⟨?_, hspelled⟩
  rw [hplace]
  exact Place.isIn_after hsplit

/-- **Trees of plain scripts are sound.** They have no faults, and all nodes start at places
of the text and have only characters of the text. -/
theorem sound_of_read? {text : String} {root : Node} (h : read? text = some root) :
    Sound (Place.IsIn text) (· ∈ text.toList) root := by
  obtain ⟨ts, hts, h⟩ := Option.bind_eq_some_iff.1 h
  have hplaces := allAt_of_tokens? hts
  dsimp only at h
  split at h
  · next hnodes =>
    cases h
    refine sound_branch.2 ⟨?_, ((statementsSound _ _ _).statements hnodes allSound_nil hplaces).1⟩
    cases ts with
    | nil => exact Place.isIn_start text
    | cons t ts => exact (allAt_cons.1 hplaces).1.1
  · cases h

end Plain

end ScriptInventory.Script
