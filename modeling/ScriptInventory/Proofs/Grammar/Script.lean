import ScriptInventory.Script.Grammar.Production
import ScriptInventory.Script.Tolerant.Tree

/-!
# Keywords in the grammar of scripts

Two keywords open what declares classes and functions. `Sequences.Head` says where such a
keyword stands in a sequence, and `Sequences.Naming` which kinds and roles steps give to the
nodes of what fills them. Both are found by looking at all sequences of the grammar
(`head_of_stands`, `naming_of_stands`).
-/

namespace ScriptInventory.Script.Grammar

/-! ## Sequences by their names -/

/-- Constructs, each with the sequences that it stands for. -/
abbrev Sequences := List (Construct × List Sequence)

/-- The constructs that are recognised on their own, with their sequences. -/
def sequencesOf (rules : List (Construct × Rule)) : Sequences :=
  let rules := (plainRules rules).map fun r => (r.1, firsts (r.2.alternatives {} true))
  let sequencesOf (p : Part) : List Sequence :=
    ((rules.find? fun r => r.1 = .part p).map Prod.snd).getD []
  (rules.filter fun r =>
      match r.1 with
      | .part p => !p.isInline
      | .node _ => true).map fun r =>
    (r.1, firsts (r.2.flatMap (Sequence.inlined sequencesOf 4)))

def numberOf (terminals : Array Terminal) (constructs : Array Construct) : Symbol → Sym
  | .terminal t => .terminal (terminals.idxOf t)
  | .construct c => .construct (constructs.idxOf c)

def slotOf (terminals : Array Terminal) (constructs : Array Construct) (s : Step) : Slot :=
  ⟨numberOf terminals constructs s.symbol, s.level, s.grouping, s.renamed, s.role⟩

theorem ofRules_eq (terminals : List Terminal) (rules : List (Construct × Rule)) :
    Numbered.ofRules terminals rules =
      let constructs := ((sequencesOf rules).map Prod.fst).toArray
      ⟨terminals.toArray, constructs, ((sequencesOf rules).flatMap fun r => r.2.map fun q =>
        (⟨constructs.idxOf r.1, (q.steps.map (slotOf terminals.toArray constructs)).toArray,
          q.weight⟩ : Production)).toArray⟩ :=
  rfl

/-- A construct stands for a sequence. -/
def Sequences.Stands (g : Sequences) (c : Construct) (q : Sequence) : Prop :=
  ∃ r ∈ g, r.1 = c ∧ q ∈ r.2

/-- The grammar of scripts in numbers. -/
def scriptGrammar : Numbered := .ofRules terminals rules

/-- The grammar of scripts by its names. -/
def scriptSequences : Sequences := sequencesOf rules

def Numbered.symbol? (g : Numbered) : Sym → Option Symbol
  | .terminal n => (g.terminals[n]?).map .terminal
  | .construct c => (g.constructs[c]?).map .construct

theorem eq_of_getElem?_idxOf {α : Type} [BEq α] [LawfulBEq α] {xs : Array α} {a b : α}
    (h : xs[xs.idxOf a]? = some b) : b = a := by
  obtain ⟨hlt, hget⟩ := Array.getElem?_eq_some_iff.1 h
  rw [← hget]
  exact eq_of_beq (Array.findIdx_getElem (p := (· == a)) (w := hlt))

/-- A symbol is the only one with its number. -/
theorem eq_of_symbol?_numberOf {g : Numbered} {s t : Symbol}
    (h : g.symbol? (numberOf g.terminals g.constructs s) = some t) : t = s := by
  cases s with
  | terminal a =>
    obtain ⟨b, hb, rfl⟩ := Option.map_eq_some_iff.1 h
    rw [eq_of_getElem?_idxOf hb]
  | construct a =>
    obtain ⟨b, hb, rfl⟩ := Option.map_eq_some_iff.1 h
    rw [eq_of_getElem?_idxOf hb]

/-- A production is a sequence of its construct. -/
theorem stands_of_mem {p : Production} (h : p ∈ scriptGrammar.productions) :
    ∃ c q, scriptSequences.Stands c q ∧ scriptGrammar.constructs[p.construct]? = some c ∧
      p.slots.toList =
        q.steps.map (slotOf scriptGrammar.terminals scriptGrammar.constructs) := by
  have hg := ofRules_eq terminals rules
  rw [scriptGrammar, hg] at h ⊢
  dsimp only at h ⊢
  rw [List.mem_toArray, List.mem_flatMap] at h
  obtain ⟨r, hr, hp⟩ := h
  obtain ⟨q, hq, rfl⟩ := List.mem_map.1 hp
  refine ⟨r.1, q, ⟨r, hr, rfl, hq⟩, ?_, rfl⟩
  have hmem : r.1 ∈ ((sequencesOf rules).map Prod.fst).toArray :=
    List.mem_toArray.2 (List.mem_map_of_mem hr)
  dsimp only
  have hlt := Array.idxOf_lt_length_of_mem hmem
  rw [Array.getElem?_eq_getElem hlt]
  exact congrArg some (eq_of_beq (Array.findIdx_getElem (p := (· == r.1)) (w := hlt)))

namespace Sequences

/-! ## Steps without a role -/

/-- Whether a step plays no role, and its symbol is a terminal, a construct with nodes of its
own, or the construct `self`. -/
def isPlain (self : Construct) (s : Step) : Bool :=
  s.role.isNone &&
    match s.symbol with
    | .terminal _ => true
    | .construct c => c = self || Tolerant.isVisible c

/-- Whether a symbol is a terminal, has a node of its own, or repeats what has one. -/
def isQuiet (g : Sequences) : Symbol → Bool
  | .terminal _ => true
  | .construct c =>
    Tolerant.isVisible c || g.all fun r => r.1 ≠ c || r.2.all fun q => q.steps.all (isPlain c)

/-- What a quiet construct without a node of its own is made of plays no role and is quiet in
turn. -/
theorem quiet_of_stands {g : Sequences} {c : Construct} {q : Sequence} (h : g.Stands c q)
    (hquiet : g.isQuiet (.construct c)) (hhidden : Tolerant.isVisible c = false) {s : Step}
    (hs : s ∈ q.steps) : s.role = none ∧ g.isQuiet s.symbol := by
  obtain ⟨r, hr, hrc, hq⟩ := h
  have hplain : isPlain c s := by
    rw [isQuiet, hhidden, Bool.false_or] at hquiet
    have hall := List.all_eq_true.1 hquiet r hr
    rw [Bool.or_eq_true, decide_eq_true_eq] at hall
    exact List.all_eq_true.1 (List.all_eq_true.1 (hall.resolve_left (· hrc)) q hq) s hs
  rw [isPlain, Bool.and_eq_true, Option.isNone_iff_eq_none] at hplain
  refine ⟨hplain.1, ?_⟩
  cases hsymbol : s.symbol with
  | terminal t => rfl
  | construct d =>
    rw [hsymbol] at hplain
    rcases Bool.or_eq_true_iff.1 hplain.2 with hself | hvisible
    · rw [of_decide_eq_true hself]
      exact hquiet
    · exact Bool.or_eq_true_iff.2 (.inl hvisible)

/-- Whether a step gives nodes without a role. -/
def isSilent (g : Sequences) (s : Step) : Bool := s.role.isNone && g.isQuiet s.symbol

end Sequences

/-! ## Keywords -/

/-- The words that open what declares a class or a function. -/
inductive Keyword where
  | «class»
  | function
deriving DecidableEq, Repr

namespace Keyword

def text : Keyword → String
  | .class => "class"
  | .function => "function"

def kinds : Keyword → List Kind
  | .class => [.classDeclaration, .classExpression]
  | .function =>
    [.functionDeclaration, .generatorFunctionDeclaration, .functionExpression,
      .generatorFunction]

def all : List Keyword := [.class, .function]

theorem mem_all (k : Keyword) : k ∈ all := by
  cases k <;> decide

/-- The first letter of a keyword does not come again. -/
theorem eq_zero_of_getElem? {k : Keyword} {j : Nat}
    (h : k.text.toList[j]? = k.text.toList[0]?) : j = 0 := by
  have hall : ∀ k ∈ all, ∀ j < 8, k.text.toList[j]? = k.text.toList[0]? → j = 0 := by decide
  refine hall k k.mem_all j (Nat.lt_of_not_le fun hle => ?_) h
  rw [List.getElem?_eq_none (Nat.le_trans (by cases k <;> decide) hle)] at h
  cases k <;> cases h

end Keyword

namespace Sequences

/-- Whether the step behind a keyword is a name, a star, or nothing that could be a name. -/
def isBehind (g : Sequences) (back : List Step) : Bool :=
  back.all g.isSilent ||
    back.head?.any fun s =>
      (s.symbol = .terminal .word && s.renamed.isNone && s.role = some .name) ||
        s.symbol = .terminal (.mark "*")

/-- Whether a keyword stands as `Head` says in a sequence of construct `c`, of which the steps
in `front` have been passed. -/
def isHead (g : Sequences) (k : Keyword) (c : Construct) (front : List Step) :
    List Step → Bool
  | [] => true
  | s :: back =>
    (s.symbol ≠ .terminal (.mark k.text) ||
      (k.kinds.any fun kind => c = .node kind) && s.role.isNone && front.all g.isSilent &&
        g.isBehind back) &&
      g.isHead k c (s :: front) back

/-- A keyword in a sequence of construct `c`: steps without a role in front of it, and behind
it a name, a star, or nothing that could be a name. -/
structure Head (g : Sequences) (k : Keyword) (c : Construct) (front : List Step) (s : Step)
    (back : List Step) : Prop where
  kind : ∃ kind ∈ k.kinds, c = .node kind
  role : s.role = none
  front : ∀ f ∈ front, g.isSilent f
  behind : g.isBehind back

theorem head_of_isHead {g : Sequences} {k : Keyword} {c : Construct}
    {passed steps front back : List Step} {s : Step} (h : g.isHead k c passed steps)
    (hsteps : steps = front ++ s :: back) (hs : s.symbol = .terminal (.mark k.text)) :
    g.Head k c (passed.reverse ++ front) s back := by
  induction front generalizing passed steps with
  | nil =>
    subst hsteps
    simp only [isHead, hs, List.nil_append, ne_eq, not_true_eq_false, decide_false,
      Bool.false_or, Bool.and_eq_true, Option.isNone_iff_eq_none, List.any_eq_true,
      decide_eq_true_eq, List.all_eq_true] at h
    obtain ⟨⟨⟨⟨hkind, hrole⟩, hfront⟩, hbehind⟩, -⟩ := h
    exact ⟨hkind, hrole, by simpa using hfront, hbehind⟩
  | cons f front ih =>
    subst hsteps
    rw [List.cons_append, isHead, Bool.and_eq_true] at h
    have := ih h.2 rfl
    rwa [List.reverse_cons, List.append_assoc] at this

/-- Whether a step names its nodes as `Naming` says. -/
def isNaming (c : Construct) (s : Step) : Bool :=
  (c ≠ .node .program || s.renamed.isNone && s.role.isNone) &&
    (Keyword.all.all fun k => s.renamed ≠ some (.token k.text) &&
      (s.renamed.isNone || s.symbol ≠ .terminal (.mark k.text) &&
        k.kinds.all fun kind => s.symbol ≠ .construct (.node kind))) &&
    (s.renamed.isSome || s.symbol ≠ .terminal .staticGet && s.symbol ≠ .terminal .templateText)

/-- How a step of construct `c` names its nodes. It makes no keyword of them, nor anything else
of a keyword and what it opens; a step of a whole text says nothing; and a terminal that holds
text but has no node by itself is given one. -/
structure Naming (c : Construct) (s : Step) : Prop where
  program : c = .node .program → s.renamed = none ∧ s.role = none
  token : ∀ k : Keyword, s.renamed ≠ some (.token k.text)
  mark : ∀ k : Keyword, s.symbol = .terminal (.mark k.text) → s.renamed = none
  opened : ∀ k : Keyword, ∀ kind ∈ k.kinds, s.symbol = .construct (.node kind) → s.renamed = none
  naked : s.symbol = .terminal .staticGet ∨ s.symbol = .terminal .templateText → s.renamed.isSome

theorem naming_of_isNaming {c : Construct} {s : Step} (h : isNaming c s) : Naming c s := by
  simp only [isNaming, Bool.and_eq_true, Bool.or_eq_true, decide_eq_true_eq,
    Option.isNone_iff_eq_none, List.all_eq_true] at h
  obtain ⟨⟨hprogram, hkeywords⟩, hnaked⟩ := h
  refine ⟨fun hc => hprogram.resolve_left (absurd hc), fun k => (hkeywords k k.mem_all).1,
    fun k hs => ?_, fun k kind hkind hs => ?_, fun hs => hnaked.resolve_right ?_⟩
  · exact (hkeywords k k.mem_all).2.resolve_right fun hall => hall.1 hs
  · exact (hkeywords k k.mem_all).2.resolve_right fun hall => hall.2 kind hkind hs
  · rintro ⟨hget, htext⟩
    exact hs.elim hget htext

def test (g : Sequences) : Bool :=
  g.all fun r => r.2.all fun q =>
    (Keyword.all.all fun k => g.isHead k r.1 [] q.steps) && q.steps.all (isNaming r.1)

end Sequences

theorem test_scriptSequences : scriptSequences.test := by
  decide +kernel

variable {c : Construct} {q : Sequence}

theorem test_of_stands (h : scriptSequences.Stands c q) :
    (∀ k, scriptSequences.isHead k c [] q.steps) ∧ ∀ s ∈ q.steps, Sequences.isNaming c s := by
  obtain ⟨r, hr, rfl, hq⟩ := h
  have htest := List.all_eq_true.1 (List.all_eq_true.1 test_scriptSequences r hr) q hq
  rw [Bool.and_eq_true, List.all_eq_true, List.all_eq_true] at htest
  exact ⟨fun k => htest.1 k k.mem_all, htest.2⟩

/-- Wherever a keyword stands, it heads a construct that it opens. -/
theorem head_of_stands (h : scriptSequences.Stands c q) {front back : List Step} {s : Step}
    (hsteps : q.steps = front ++ s :: back) {k : Keyword}
    (hs : s.symbol = .terminal (.mark k.text)) : scriptSequences.Head k c front s back :=
  Sequences.head_of_isHead ((test_of_stands h).1 k) hsteps hs

theorem naming_of_stands (h : scriptSequences.Stands c q) {s : Step} (hs : s ∈ q.steps) :
    Sequences.Naming c s :=
  Sequences.naming_of_isNaming ((test_of_stands h).2 s hs)

theorem terminals_scriptGrammar : scriptGrammar.terminals = terminals.toArray := rfl

/-- Whole texts come first. -/
theorem constructs_zero : scriptGrammar.constructs[0]? = some (.node .program) := by
  decide +kernel

/-- A terminal is a keyword if its node is one. -/
theorem mark_of_kind? : ∀ t ∈ terminals, ∀ k ∈ Keyword.all, t.kind? = some (.token k.text) →
    t = .mark k.text := by
  decide +kernel

end ScriptInventory.Script.Grammar
