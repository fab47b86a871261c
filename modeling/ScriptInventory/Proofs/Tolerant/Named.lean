import ScriptInventory.Proofs.Grammar.Script
import ScriptInventory.Proofs.Tolerant.Visit

/-!
# Trees of scripts by the names of the grammar

A sound tree of the grammar of scripts fills the steps of a sequence of its construct, and its
children are visited as the steps say (`Visit.exists_fills`). So does the root of a whole text.
-/

namespace ScriptInventory.Script.Tolerant

open Grammar

variable {x : Context}

/-! ## Symbols of trees -/

/-- The symbol that a tree stands for. -/
def Tree.symbol? (x : Context) (t : Tree) : Option Grammar.Symbol :=
  t.label.sym?.bind x.automaton.grammar.symbol?

theorem Tree.IsLeaf.symbol?_eq {t : Tree} {n : Nat} {terminal : Terminal}
    (h : t.IsLeaf x n terminal) : t.symbol? x = some (.terminal terminal) := by
  have hfound : x.automaton.grammar.terminals[n]? = some terminal := h.found
  rw [Tree.symbol?, h.label]
  change (x.automaton.grammar.terminals[n]?).map _ = _
  rw [hfound]
  rfl

theorem Tree.symbol?_of_construct {t : Tree} {n : Nat} (h : t.label = .construct n) {c : Construct}
    (hc : x.automaton.grammar.constructs[n]? = some c) : t.symbol? x = some (.construct c) := by
  rw [Tree.symbol?, h]
  change (x.automaton.grammar.constructs[n]?).map _ = _
  rw [hc]
  rfl

theorem Tree.Sound.exists_symbol (hx : x.automaton.grammar = scriptGrammar) {t : Tree}
    (h : t.Sound x) : ∃ s, t.symbol? x = some s := by
  cases h with
  | leaf h => exact ⟨_, h.symbol?_eq⟩
  | branch h _ =>
    obtain ⟨c, -, -, hc, -⟩ := stands_of_mem (hx ▸ h.mem)
    exact ⟨_, symbol?_of_construct h.label (h.construct ▸ hx ▸ hc)⟩

theorem Tree.construct_of_symbol? {t : Tree} {n : Nat} (h : t.label = .construct n)
    {c : Construct} (hc : t.symbol? x = some (.construct c)) :
    x.automaton.grammar.constructs[n]? = some c := by
  rw [Tree.symbol?, h] at hc
  obtain ⟨d, hd, heq⟩ := Option.map_eq_some_iff.1 hc
  cases heq
  exact hd

/-- Whether a branch is visible says its construct. -/
theorem Tree.IsBranch.visible_eq {t : Tree} {n : Nat} {noted filled : Production}
    (h : t.IsBranch x n noted filled) {c : Construct} (hc : t.symbol? x = some (.construct c)) :
    t.visible = isVisible c := by
  rw [h.visible, h.label]
  change (x.automaton.grammar.constructs[n]?).any _ = _
  rw [construct_of_symbol? h.label hc]
  rfl

/-- A branch under its own name. -/
theorem Tree.kind_of_symbol? {t : Tree} {n : Nat} (h : t.label = .construct n) {k : Kind}
    (hc : t.symbol? x = some (.construct (.node k))) : t.kind x = k := by
  rw [Tree.kind, h]
  dsimp only
  rw [construct_of_symbol? h hc]

/-- An extra tree is a comment. -/
theorem Tree.Sound.of_extra {t : Tree} (h : t.Sound x) (hextra : t.extra) :
    ∃ n terminal, t.IsLeaf x n terminal ∧ terminal.isExtra := by
  cases h with
  | leaf h => exact ⟨_, _, h, h.extra hextra⟩
  | branch h _ =>
    rw [h.extra] at hextra
    cases hextra

/-- A tree that stands for a terminal is a leaf. -/
theorem Tree.Sound.of_terminal (hx : x.automaton.grammar = scriptGrammar) {t : Tree}
    (h : t.Sound x) {terminal : Terminal} (hs : t.symbol? x = some (.terminal terminal)) :
    ∃ n, t.IsLeaf x n terminal := by
  cases h with
  | leaf h =>
    rw [h.symbol?_eq] at hs
    cases hs
    exact ⟨_, h⟩
  | branch h _ =>
    obtain ⟨c, -, -, hc, -⟩ := stands_of_mem (hx ▸ h.mem)
    rw [symbol?_of_construct h.label (h.construct ▸ hx ▸ hc)] at hs
    cases hs

/-- A tree that stands for a construct is a branch. -/
theorem Tree.Sound.of_construct {t : Tree} (h : t.Sound x) {c : Construct}
    (hs : t.symbol? x = some (.construct c)) : ∃ n noted filled, t.IsBranch x n noted filled := by
  cases h with
  | leaf h =>
    rw [h.symbol?_eq] at hs
    cases hs
  | branch h _ => exact ⟨_, _, _, h⟩

/-! ## Visits of children -/

/-- Children of a tree fill steps, and are visited as these say; extra trees fill none. -/
inductive Filled (x : Context) (role : Option Role) :
    List Tree → List Step → List Visit → Prop
  | nil : Filled x role [] [] []
  | extra {t : Tree} {trees : List Tree} {steps : List Step} {visits : List Visit}
      (h : t.extra) (rest : Filled x role trees steps visits) :
      Filled x role (t :: trees) steps (⟨none, none, t⟩ :: visits)
  | step {t : Tree} {trees : List Tree} {s : Step} {steps : List Step} {visits : List Visit}
      (h : t.extra = false) (symbol : t.symbol? x = some s.symbol)
      (rest : Filled x role trees steps visits) :
      Filled x role (t :: trees) (s :: steps) (⟨s.renamed, s.role.or role, t⟩ :: visits)

/-- A tree that stands for the symbol with a step's number stands for that of the step. -/
theorem Tree.Sound.symbol?_eq (hx : x.automaton.grammar = scriptGrammar) {t : Tree}
    (h : t.Sound x) {s : Grammar.Symbol} (hs : t.label.sym? =
      some (numberOf scriptGrammar.terminals scriptGrammar.constructs s)) :
    t.symbol? x = some s := by
  obtain ⟨s', hs'⟩ := h.exists_symbol hx
  rw [hs']
  rw [Tree.symbol?, hs, Option.bind_some, hx] at hs'
  rw [eq_of_symbol?_numberOf hs']

theorem filled_of_symbols (hx : x.automaton.grammar = scriptGrammar) {trees : List Tree}
    (hsound : ∀ t ∈ trees, t.Sound x) {steps : List Step}
    (hsymbols : (filling trees).map (fun t => t.label.sym?) = steps.map fun s =>
      some (numberOf scriptGrammar.terminals scriptGrammar.constructs s.symbol))
    (role : Option Role) :
    Filled x role trees steps (visits (steps.map fun s => (s.renamed, s.role)) role trees) := by
  induction trees generalizing steps with
  | nil =>
    obtain rfl := List.map_eq_nil_iff.1 hsymbols.symm
    exact .nil
  | cons t trees ih =>
    obtain ⟨ht, htrees⟩ := List.forall_mem_cons.1 hsound
    rw [visits]
    cases hextra : t.extra with
    | true =>
      rw [if_pos rfl]
      rw [filling, List.filter_cons_of_neg (by simp [hextra])] at hsymbols
      exact .extra hextra (ih htrees hsymbols)
    | false =>
      rw [if_neg Bool.false_ne_true]
      rw [filling, List.filter_cons_of_pos (by simp [hextra]), List.map_cons] at hsymbols
      cases steps with
      | nil => cases hsymbols
      | cons s steps =>
        obtain ⟨hs, hrest⟩ := List.cons.inj hsymbols
        exact .step hextra (ht.symbol?_eq hx hs) (ih htrees hrest)

/-- A child that is visited is an extra tree or fills a step. -/
theorem Filled.of_mem {role : Option Role} {trees : List Tree} {steps : List Step}
    {visits : List Visit} (h : Filled x role trees steps visits) {u : Visit} (hu : u ∈ visits) :
    u.tree ∈ trees ∧ (u = ⟨none, none, u.tree⟩ ∧ u.tree.extra ∨
      ∃ s ∈ steps, u = ⟨s.renamed, s.role.or role, u.tree⟩ ∧ u.tree.extra = false ∧
        u.tree.symbol? x = some s.symbol) := by
  induction h with
  | nil => cases hu
  | extra h _ ih =>
    rcases List.mem_cons.1 hu with rfl | hu
    · exact ⟨List.mem_cons_self, .inl ⟨rfl, h⟩⟩
    · obtain ⟨hmem, hcases⟩ := ih hu
      exact ⟨List.mem_cons_of_mem _ hmem, hcases⟩
  | step h symbol _ ih =>
    rcases List.mem_cons.1 hu with rfl | hu
    · exact ⟨List.mem_cons_self, .inr ⟨_, List.mem_cons_self, rfl, h, symbol⟩⟩
    · obtain ⟨hmem, hcases⟩ := ih hu
      refine ⟨List.mem_cons_of_mem _ hmem, hcases.imp_right ?_⟩
      rintro ⟨s, hs, hrest⟩
      exact ⟨s, List.mem_cons_of_mem _ hs, hrest⟩

/-- A child that fills a step stands between those that fill the steps around it. -/
theorem Filled.split {role : Option Role} {trees : List Tree} {steps : List Step}
    {visits : List Visit} (h : Filled x role trees steps visits) {u : Visit} (hu : u ∈ visits)
    (hextra : u.tree.extra = false) :
    ∃ before after front s back passed left, trees = before ++ u.tree :: after ∧
      steps = front ++ s :: back ∧ visits = passed ++ u :: left ∧
      Filled x role before front passed ∧ Filled x role after back left ∧
      u = ⟨s.renamed, s.role.or role, u.tree⟩ ∧ u.tree.symbol? x = some s.symbol := by
  induction h with
  | nil => cases hu
  | @extra t trees steps visits h _ ih =>
    rcases List.mem_cons.1 hu with rfl | hu
    · rw [h] at hextra
      cases hextra
    · obtain ⟨before, after, front, s, back, passed, left, rfl, rfl, rfl, hbefore, hafter, hu⟩ :=
        ih hu
      exact ⟨t :: before, after, front, s, back, _ :: passed, left, rfl, rfl, rfl,
        .extra h hbefore, hafter, hu⟩
  | @step t trees s steps visits h symbol rest ih =>
    rcases List.mem_cons.1 hu with rfl | hu
    · exact ⟨[], trees, [], s, steps, [], visits, rfl, rfl, rfl, .nil, rest, rfl, symbol⟩
    · obtain ⟨before, after, front, s', back, passed, left, rfl, rfl, rfl, hbefore, hafter, hu⟩ :=
        ih hu
      exact ⟨t :: before, after, s :: front, s', back, _ :: passed, left, rfl, rfl, rfl,
        .step h symbol hbefore, hafter, hu⟩

/-- A visit whose tree fills a sequence of a construct. -/
structure Visit.Fills (x : Context) (v : Visit) (c : Construct) (q : Sequence) : Prop where
  stands : scriptSequences.Stands c q
  filled : Filled x (if v.hasNode then none else v.role) v.tree.children q.steps (v.below x)

/-- A branch fills a sequence of its construct. -/
theorem Visit.exists_fills (hx : x.automaton.grammar = scriptGrammar) {v : Visit}
    {n : Nat} {noted filled : Production} (h : v.tree.IsBranch x n noted filled)
    (below : ∀ u ∈ v.tree.children, u.Sound x) :
    ∃ c q, v.tree.symbol? x = some (.construct c) ∧ v.Fills x c q := by
  obtain ⟨c, q, hstands, hc, hslots⟩ := stands_of_mem (hx ▸ h.mem)
  refine ⟨c, q, Tree.symbol?_of_construct h.label (h.construct ▸ hx ▸ hc), hstands, ?_⟩
  have hnames : v.tree.names x = q.steps.map fun s => (s.renamed, s.role) := by
    rw [Tree.names, h.production, Option.map_some, Option.getD_some, ← h.names, hslots,
      List.map_map]
    rfl
  have hsymbols := h.symbols
  rw [hslots, List.map_map] at hsymbols
  rw [Visit.below, hnames]
  exact filled_of_symbols hx below hsymbols _

/-! ## Whole texts -/

/-- Steps that say nothing are as good as none. -/
theorem visits_of_bare {names : List (Option Kind × Option Role)}
    (h : ∀ name ∈ names, name = (none, none)) (trees : List Tree) :
    visits names none trees = visits [] none trees := by
  induction trees generalizing names with
  | nil => rfl
  | cons t trees ih =>
    rw [visits, visits, ih h]
    cases names with
    | nil => rfl
    | cons name names =>
      obtain ⟨rfl, hnames⟩ := List.forall_mem_cons.1 h
      rw [List.tail_cons, List.tail_nil, ih hnames]
      rfl

/-- The children of a whole text are sound. -/
theorem IsRoot.sound {t : Tree} (h : IsRoot x t) : ∀ u ∈ t.children, u.Sound x := by
  obtain ⟨before, inner, after, whole, hchildren, hwhole, hlabel, rfl, hextra⟩ := h.children
  intro u hu
  rw [hchildren, List.mem_append, List.mem_append] at hu
  rcases hu with (hu | hu) | hu
  · exact (hextra u (List.mem_append_left _ hu)).1
  · exact hwhole.children u hu
  · exact (hextra u (List.mem_append_right _ hu)).1

def Visit.ofRoot (t : Tree) : Visit := ⟨none, none, t⟩

/-- A finished reading has a node. -/
theorem IsFinished.hasNode (hx : x.automaton.grammar = scriptGrammar) {t : Tree}
    (h : IsFinished x t) : (Visit.ofRoot t).hasNode := by
  have hvisible : t.visible = true := by
    rw [h.visible]
    rcases h.label with hlabel | hlabel
    · rw [hlabel]
      change (x.automaton.grammar.constructs[0]?).any _ = true
      rw [hx, constructs_zero]
      rfl
    · rw [hlabel]
      rfl
  rw [Visit.hasNode, Visit.ofRoot, hvisible]
  rfl

theorem IsRoot.isFinished {t : Tree} (h : IsRoot x t) : IsFinished x t :=
  ⟨.inl h.label, h.visible, fun _ => h⟩

/-- A finished reading gives one node. -/
theorem IsFinished.nodes_eq (hx : x.automaton.grammar = scriptGrammar) {t : Tree}
    (h : IsFinished x t) : (Visit.ofRoot t).nodes x = [t.toNode x] ∧
      t.toNode x = (Visit.ofRoot t).node x := by
  have hnodes := Visit.nodes_of_hasNode (x := x) (h.hasNode hx)
  have hroot : t.toNode x = (Visit.ofRoot t).node x := by
    rw [Tree.toNode, show t.nodes x none none = [(Visit.ofRoot t).node x] from hnodes]
    rfl
  exact ⟨hroot ▸ hnodes, hroot⟩

/-- A whole text fills a sequence of its construct. -/
theorem IsRoot.exists_fills (hx : x.automaton.grammar = scriptGrammar) {t : Tree}
    (h : IsRoot x t) : ∃ q, (Visit.ofRoot t).Fills x (.node .program) q := by
  obtain ⟨before, inner, after, whole, hchildren, hwhole, hlabel, rfl, hextra⟩ := h.children
  cases hwhole with
  | leaf hleaf =>
    rw [hleaf.label] at hlabel
    cases hlabel
  | @branch _ n noted filled hbranch _ =>
    obtain ⟨c, q, hstands, hc, hslots⟩ := stands_of_mem (hx ▸ hbranch.mem)
    -- construct 0 is the whole text
    obtain rfl : n = 0 := Label.construct.inj (hbranch.label.symm.trans hlabel)
    rw [hbranch.construct, constructs_zero] at hc
    cases hc
    refine ⟨q, hstands, ?_⟩
    have hsymbols := hbranch.symbols
    rw [hslots, List.map_map] at hsymbols
    -- the trees before and after are comments, so the sequence is filled by what is between
    have hnone : ∀ trees : List Tree, (∀ u ∈ trees, u ∈ before ++ after) → filling trees = [] :=
      fun trees hall => List.filter_eq_nil_iff.2 fun u hu => by
        rw [(hextra u (hall u hu)).2]
        exact Bool.false_ne_true
    have hfilling : filling t.children = filling whole.children := by
      rw [hchildren, filling, List.filter_append, List.filter_append]
      rw [show before.filter (fun u => !u.extra) = [] from hnone before fun u hu =>
          List.mem_append_left _ hu,
        show after.filter (fun u => !u.extra) = [] from hnone after fun u hu =>
          List.mem_append_right _ hu, List.nil_append, List.append_nil]
      rfl
    rw [← hfilling] at hsymbols
    have hfilled := filled_of_symbols hx h.sound hsymbols none
    -- no name of the sequence gives a role, and none renames
    rw [visits_of_bare fun name hname => ?_] at hfilled
    · have hnode := h.isFinished.hasNode hx
      rw [hnode, if_pos rfl, Visit.below, hnode, if_pos rfl]
      have hnames : t.names x = [] := by
        rw [Tree.names, h.production]
        rfl
      rw [Visit.ofRoot]
      dsimp only
      rw [hnames]
      exact hfilled
    · obtain ⟨s, hs, rfl⟩ := List.mem_map.1 hname
      obtain ⟨hrenamed, hrole⟩ := (naming_of_stands hstands hs).program rfl
      rw [hrenamed, hrole]

/-! ## What is visited below a whole text -/

/-- A sound tree that is an extra one and has no names, or has those of a step that it fills. -/
structure Visit.IsFit (x : Context) (v : Visit) : Prop where
  sound : v.tree.Sound x
  named : v.renamed = none ∧ v.tree.extra ∨ ∃ c q, scriptSequences.Stands c q ∧ ∃ s ∈ q.steps,
    v.tree.symbol? x = some s.symbol ∧ v.renamed = s.renamed ∧ v.tree.extra = false

theorem Visit.Fills.isFit {v u : Visit} {c : Construct} {q : Sequence} (h : v.Fills x c q)
    (hsound : ∀ t ∈ v.tree.children, t.Sound x) (hu : u ∈ v.below x) : u.IsFit x := by
  obtain ⟨hmem, ⟨heq, hextra⟩ | ⟨s, hs, heq, hextra, hsymbol⟩⟩ := h.filled.of_mem hu
  · exact ⟨hsound _ hmem, .inl ⟨congrArg Visit.renamed heq, hextra⟩⟩
  · exact ⟨hsound _ hmem, .inr ⟨c, q, h.stands, s, hs, hsymbol, congrArg Visit.renamed heq,
      hextra⟩⟩

/-- What comes below a fit visit. -/
theorem Visit.IsFit.exists_fills (hx : x.automaton.grammar = scriptGrammar) {v u : Visit}
    (h : v.IsFit x) (hu : u ∈ v.below x) :
    ∃ c q, v.tree.symbol? x = some (.construct c) ∧ v.Fills x c q ∧ u.IsFit x := by
  obtain ⟨renamed, role, t⟩ := v
  obtain ⟨hsound, -⟩ := h
  cases hsound with
  | leaf hleaf =>
    rw [below] at hu
    dsimp only at hu hleaf
    rw [hleaf.children] at hu
    cases hu
  | branch hbranch below =>
    obtain ⟨c, q, hc, hfills⟩ := Visit.exists_fills (v := ⟨renamed, role, t⟩) hx hbranch below
    exact ⟨c, q, hc, hfills, hfills.isFit below hu⟩

theorem IsRoot.isFit_of_leads (hx : x.automaton.grammar = scriptGrammar) {t : Tree}
    (h : IsRoot x t) {v : Visit} (hv : (Visit.ofRoot t).Leads x v) :
    v = .ofRoot t ∨ v.IsFit x := by
  induction hv with
  | refl => exact .inl rfl
  | tail _ hu ih =>
    right
    rcases ih with rfl | hfit
    · obtain ⟨q, hfills⟩ := h.exists_fills hx
      exact hfills.isFit h.sound hu
    · obtain ⟨-, -, -, -, hu⟩ := hfit.exists_fills hx hu
      exact hu

/-- A leaf below a whole text, and the construct that it is part of. -/
structure LeafBelow (x : Context) (root : Tree) (w u : Visit) (c : Construct) (q : Sequence)
    (n : Nat) (terminal : Terminal) : Prop where
  leads : (Visit.ofRoot root).Leads x w
  mem : u ∈ w.below x
  fills : w.Fills x c q
  construct : c = .node .program ∨ w.IsFit x ∧ w.tree.symbol? x = some (.construct c)
  isFit : u.IsFit x
  leaf : u.tree.IsLeaf x n terminal

/-- The blanks in front of a leaf hold nothing else. -/
theorem Tree.IsLeaf.start_le {text : String} (htext : x.text = .ofString text) {t : Tree}
    {n : Nat} {terminal : Terminal} (h : t.IsLeaf x n terminal) {k : Nat} (hk : t.Covers k)
    {c : Char} (hchar : text.toList[k]? = some c) (hc : isBlank c = false) : t.start ≤ k := by
  refine Nat.le_of_not_lt fun hlt => ?_
  have hblank := h.shows.blank c
  rw [htext, Text.between_ofString, hc] at hblank
  refine absurd (hblank ?_) Bool.false_ne_true
  refine List.mem_of_getElem? (i := k - t.reach) ?_
  rw [List.getElem?_take, if_pos (by have := hk.1; omega), List.getElem?_drop,
    Nat.add_sub_cancel' hk.1, hchar]

/-- Every character that is no blank is in a leaf. -/
theorem IsRoot.exists_leafBelow {text : String} (hx : x.automaton.grammar = scriptGrammar)
    (htext : x.text = .ofString text) {root : Tree} (h : IsRoot x root) {k : Nat} {ch : Char}
    (hchar : text.toList[k]? = some ch) (hblank : isBlank ch = false) :
    ∃ w u c q n terminal, LeafBelow x root w u c q n terminal ∧
      u.tree.start ≤ k ∧ k < u.tree.stop := by
  obtain ⟨stop, habreast, hbehind⟩ := h.abreast
  have hk : k < stop := by
    refine Nat.lt_of_not_le fun hle => ?_
    have := hbehind ch
    rw [htext, Text.rest_ofString, hblank] at this
    refine absurd (this (List.mem_of_getElem? (i := k - stop) ?_)) Bool.false_ne_true
    rw [List.getElem?_drop, Nat.add_sub_cancel' hle, hchar]
  obtain ⟨t, ht, hcovers⟩ := habreast.exists_covers (Nat.zero_le k) hk
  obtain ⟨u, hu, rfl⟩ : ∃ u ∈ (Visit.ofRoot root).below x, u.tree = t := exists_mem_visits _ _ ht
  obtain ⟨w, hleads, v, hv, ⟨n, terminal, hleaf⟩, hcovers⟩ : ∃ w, (Visit.ofRoot root).Leads x w ∧
      ∃ v ∈ w.below x, (∃ n terminal, v.tree.IsLeaf x n terminal) ∧ v.tree.Covers k := by
    rcases (h.sound u.tree ht).exists_leaf hcovers u rfl with hleaf | ⟨w, hleads, hw⟩
    · exact ⟨_, .refl, u, hu, hleaf, hcovers⟩
    · exact ⟨w, .head hu hleads, hw⟩
  have hstart := hleaf.start_le htext hcovers hchar hblank
  rcases h.isFit_of_leads hx hleads with rfl | hfit
  · obtain ⟨q, hfills⟩ := h.exists_fills hx
    exact ⟨_, v, _, q, n, terminal,
      ⟨hleads, hv, hfills, .inl rfl, hfills.isFit h.sound hv, hleaf⟩, hstart, hcovers.2⟩
  · obtain ⟨c, q, hc, hfills, hvfit⟩ := hfit.exists_fills hx hv
    exact ⟨w, v, c, q, n, terminal,
      ⟨hleads, hv, hfills, .inr ⟨hfit, hc⟩, hvfit, hleaf⟩, hstart, hcovers.2⟩

end ScriptInventory.Script.Tolerant
