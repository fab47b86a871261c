import ScriptInventory.Proofs.Pattern.Keyword
import ScriptInventory.Proofs.Tolerant.Drive
import ScriptInventory.Proofs.Tolerant.Named

/-!
# Keywords in trees of scripts

The tree of a text that the tolerant reader reads without damage accounts for every place at
which the pattern of a keyword matches (`accounted_of_read`).

* A leaf covers the place. Unless it is the keyword itself, it has a node that holds the first
  letter (`Visit.holds_of_leaf`).
* If it is, it heads a sequence of what the keyword opens, and the step behind it is a name, or
  nothing of that sequence is one (`LeafBelow.opens`). What comes next in the text is what the
  pattern finds (`names_of_filled`), which no comment and no sign can begin.
-/

namespace ScriptInventory.Script.Tolerant

open Grammar

variable {x : Context} {text : String}

/-! ## Nodes without a role -/

/-- The nodes of a tree that stands for a quiet symbol play no role, unless the tree does. -/
theorem Visit.role_of_isQuiet (hx : x.automaton.grammar = scriptGrammar) {t : Tree}
    (h : t.Sound x) {v : Visit} (hv : v.tree = t) {s : Grammar.Symbol}
    (hs : t.symbol? x = some s) (hquiet : scriptSequences.isQuiet s) (hrole : v.role = none) :
    ∀ n ∈ v.nodes x, n.role = none := by
  induction h generalizing v s with
  | @leaf t m terminal hleaf =>
    cases hnode : v.hasNode with
    -- a tree with a node of its own: that node is the only one, and has the role of the visit
    | true =>
      rw [nodes_of_hasNode hnode]
      intro n hn
      obtain rfl := List.mem_singleton.1 hn
      exact hrole
    | false =>
      rw [nodes_of_not hnode, below, hv, hleaf.children]
      simp [visits]
  | @branch t m noted filled hbranch hbelow ih =>
    cases hnode : v.hasNode with
    | true =>
      rw [nodes_of_hasNode hnode]
      intro n hn
      obtain rfl := List.mem_singleton.1 hn
      exact hrole
    -- a tree without one, whose children stand for the symbols of a sequence
    | false =>
      subst hv
      obtain ⟨c, q, hc, hfills⟩ := Visit.exists_fills hx hbranch hbelow
      obtain rfl := Option.some.inj (hc.symm.trans hs)
      rw [nodes_of_not hnode]
      intro n hn
      obtain ⟨u, hu, hn⟩ := List.mem_flatMap.1 hn
      obtain ⟨hmem, hcases⟩ := hfills.filled.of_mem hu
      rcases hcases with ⟨heq, hextra⟩ | ⟨s, hmems, heq, -, hs⟩
      · -- a comment, which stands for no symbol of the sequence
        obtain ⟨_, _, hleaf, -⟩ := (hbelow u.tree hmem).of_extra hextra
        exact ih u.tree hmem rfl hleaf.symbol?_eq rfl (congrArg Visit.role heq) n hn
      · -- a symbol of the sequence, which gives no role since the construct is quiet
        have hhidden : isVisible c = false := by
          rw [← hbranch.visible_eq hc]
          exact (Bool.or_eq_false_iff.1 hnode).1
        obtain ⟨hstep, hquiet⟩ := Sequences.quiet_of_stands hfills.stands hquiet hhidden hmems
        refine ih u.tree hmem rfl hs hquiet ?_ n hn
        rw [heq, hstep, hnode, if_neg Bool.false_ne_true, hrole]
        rfl

/-- Nor do those of trees that fill silent steps. -/
theorem Filled.role_of_isSilent (hx : x.automaton.grammar = scriptGrammar) {trees : List Tree}
    (hsound : ∀ t ∈ trees, t.Sound x) {steps : List Step} {visits : List Visit}
    (h : Filled x none trees steps visits) (hsilent : ∀ s ∈ steps, scriptSequences.isSilent s) :
    ∀ n ∈ visits.flatMap (Visit.nodes x), n.role = none := by
  intro n hn
  obtain ⟨u, hu, hn⟩ := List.mem_flatMap.1 hn
  obtain ⟨hmem, ⟨heq, hextra⟩ | ⟨s, hs, heq, -, hsymbol⟩⟩ := h.of_mem hu
  · obtain ⟨_, _, hleaf, -⟩ := (hsound u.tree hmem).of_extra hextra
    exact Visit.role_of_isQuiet hx (hsound u.tree hmem) rfl hleaf.symbol?_eq rfl
      (congrArg Visit.role heq) n hn
  · have hs := hsilent s hs
    rw [Sequences.isSilent, Bool.and_eq_true, Option.isNone_iff_eq_none] at hs
    refine Visit.role_of_isQuiet hx (hsound u.tree hmem) rfl hsymbol hs.2 ?_ n hn
    rw [heq, hs.1]
    rfl

/-! ## Leaves -/

/-- Between two positions stands what is read there. -/
theorem getElem?_between {i j k : Nat} (hi : i ≤ k) (hj : k < j) :
    ((Text.ofString text).between i j)[k - i]? = text.toList[k]? := by
  rw [Text.between_ofString, List.getElem?_take, if_pos (by omega), List.getElem?_drop,
    Nat.add_sub_cancel' hi]

/-- The text of a leaf's node is what the leaf covers. -/
theorem Visit.text_of_leaf (htext : x.text = .ofString text) {u : Visit} {n : Nat}
    {terminal : Terminal} (h : u.tree.IsLeaf x n terminal) : (u.node x).text.toList =
      (Text.ofString text).between u.tree.start u.tree.stop := by
  have hcond : (u.tree.children.isEmpty || u.renamed.getD (u.tree.kind x) = .string) = true := by
    rw [h.children]
    rfl
  rw [Visit.node]
  dsimp only
  rw [Tree.source, if_pos hcond, String.toList_ofList, htext]

/-- The node of a leaf holds what the leaf covers. -/
theorem Visit.holds_of_leaf (htext : x.text = .ofString text) {u : Visit} {n : Nat}
    {terminal : Terminal} (h : u.tree.IsLeaf x n terminal) {i : Nat} (hi : i < text.toList.length)
    (hstart : u.tree.start ≤ i) (hstop : i < u.tree.stop) :
    (u.node x).Holds text.toList i := by
  have hsource := Visit.text_of_leaf htext h
  rw [Text.between_ofString] at hsource
  refine ⟨?_, text.toList.take u.tree.start, text.toList.drop u.tree.stop, ?_, ?_, ?_, ?_⟩
  · rw [Visit.node]
    dsimp only
    rw [Visit.below, h.children]
    simp [visits]
  · rw [hsource, ← Nat.add_sub_cancel' h.shows.start_le, Nat.add_sub_cancel_left, ← List.drop_drop,
      List.take_append_drop, List.take_append_drop]
  · rw [Visit.node]
    dsimp only
    rw [htext, Text.place_ofString text (by omega)]
  · rw [List.length_take]
    omega
  · rw [hsource, List.length_take, List.length_take, List.length_drop]
    omega

/-- What the visit of a fit leaf gives, unless the leaf is empty or a sign. -/
theorem LeafBelow.hasNode {root : Tree} {w u : Visit} {c : Construct} {q : Sequence} {n : Nat}
    {terminal : Terminal} (htext : x.text = .ofString text)
    (h : LeafBelow x root w u c q n terminal) {i : Nat} {ch : Char}
    (hchar : text.toList[i]? = some ch) (hch : ch ≠ '?' ∧ ch ≠ '/')
    (hstart : u.tree.start ≤ i) (hstop : i < u.tree.stop) : u.hasNode := by
  have hreads := h.leaf.shows.reads
  have hmem : ch ∈ x.text.between u.tree.start u.tree.stop :=
    List.mem_of_getElem? (by rw [htext, getElem?_between hstart hstop, hchar])
  cases hkind : terminal.kind? with
  | some kind => rw [Visit.hasNode, h.leaf.visible, hkind]; rfl
  | none =>
    -- the leaf is not empty, hence one of the two that have a node by their name
    have hnaked : terminal = .staticGet ∨ terminal = .templateText := by
      cases terminal with
      | staticGet => exact .inl rfl
      | templateText => exact .inr rfl
      | endOfText | lineEnd =>
        have hempty : x.text.between u.tree.start u.tree.stop = [] := by
          first | exact hreads.1 | exact hreads
        rw [hempty] at hmem
        cases hmem
      | questionMark =>
        rw [show x.text.between u.tree.start u.tree.stop = ['?'] from hreads] at hmem
        exact absurd (List.mem_singleton.1 hmem) hch.1
      | regexClose =>
        rw [show x.text.between u.tree.start u.tree.stop = ['/'] from hreads] at hmem
        exact absurd (List.mem_singleton.1 hmem) hch.2
      | _ => cases hkind
    rcases h.isFit.named with ⟨-, hextra⟩ | ⟨d, r, hstands, s, hs, hsymbol, hrenamed, -⟩
    · have := h.leaf.extra hextra
      rcases hnaked with rfl | rfl <;> cases this
    · rw [h.leaf.symbol?_eq] at hsymbol
      rw [Visit.hasNode, hrenamed, (naming_of_stands hstands hs).naked, Bool.or_true]
      rcases hnaked with rfl | rfl
      · exact .inl (Option.some.inj hsymbol).symm
      · exact .inr (Option.some.inj hsymbol).symm

/-! ## Where nodes are placed -/

/-- The node of whatever is visited below a whole text is placed in its tree. -/
theorem exists_placed (hx : x.automaton.grammar = scriptGrammar) {root : Tree}
    (h : IsRoot x root) {v : Visit} (hleads : (Visit.ofRoot root).Leads x v) (hv : v.hasNode) :
    ∃ parent, (parent, v.node x) ∈ (root.toNode x).placed none := by
  obtain ⟨parent, hparent⟩ := Visit.placed_of_leads hleads none
  refine ⟨parent, ?_⟩
  have hmem := hparent (parent, v.node x) ?_
  · rwa [(h.isFinished.nodes_eq hx).1, List.flatMap_singleton] at hmem
  · rw [Visit.nodes_of_hasNode hv, List.flatMap_singleton, Node.placed_eq]
    exact List.mem_cons_self

/-! ## Leaves that are no keyword -/

theorem Tree.IsLeaf.kind_eq {t : Tree} {n : Nat} {terminal : Terminal}
    (h : t.IsLeaf x n terminal) : t.kind x = terminal.kind?.getD .error := by
  have hfound : x.automaton.grammar.terminals[n]? = some terminal := h.found
  rw [Tree.kind, h.label]
  dsimp only
  rw [hfound]
  rfl

theorem Tree.IsLeaf.mem_terminals (hx : x.automaton.grammar = scriptGrammar) {t : Tree} {n : Nat}
    {terminal : Terminal} (h : t.IsLeaf x n terminal) : terminal ∈ terminals := by
  have hfound : x.automaton.grammar.terminals[n]? = some terminal := h.found
  rw [hx] at hfound
  exact List.mem_toArray.1 (Array.mem_of_getElem? hfound)

/-- The node of a leaf that is no keyword is none either. -/
theorem LeafBelow.kind_ne (hx : x.automaton.grammar = scriptGrammar) {root : Tree} {w u : Visit}
    {c : Construct} {q : Sequence} {n : Nat} {terminal : Terminal}
    (h : LeafBelow x root w u c q n terminal) {k : Keyword} (hk : terminal ≠ .mark k.text) :
    (u.node x).kind ≠ .token k.text := by
  change u.renamed.getD (u.tree.kind x) ≠ _
  have hplain : u.renamed = none → u.renamed.getD (u.tree.kind x) ≠ .token k.text := by
    intro hrenamed
    rw [hrenamed, Option.getD_none, h.leaf.kind_eq]
    intro heq
    cases hkind : terminal.kind? with
    | none =>
      rw [hkind] at heq
      cases heq
    | some kind =>
      rw [hkind, Option.getD_some] at heq
      exact hk (mark_of_kind? terminal (h.leaf.mem_terminals hx) k k.mem_all (heq ▸ hkind))
  rcases h.isFit.named with ⟨hrenamed, -⟩ | ⟨d, r, hstands, s, hs, -, hrenamed, -⟩
  · exact hplain hrenamed
  · cases hkind : s.renamed with
    | none => exact hplain (hrenamed.trans hkind)
    | some kind =>
      rw [hrenamed, hkind, Option.getD_some]
      exact fun heq => (naming_of_stands hstands hs).token k (heq ▸ hkind)

/-! ## Keywords -/

/-- A leaf that is a keyword stands where the keyword does. -/
theorem keyword_start (htext : x.text = .ofString text) {t : Tree} {n : Nat} {k : Keyword}
    (h : t.IsLeaf x n (.mark k.text)) {i : Nat} {behind : List Char} (hne : behind ≠ [])
    (hkeyword : text.toList.drop i = k.text.toList ++ behind)
    (hstart : t.start ≤ i) (hstop : i < t.stop) :
    t.start = i ∧ text.toList.drop t.stop = behind := by
  have hreads : (Text.ofString text).between t.start t.stop = k.text.toList :=
    htext ▸ h.shows.reads
  have hfirst : k.text.toList[i - t.start]? = k.text.toList[0]? := by
    rw [← hreads, getElem?_between hstart hstop, hreads, ← Nat.add_zero i, ← List.getElem?_drop,
      hkeyword, List.getElem?_append_left (by cases k <;> decide)]
  have hi : t.start = i := by
    have := Keyword.eq_zero_of_getElem? hfirst
    omega
  refine ⟨hi, ?_⟩
  rw [hi, Text.between_ofString, hkeyword] at hreads
  have hlength := congrArg List.length hreads
  rw [List.length_take, List.length_append] at hlength
  have hpos := List.length_pos_of_ne_nil hne
  have hstop' : t.stop = i + k.text.toList.length := by omega
  rw [hstop', ← List.drop_drop, hkeyword, List.drop_left]

/-- A lexeme that comes next behind a keyword starts as its pattern says. -/
theorem head_of_shows {k : Keyword} {behind blanks name rest : List Char}
    (h : k.Behind behind blanks name rest) {terminal : Terminal} {reach start stop : Nat}
    (hshows : (Text.ofString text).Shows terminal reach start stop)
    (hreach : text.toList.drop reach = behind) {c : Char}
    (hc : ((Text.ofString text).between start stop).head? = some c) :
    Text.isWhiteSpace c ∨ Pattern.isNamePart c := by
  obtain ⟨more, rfl, hsuffix⟩ := h.exists_suffix (hreach ▸ hshows.split) hshows.blank
  refine h.head_of_suffix (fun d hd => h.blank d (List.mem_append_right _ hd)) (c := c) ?_
  rw [← hsuffix, List.head?_append, hc, Option.some_or]

/-- A comment starts with a sign. -/
theorem head_of_isExtra {w rest : List Char} {terminal : Terminal} (h : Reads w rest terminal)
    (hextra : terminal.isExtra) : ∃ c, w.head? = some c ∧ c ∈ ['/', '<', '-'] := by
  cases terminal with
  | comment => exact ⟨'/', h, by decide⟩
  | markupComment =>
    obtain ⟨c, hc, hsign⟩ := (Option.any_eq_true _ _).1 h
    refine ⟨c, hc, ?_⟩
    rw [Bool.or_eq_true, decide_eq_true_eq, decide_eq_true_eq] at hsign
    rcases hsign with rfl | rfl <;> decide
  | _ => cases hextra

/-- No name and no white space starts with a sign. -/
theorem not_sign {c : Char} (h : Text.isWhiteSpace c ∨ Pattern.isNamePart c) :
    c ∉ ['/', '<', '-', '*'] := by
  intro hc
  simp only [List.mem_cons, List.not_mem_nil, or_false] at hc
  rcases hc with rfl | rfl | rfl | rfl <;> exact absurd h (by decide)

/-- What comes next behind a keyword does not start with a sign. -/
theorem not_sign_of_leaf (htext : x.text = .ofString text) {k : Keyword}
    {behind blanks name rest : List Char} (hbehind : k.Behind behind blanks name rest) {t : Tree}
    {m : Nat} {terminal : Terminal} (hleaf : t.IsLeaf x m terminal)
    (hreach : text.toList.drop t.reach = behind) {c : Char}
    (hc : (x.text.between t.start t.stop).head? = some c) : c ∉ ['/', '<', '-', '*'] := by
  have hshows := hleaf.shows
  rw [htext] at hshows hc
  exact not_sign (head_of_shows hbehind hshows hreach hc)

/-- A word that comes next behind a keyword is named by the pattern. -/
theorem Visit.names_of_word (htext : x.text = .ofString text) {k : Keyword}
    {behind blanks name rest : List Char} (hbehind : k.Behind behind blanks name rest)
    {u : Visit} {m : Nat} (hleaf : u.tree.IsLeaf x m .word)
    (hreach : text.toList.drop u.tree.reach = behind) :
    ∀ d ∈ Declaration.nonempty (String.ofList (Text.trim (u.node x).text.toList)),
      k.Names name d := by
  have hshows := hleaf.shows
  rw [htext] at hshows
  have hends := (Lexeme.wordTail_endsWord ((Text.ofString text).between u.tree.start u.tree.stop ++
    (Text.ofString text).rest u.tree.stop)).1
  rw [hshows.reads.2] at hends
  rw [Visit.text_of_leaf htext hleaf]
  exact hbehind.names_of_word (hreach ▸ hshows.split) hshows.blank hends

/-- What is behind a keyword as its name, if anything is, is named by the pattern. -/
theorem names_of_filled (hx : x.automaton.grammar = scriptGrammar)
    (htext : x.text = .ofString text) {k : Keyword} {behind blanks name rest : List Char}
    (hbehind : k.Behind behind blanks name rest) {trees : List Tree} {start stop : Nat}
    (habreast : Abreast start trees stop) (hstart : text.toList.drop start = behind)
    (hsound : ∀ t ∈ trees, t.Sound x) {back : List Step} {visits : List Visit}
    (hfilled : Filled x none trees back visits) (hback : scriptSequences.isBehind back)
    {named : Node}
    (hnamed : (visits.flatMap (Visit.nodes x)).find? (fun n => n.role = some .name) = some named) :
    ∀ d ∈ Declaration.nonempty (String.ofList (Text.trim named.text.toList)), k.Names name d := by
  have hsilent : ¬∀ s ∈ back, scriptSequences.isSilent s := by
    intro hall
    have hrole := hfilled.role_of_isSilent hx hsound hall named (List.mem_of_find?_eq_some hnamed)
    have := List.find?_some hnamed
    rw [hrole] at this
    cases this
  cases hfilled with
  | nil => cases hnamed
  | @extra t trees _ visits hextra _ =>
    -- a comment does not start like white space or a name
    obtain ⟨m, terminal, hleaf, hterminal⟩ := (hsound t List.mem_cons_self).of_extra hextra
    obtain ⟨c, hc, hsign⟩ := head_of_isExtra hleaf.shows.reads hterminal
    refine absurd ?_ (not_sign_of_leaf htext hbehind hleaf (habreast.1 ▸ hstart) hc)
    exact List.mem_append_left ['*'] hsign
  | @step t trees s steps visits hextra hsymbol _ =>
    rw [Sequences.isBehind, Bool.or_eq_true, List.all_eq_true] at hback
    rcases Bool.or_eq_true_iff.1 (hback.resolve_left hsilent) with hname | hstar
    · simp only [Bool.and_eq_true, decide_eq_true_eq, Option.isNone_iff_eq_none] at hname
      obtain ⟨⟨hword, -⟩, hrole⟩ := hname
      obtain ⟨m, hleaf⟩ := (hsound t List.mem_cons_self).of_terminal hx (hword ▸ hsymbol)
      obtain ⟨u, hu⟩ : ∃ u : Visit, u = ⟨s.renamed, s.role.or none, t⟩ := ⟨_, rfl⟩
      have hnode : u.hasNode := by
        rw [hu, Visit.hasNode, hleaf.visible]
        rfl
      have hfound : named = u.node x := by
        rw [← hu, List.flatMap_cons, Visit.nodes_of_hasNode hnode, List.singleton_append,
          List.find?_cons_of_pos (by simp [hu, Visit.node, hrole])] at hnamed
        exact (Option.some.inj hnamed).symm
      obtain rfl : u.tree = t := congrArg Visit.tree hu
      rw [hfound]
      exact Visit.names_of_word htext hbehind hleaf (habreast.1 ▸ hstart)
    · obtain ⟨m, hleaf⟩ := (hsound t List.mem_cons_self).of_terminal hx
        (of_decide_eq_true hstar ▸ hsymbol)
      have hc : (x.text.between t.start t.stop).head? = some '*' := by
        rw [show x.text.between t.start t.stop = ['*'] from hleaf.shows.reads]
        rfl
      exact absurd (by decide) (not_sign_of_leaf htext hbehind hleaf (habreast.1 ▸ hstart) hc)

/-- A construct that a keyword opens has a node of its own kind. -/
theorem Visit.IsFit.kind_of_opened {w : Visit} (h : w.IsFit x) {k : Keyword} {kind : Kind}
    (hkind : kind ∈ k.kinds) (hw : w.tree.symbol? x = some (.construct (.node kind))) :
    w.hasNode ∧ (w.node x).kind = kind := by
  obtain ⟨m, noted, filled, hbranch⟩ := h.sound.of_construct hw
  refine ⟨?_, ?_⟩
  · rw [hasNode, hbranch.visible_eq hw]
    rfl
  · have hrenamed : w.renamed = none := by
      rcases h.named with ⟨hrenamed, -⟩ | ⟨c, q, hstands, s, hs, hsymbol, hrenamed, -⟩
      · exact hrenamed
      · rw [hrenamed]
        exact (naming_of_stands hstands hs).opened k kind hkind
          (Option.some.inj (hsymbol.symm.trans hw))
    change w.renamed.getD (w.tree.kind x) = kind
    rw [hrenamed, Option.getD_none, Tree.kind_of_symbol? hbranch.label hw]

/-- A child in a role is looked for behind those that have another one. -/
theorem child?_eq_find? {n m : Node} {front back : List Node} (role : Role)
    (hchildren : n.children = front ++ m :: back) (hfront : ∀ k ∈ front, k.role ≠ some role)
    (hm : m.role ≠ some role) : n.child? role = back.find? fun k => k.role = some role := by
  rw [Node.child?, hchildren, List.find?_append,
    List.find?_eq_none.2 fun k hk => by simp [hfront k hk], Option.none_or,
    List.find?_cons_of_neg (by simp [hm])]

/-- The children of a node, around the one that a visit of its own gives. -/
theorem Visit.children_of_below {w u : Visit} {passed left : List Visit}
    (h : w.below x = passed ++ u :: left) (hu : u.hasNode) :
    (w.node x).children = passed.flatMap (Visit.nodes x) ++
      u.node x :: left.flatMap (Visit.nodes x) := by
  change (w.below x).flatMap (Visit.nodes x) = _
  rw [h, List.flatMap_append, List.flatMap_cons, Visit.nodes_of_hasNode hu]
  rfl

/-- A keyword below a whole text opens a node, and what that declares is named by the
pattern. -/
theorem LeafBelow.opens (hx : x.automaton.grammar = scriptGrammar)
    (htext : x.text = .ofString text) {root : Tree} (hroot : IsRoot x root) {k : Keyword}
    {w u : Visit} {c : Construct} {q : Sequence} {n : Nat}
    (h : LeafBelow x root w u c q n (.mark k.text)) {behind blanks name rest : List Char}
    (hbehind : k.Behind behind blanks name rest) (hstop : text.toList.drop u.tree.stop = behind) :
    ∃ a ∈ (root.toNode x).placed none, a.2.OpensWith k (x.text.place u.tree.start) ∧
      ∀ d ∈ Declaration.declaredName a.2, k.Names name d := by
  have hextra : u.tree.extra = false := Bool.eq_false_iff.2 fun hextra => by
    cases h.leaf.extra hextra
  obtain ⟨before, after, front, s, back, passed, left, hchildren, hsteps, hvisits, hpassed, hleft,
    hu, hsymbol⟩ := h.fills.filled.split h.mem hextra
  have hs : s.symbol = .terminal (.mark k.text) :=
    Option.some.inj (hsymbol.symm.trans h.leaf.symbol?_eq)
  have hhead := head_of_stands h.fills.stands hsteps hs
  obtain ⟨kind, hkind, rfl⟩ := hhead.kind
  obtain ⟨hfit, hw⟩ := h.construct.resolve_left fun heq => by
    cases heq
    exact absurd hkind (by cases k <;> decide)
  obtain ⟨hnode, hkindw⟩ := hfit.kind_of_opened hkind hw
  obtain ⟨parent, hplaced⟩ := exists_placed hx hroot h.leads hnode
  rw [hnode, if_pos rfl] at hpassed hleft hu
  have hunode : u.hasNode := by
    rw [Visit.hasNode, h.leaf.visible]
    rfl
  have hnodes := Visit.children_of_below hvisits hunode
  have hsound := hfit.sound.children
  rw [hchildren] at hsound
  refine ⟨_, hplaced, ⟨hkindw ▸ hkind, .inr ⟨u.node x, ?_, ?_, rfl⟩⟩, fun d hd => ?_⟩
  · rw [hnodes]
    simp
  · change u.renamed.getD (u.tree.kind x) = _
    rw [hu, h.leaf.kind_eq]
    rw [(naming_of_stands h.fills.stands (hsteps ▸ by simp)).mark k hs]
    rfl
  · -- the first child in the role of a name is behind the keyword
    have hpassedRole := hpassed.role_of_isSilent hx
      (fun t ht => hsound t (List.mem_append_left _ ht)) hhead.front
    have hurole : (u.node x).role = none := by
      change u.role = none
      rw [hu, hhead.role]
      rfl
    have hfind := child?_eq_find? .name hnodes
      (fun n hn => by simp [hpassedRole n hn]) (by simp [hurole])
    rw [Declaration.declaredName, hfind] at hd
    split at hd
    · cases hd
    · next named hnamed =>
      obtain ⟨m, noted, filled, hbranch⟩ := hfit.sound.of_construct hw
      have habreast := hbranch.abreast
      rw [hchildren] at habreast
      obtain ⟨j, -, -, habreast⟩ := habreast.split
      exact names_of_filled hx htext hbehind habreast hstop
        (fun t ht => hsound t (List.mem_append_right _ (List.mem_cons_of_mem _ ht))) hleft
        hhead.behind hnamed d hd

/-- **Keywords in trees of scripts.** Wherever the pattern of a keyword matches, the tree accounts
for it. -/
theorem accounted_of_isRoot (hx : x.automaton.grammar = scriptGrammar)
    (htext : x.text = .ofString text) {root : Tree} (h : IsRoot x root) {k : Keyword} {i : Nat}
    {behind blanks name rest : List Char} (hkeyword : text.toList.drop i = k.text.toList ++ behind)
    (hbehind : k.Behind behind blanks name rest) :
    k.Accounted text.toList (root.toNode x) i name := by
  obtain ⟨ch, hch, hblank, hsigns⟩ : ∃ ch, k.text.toList[0]? = some ch ∧ isBlank ch = false ∧
      ch ≠ '?' ∧ ch ≠ '/' := by
    cases k
    · exact ⟨'c', rfl, by decide⟩
    · exact ⟨'f', rfl, by decide⟩
  have hchar : text.toList[i]? = some ch := by
    rw [← Nat.add_zero i, ← List.getElem?_drop, hkeyword,
      List.getElem?_append_left (by cases k <;> decide), hch]
  obtain ⟨w, u, c, q, n, terminal, hbelow, hstart, hstop⟩ :=
    h.exists_leafBelow hx htext hchar hblank
  -- the keyword is found in a leaf, which is the keyword or another text around it
  by_cases hk : terminal = .mark k.text
  · right
    subst hk
    have hne : behind ≠ [] := by
      rw [hbehind.split]
      simp [hbehind.name_ne]
    obtain ⟨hi, hdrop⟩ := keyword_start htext hbelow.leaf hne hkeyword hstart hstop
    have hlt := (List.getElem?_eq_some_iff.1 hchar).1
    rw [← Text.place_ofString text (Nat.le_of_lt hlt), ← htext, ← hi]
    exact hbelow.opens hx htext h hbehind hdrop
  · left
    have hnode := hbelow.hasNode htext hchar hsigns hstart hstop
    obtain ⟨parent, hplaced⟩ := exists_placed hx h (hbelow.leads.tail hbelow.mem) hnode
    refine ⟨u.node x, ?_, Visit.holds_of_leaf htext hbelow.leaf
      (List.getElem?_eq_some_iff.1 hchar).1 hstart hstop, hbelow.kind_ne hx hk⟩
    rw [← Node.map_snd_placed none]
    exact List.mem_map_of_mem hplaced

/-! ## What the tolerant reader reads -/

/-- What the reader of scripts works with. -/
def Context.ofText (text : String) : Context := ⟨script.get, .ofString text⟩

theorem reads_ofText (text : String) : (Context.ofText text).Reads scriptGrammar text where
  automaton := rfl
  text := rfl
  ends := by
    rw [terminals_scriptGrammar, List.getElem?_toArray]
    rfl
  word := List.mem_toArray.2 (by decide)
  contextual := by
    intro t ht
    rw [terminals_scriptGrammar, List.mem_toArray]
    unfold Terminal.isContextual at ht
    split at ht
    all_goals first
      | decide +kernel
      | cases ht

/-- How many steps the reader gives the machine. -/
def fuelFor (text : String) : Nat := 1000 * ((Text.ofString text).size + 100)

/-- The same number, as the reader spells it. -/
theorem fuelFor_eq (text : String) :
    fuelFor text = 1000 * ((Context.ofText text).text.size + 100) := rfl

theorem read_of_best {root : Tree}
    (h : (drive (.ofText text) (fuelFor text) .initial 0).best = some root) :
    read text = root.toNode (.ofText text) := by
  rw [fuelFor_eq, Context.ofText] at h
  rw [read, h, Context.ofText]

theorem read_of_none (h : (drive (.ofText text) (fuelFor text) .initial 0).best = none) :
    read text = ⟨none, .error, .start, "", some .error, true, []⟩ := by
  rw [fuelFor_eq, Context.ofText] at h
  rw [read, h]

theorem damaged_of_best (h : (drive (.ofText text) (fuelFor text) .initial 0).best = none) :
    (read text).damaged := by
  rw [read_of_none h]

/-- **Keywords in what the tolerant reader reads.** Where a text is read without damage, the tree
accounts for every place at which the pattern of a keyword matches. -/
theorem accounted_of_read (hsound : (read text).damaged = false) {k : Keyword} {i : Nat}
    {behind blanks name rest : List Char} (hkeyword : text.toList.drop i = k.text.toList ++ behind)
    (hbehind : k.Behind behind blanks name rest) : k.Accounted text.toList (read text) i name := by
  cases hbest : (drive (.ofText text) (fuelFor text) .initial 0).best with
  | none =>
    rw [damaged_of_best hbest] at hsound
    cases hsound
  | some root =>
    rw [read_of_best hbest] at hsound ⊢
    have hfinished := isFinished_of_drive (reads_ofText text) (fuelFor text) hbest
    rw [(hfinished.nodes_eq rfl).2] at hsound
    have hcost : root.cost = 0 := Nat.eq_zero_of_not_pos (of_decide_eq_false hsound)
    exact accounted_of_isRoot rfl rfl (hfinished.isRoot hcost) hkeyword hbehind

end ScriptInventory.Script.Tolerant
