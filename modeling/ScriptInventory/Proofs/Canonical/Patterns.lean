import ScriptInventory.Proofs.Canonical.Tokens
import ScriptInventory.Proofs.Walk

/-!
# Patterns of canonical programs

The reader of plain scripts takes the tokens of a target and leaves all others. Main
statement: the node that it gives binds the names that the target binds, and nothing in
it is a declaration (`Target.reads`).

The bound on open calls is twice the number of tokens, in all the readers.
-/

namespace ScriptInventory.Canonical

open Script Declaration Plain

/-! ## What nodes bind and declare -/

/-- Nothing in a node is a declaration. -/
def Silent (n : Node) : Prop := ∀ k parent, declaredBelow k parent n = []

/-- A node binds some names, and nothing in it is a declaration. -/
structure Binds (n : Node) (names : List String) : Prop where
  bound : boundNames n = names
  silent : Silent n

theorem boundNames_withRole (n : Node) (role : Role) :
    boundNames (n.withRole role) = boundNames n := by
  cases n
  simp only [Node.withRole, boundNames]

theorem declaredBelow_withRole (k : SymbolKind) (parent : Option Kind) (n : Node) (role : Role) :
    declaredBelow k parent (n.withRole role) = declaredBelow k parent n := by
  rw [declaredBelow_eq, declaredBelow_eq]
  rfl

theorem Silent.withRole {n : Node} (h : Silent n) (role : Role) : Silent (n.withRole role) := by
  intro k parent
  rw [declaredBelow_withRole, h k parent]

theorem declaredBelowAll_of_silent (k : SymbolKind) (parent : Kind) {ns : List Node}
    (h : ∀ n ∈ ns, Silent n) : declaredBelowAll k parent ns = [] := by
  induction ns with
  | nil => rw [declaredBelowAll]
  | cons n rest ih =>
    rw [declaredBelowAll, h n List.mem_cons_self, ih fun m hm => h m (List.mem_cons_of_mem n hm)]
    rfl

/-- A node is silent if it is no declaration itself and its children are silent. -/
theorem silent_of_children {n : Node} (hn : ∀ parent, Shape.classify parent n = none)
    (hchildren : ∀ c ∈ n.children, Silent c) : Silent n := by
  intro k parent
  rw [declaredBelow_eq, declaredBelowAll_of_silent k n.kind hchildren, declaredAt, hn parent]
  rfl

/-- A leaf is silent. -/
theorem silent_leaf {kind : Kind} (place : Place) (text : String)
    (hkind : ∀ parent, Shape.classify parent (.leaf kind place text) = none) :
    Silent (.leaf kind place text) := by
  apply silent_of_children hkind
  intro c hc
  cases hc

theorem boundByRole_withRole (role : Role) (n : Node) (rest : List Node) :
    boundByRole role (n.withRole role :: rest) = boundNames n := by
  rw [boundByRole, if_pos (show (n.withRole role).role = some role from rfl), boundNames_withRole]

theorem Name.text_isEmpty (n : Name) : n.text.isEmpty = false := by
  cases h : n.text.isEmpty with
  | false => rfl
  | true =>
    have hname := n.isName
    rw [String.isEmpty_iff.1 h] at hname
    cases hname

theorem Name.binds (n : Name) (place : Place) :
    Binds (.leaf .identifier place n.text) [n.text] := by
  refine ⟨?_, silent_leaf place n.text fun _ => rfl⟩
  simp [Node.leaf, boundNames, n.text_isEmpty]

theorem Name.binds_shorthand (n : Name) (place : Place) :
    Binds (.leaf .shorthandPropertyIdentifierPattern place n.text) [n.text] := by
  refine ⟨?_, silent_leaf place n.text fun _ => rfl⟩
  simp [Node.leaf, boundNames, n.text_isEmpty]

/-! ## Defaults -/

/-- A default is read, and binds nothing. -/
theorem withDefault?_reads {hasDefault : Bool} {ts : List Token}
    (hts : Spells ts (forms (defaultPieces hasDefault))) {target : Node} {names : List String}
    (htarget : Binds target names) {c : Char} (hc : c ≠ '=') (p : Place) (l : Bool)
    (rest : List Token) :
    ∃ node, withDefault? target (ts ++ ⟨.sign c, p, l⟩ :: rest) =
      some (node, ⟨.sign c, p, l⟩ :: rest) ∧ Binds node names := by
  cases hasDefault with
  | false =>
    simp only [defaultPieces, Bool.false_eq_true, if_false, forms_nil, spells_nil] at hts
    subst hts
    refine ⟨target, ?_, htarget⟩
    rw [List.nil_append, withDefault?]
    rintro _ _ _ ⟨⟩
    exact hc rfl
  | true =>
    simp [defaultPieces, Piece.form?] at hts
    obtain ⟨p₁, p₂, rfl⟩ := hts
    refine ⟨_, rfl, ?_, silent_of_children (fun _ => rfl) ?_⟩
    · rw [Node.branch, boundNames, boundByRole_withRole, htarget.bound]
    · simp only [Node.branch, List.mem_cons, List.not_mem_nil, or_false, forall_eq_or_imp,
        forall_eq]
      exact ⟨htarget.silent.withRole .left, silent_leaf p₂ "1" fun _ => rfl⟩

/-! ## Patterns -/

/-- Nodes bind some names in their order, and nothing in them is a declaration. -/
structure BindAll (ns : List Node) (names : List String) : Prop where
  bound : boundByAll ns = names
  silent : ∀ n ∈ ns, Silent n

theorem bindAll_nil : BindAll [] [] := ⟨by rw [boundByAll], by simp⟩

theorem bindAll_cons {n : Node} {ns : List Node} {a b : List String} (hn : Binds n a)
    (hns : BindAll ns b) : BindAll (n :: ns) (a ++ b) := by
  refine ⟨by rw [boundByAll, hn.bound, hns.bound], ?_⟩
  intro m hm
  rcases List.mem_cons.1 hm with rfl | hm
  · exact hn.silent
  · exact hns.silent m hm

theorem Binds.restPattern {n : Node} {names : List String} (h : Binds n names)
    (hkind : n.kind.isToken = false) (place : Place) :
    Binds (.branch .restPattern place [n]) names := by
  refine ⟨?_, silent_of_children (fun _ => rfl) ?_⟩
  · rw [Node.branch, boundNames, boundByFirst, hkind]
    exact h.bound
  · intro c hc
    rw [List.mem_singleton.1 hc]
    exact h.silent

/-- A target is read as a node that binds its names. -/
def Target.IsRead (t : Target) : Prop :=
  ∀ (fuel : Nat) (ts rest : List Token), Spells ts (forms t.pieces) → 2 * ts.length ≤ fuel →
    ∃ node, pattern? fuel (ts ++ rest) = some (node, rest) ∧ Binds node t.bound ∧
      node.kind.isToken = false

/-- An entry is read as a node that binds its names; a comma or a brace follows it. -/
def Entry.IsRead (e : Entry) : Prop :=
  ∀ (fuel : Nat) (seen : List Node) (ts : List Token) (c : Char) (p : Place) (l : Bool)
    (rest : List Token), Spells ts (forms e.pieces) → 2 * ts.length ≤ fuel →
    c ≠ ':' → c ≠ '=' →
    ∃ node, entries? (fuel + 1) seen (ts ++ ⟨.sign c, p, l⟩ :: rest) =
      moreEntries? fuel (node :: seen) (⟨.sign c, p, l⟩ :: rest) ∧ Binds node e.bound

/-- Entries are read, up to the closing brace. -/
def Entry.AreRead (es : List Entry) : Prop :=
  ∀ (fuel : Nat) (seen : List Node) (ts : List Token) (p : Place) (l : Bool) (rest : List Token),
    Spells ts (forms (Entry.piecesAll es)) → 2 * (ts.length + 1) ≤ fuel →
    ∃ nodes, entries? fuel seen (ts ++ ⟨.sign '}', p, l⟩ :: rest) =
      some (seen.reverse ++ nodes, rest) ∧ BindAll nodes (Entry.boundAll es)

/-- Elements are read, up to the closing bracket. -/
def Element.AreRead (es : List Element) : Prop :=
  ∀ (fuel : Nat) (seen : List Node) (ts : List Token) (p : Place) (l : Bool) (rest : List Token),
    Spells ts (forms (Element.piecesAll es)) → 2 * (ts.length + 1) ≤ fuel →
    ∃ nodes, elements? fuel seen (ts ++ ⟨.sign ']', p, l⟩ :: rest) =
      some (seen.reverse ++ nodes, rest) ∧ BindAll nodes (Element.boundAll es)

theorem Target.isRead_name (n : Name) : (Target.name n).IsRead := by
  intro fuel ts rest hts hfuel
  have hforms : forms (Target.name n).pieces = [.name n.text] := by
    simp [Target.pieces, Piece.form?]
  rw [hforms] at hts
  obtain ⟨p, rfl⟩ := spells_singleton.1 hts
  cases fuel with
  | zero => simp at hfuel
  | succ fuel =>
    refine ⟨.leaf .identifier p n.text, ?_, n.binds p, rfl⟩
    simp [pattern?]

theorem Target.isRead_object {entries : List Entry} (h : Entry.AreRead entries) :
    (Target.object entries).IsRead := by
  intro fuel ts rest hts hfuel
  have hforms : forms (Target.object entries).pieces =
      .sign '{' :: (forms (Entry.piecesAll entries) ++ [.sign '}']) := by
    simp [Target.pieces, Piece.form?]
  rw [hforms] at hts
  obtain ⟨p, _, rfl, hbehind⟩ := spells_cons.1 hts
  obtain ⟨inner, _, rfl, hinner, hclose⟩ := spells_append.1 hbehind
  obtain ⟨q, rfl⟩ := spells_singleton.1 hclose
  cases fuel with
  | zero => simp at hfuel
  | succ fuel =>
    obtain ⟨nodes, hnodes, hbind⟩ := h fuel [] inner q false rest hinner
      (by simp at hfuel; omega)
    refine ⟨.branch .objectPattern p nodes, ?_, ⟨?_, ?_⟩, rfl⟩
    · simp [pattern?, hnodes]
    · rw [Node.branch, boundNames, hbind.bound, Target.bound]
    · exact silent_of_children (fun _ => rfl) hbind.silent

theorem Target.isRead_array {elements : List Element} (h : Element.AreRead elements) :
    (Target.array elements).IsRead := by
  intro fuel ts rest hts hfuel
  have hforms : forms (Target.array elements).pieces =
      .sign '[' :: (forms (Element.piecesAll elements) ++ [.sign ']']) := by
    simp [Target.pieces, Piece.form?]
  rw [hforms] at hts
  obtain ⟨p, _, rfl, hbehind⟩ := spells_cons.1 hts
  obtain ⟨inner, _, rfl, hinner, hclose⟩ := spells_append.1 hbehind
  obtain ⟨q, rfl⟩ := spells_singleton.1 hclose
  cases fuel with
  | zero => simp at hfuel
  | succ fuel =>
    obtain ⟨nodes, hnodes, hbind⟩ := h fuel [] inner q false rest hinner
      (by simp at hfuel; omega)
    refine ⟨.branch .arrayPattern p nodes, ?_, ⟨?_, ?_⟩, rfl⟩
    · simp [pattern?, hnodes]
    · rw [Node.branch, boundNames, hbind.bound, Target.bound]
    · exact silent_of_children (fun _ => rfl) hbind.silent

/-- What a target starts with. -/
theorem Target.forms_eq_cons (t : Target) :
    ∃ f fs, forms t.pieces = f :: fs ∧ f ≠ .sign ']' ∧ f ≠ .sign ',' ∧ f ≠ .dots := by
  cases t <;> simp [Target.pieces, Piece.form?]

theorem Target.length_pos (t : Target) {ts : List Token} (hts : Spells ts (forms t.pieces)) :
    0 < ts.length := by
  obtain ⟨f, fs, hforms, -⟩ := t.forms_eq_cons
  rw [hts.length_eq, hforms]
  exact Nat.succ_pos _

/-! ## Entries -/

theorem Entry.length_pos (e : Entry) {ts : List Token} (hts : Spells ts (forms e.pieces)) :
    0 < ts.length := by
  rw [hts.length_eq]
  cases e <;> simp [Entry.pieces, Piece.form?]

theorem Entry.isRead_shorthand (n : Name) (hasDefault : Bool) :
    (Entry.shorthand n hasDefault).IsRead := by
  intro fuel seen ts c p l rest hts hfuel hcolon hequals
  cases hasDefault with
  | false =>
    have hforms : forms (Entry.shorthand n false).pieces = [.name n.text] := by
      simp [Entry.pieces, defaultPieces, Piece.form?]
    rw [hforms] at hts
    obtain ⟨q, rfl⟩ := spells_singleton.1 hts
    refine ⟨.leaf .shorthandPropertyIdentifierPattern q n.text, ?_, n.binds_shorthand q⟩
    rw [List.singleton_append, entries?]
    · simp [hcolon]
    · simp [hequals]
  | true =>
    have hforms : forms (Entry.shorthand n true).pieces =
        [.name n.text, .sign '=', .number "1"] := by
      simp [Entry.pieces, defaultPieces, Piece.form?]
    rw [hforms] at hts
    obtain ⟨q, _, rfl, hbehind⟩ := spells_cons.1 hts
    obtain ⟨q₁, _, rfl, hvalue⟩ := spells_cons.1 hbehind
    obtain ⟨q₂, rfl⟩ := spells_singleton.1 hvalue
    refine ⟨_, rfl, ?_, silent_of_children (fun _ => rfl) ?_⟩
    · rw [Node.branch, boundNames, boundByRole_withRole, (n.binds_shorthand q).bound]
      rfl
    · simp only [Node.branch, List.mem_cons, List.not_mem_nil, or_false, forall_eq_or_imp,
        forall_eq]
      exact ⟨(n.binds_shorthand q).silent.withRole .left, silent_leaf q₂ "1" fun _ => rfl⟩

theorem Entry.isRead_renamed (key : Name) {target : Target} (htarget : target.IsRead)
    (hasDefault : Bool) : (Entry.renamed key target hasDefault).IsRead := by
  intro fuel seen ts c p l rest hts hfuel hcolon hequals
  have hforms : forms (Entry.renamed key target hasDefault).pieces =
      .name key.text :: .sign ':' :: (forms target.pieces ++ forms (defaultPieces hasDefault)) := by
    simp [Entry.pieces, Piece.form?]
  rw [hforms] at hts
  obtain ⟨q, _, rfl, hbehind⟩ := spells_cons.1 hts
  obtain ⟨q₁, _, rfl, hvalue⟩ := spells_cons.1 hbehind
  obtain ⟨front, back, rfl, hfront, hback⟩ := spells_append.1 hvalue
  obtain ⟨node, hnode, hbinds, -⟩ := htarget fuel front (back ++ ⟨.sign c, p, l⟩ :: rest) hfront
    (by simp at hfuel; omega)
  obtain ⟨whole, hwhole, hbinds⟩ := withDefault?_reads hback hbinds hequals p l rest
  refine ⟨.branch .pairPattern q
    [.leaf .propertyIdentifier q key.text, whole.withRole .value], ?_, ?_, ?_⟩
  · simp only [List.cons_append, List.append_assoc]
    rw [entries?, hnode, Option.bind_some]
    simp only [hwhole]
  · have hkey : ¬ (Node.leaf .propertyIdentifier q key.text).role = some .value := by
      rintro ⟨⟩
    rw [Node.branch, boundNames, boundByRole, if_neg hkey, boundByRole_withRole, hbinds.bound,
      Entry.bound]
  · apply silent_of_children fun _ => rfl
    simp only [Node.branch, List.mem_cons, List.not_mem_nil, or_false, forall_eq_or_imp,
      forall_eq]
    exact ⟨silent_leaf q key.text fun _ => rfl, hbinds.silent.withRole .value⟩

theorem Entry.isRead_rest {target : Target} (htarget : target.IsRead) :
    (Entry.rest target).IsRead := by
  intro fuel seen ts c p l rest hts hfuel hcolon hequals
  have hforms : forms (Entry.rest target).pieces = .dots :: forms target.pieces := by
    simp [Entry.pieces, Piece.form?]
  rw [hforms] at hts
  obtain ⟨q, ts, rfl, hbehind⟩ := spells_cons.1 hts
  obtain ⟨node, hnode, hbinds, hkind⟩ := htarget fuel ts (⟨.sign c, p, l⟩ :: rest) hbehind
    (by simp at hfuel; omega)
  refine ⟨.branch .restPattern q [node], ?_, hbinds.restPattern hkind q⟩
  rw [List.cons_append, entries?, hnode]

theorem Entry.areRead_nil : Entry.AreRead [] := by
  intro fuel seen ts p l rest hts hfuel
  obtain rfl : ts = [] := spells_nil.1 hts
  cases fuel with
  | zero => simp at hfuel
  | succ fuel =>
    refine ⟨[], ?_, bindAll_nil⟩
    rw [List.nil_append, entries?, List.append_nil]

/-- Behind an entry, a comma and the other entries are read, or the brace. -/
theorem moreEntries?_reads {more : List Entry} (hmore : Entry.AreRead more) (fuel : Nat)
    {comma tail : List Token} (p : Place) (l : Bool) (rest : List Token)
    (hcomma : Spells comma (forms (between [.sign ',', .blank] more)))
    (htail : Spells tail (forms (Entry.piecesAll more)))
    (hfuel : 2 * (comma.length + tail.length + 1) ≤ fuel) :
    ∃ c q b after, comma ++ (tail ++ ⟨.sign '}', p, l⟩ :: rest) = ⟨.sign c, q, b⟩ :: after ∧
      c ≠ ':' ∧ c ≠ '=' ∧ ∀ seen, ∃ nodes, moreEntries? fuel seen (⟨.sign c, q, b⟩ :: after) =
        some (seen.reverse ++ nodes, rest) ∧ BindAll nodes (Entry.boundAll more) := by
  cases fuel with
  | zero => simp at hfuel
  | succ fuel =>
    cases more with
    | nil =>
      obtain rfl : tail = [] := spells_nil.1 htail
      obtain rfl : comma = [] := spells_nil.1 hcomma
      refine ⟨'}', p, l, rest, rfl, by decide, by decide, fun seen => ⟨[], ?_, bindAll_nil⟩⟩
      rw [moreEntries?, List.append_nil]
    | cons e more =>
      have hforms : forms (between [.sign ',', .blank] (e :: more)) = [.sign ','] := rfl
      rw [hforms] at hcomma
      obtain ⟨q, rfl⟩ := spells_singleton.1 hcomma
      refine ⟨',', q, false, _, rfl, by decide, by decide, fun seen => ?_⟩
      obtain ⟨nodes, hnodes, hbind⟩ := hmore fuel seen tail p l rest htail
        (by simp at hfuel; omega)
      refine ⟨nodes, ?_, hbind⟩
      rw [moreEntries?, ← hnodes]
      rfl

theorem Entry.areRead_cons {e : Entry} {more : List Entry} (he : e.IsRead)
    (hmore : Entry.AreRead more) : Entry.AreRead (e :: more) := by
  intro fuel seen ts p l rest hts hfuel
  rw [Entry.piecesAll, forms_append, forms_append] at hts
  obtain ⟨_, tail, rfl, hhead, htail⟩ := spells_append.1 hts
  obtain ⟨front, comma, rfl, hfront, hcomma⟩ := spells_append.1 hhead
  simp only [List.length_append] at hfuel
  cases fuel with
  | zero => simp at hfuel
  | succ fuel =>
    have hsome : 0 < front.length := e.length_pos hfront
    obtain ⟨c, q, b, after, htokens, hcolon, hequals, hreads⟩ :=
      moreEntries?_reads hmore fuel p l rest hcomma htail (by omega)
    obtain ⟨node, hnode, hbinds⟩ := he fuel seen front c q b after hfront (by omega) hcolon hequals
    obtain ⟨nodes, hnodes, hbind⟩ := hreads (node :: seen)
    refine ⟨node :: nodes, ?_, bindAll_cons hbinds hbind⟩
    rw [List.append_assoc, List.append_assoc, htokens, hnode, hnodes, List.reverse_cons,
      List.append_assoc, List.singleton_append]

/-! ## Elements -/

/-- An element that is no hole starts as nothing else in the brackets does. -/
theorem elements?_item {t : Target} {ts : List Token} (hts : Spells ts (forms t.pieces))
    {fuel : Nat} {seen : List Node} {rest after : List Token} {element : Node}
    (h : ((pattern? fuel (ts ++ rest)).bind fun r => withDefault? r.1 r.2) =
      some (element, after)) :
    elements? (fuel + 1) seen (ts ++ rest) = moreElements? fuel (element :: seen) after := by
  obtain ⟨f, fs, hforms, hbracket, hcomma, hdots⟩ := t.forms_eq_cons
  rw [hforms] at hts
  obtain ⟨p, ts, rfl, -⟩ := spells_cons.1 hts
  rw [List.cons_append] at h ⊢
  rw [elements?, h]
  · rintro _ _ _ ⟨⟩
    exact hbracket rfl
  · rintro _ _ _ ⟨⟩
    exact hcomma rfl
  · rintro _ _ _ ⟨⟩
    exact hdots rfl

theorem Element.areRead_nil : Element.AreRead [] := by
  intro fuel seen ts p l rest hts hfuel
  obtain rfl : ts = [] := spells_nil.1 hts
  cases fuel with
  | zero => simp at hfuel
  | succ fuel =>
    refine ⟨[], ?_, bindAll_nil⟩
    rw [List.nil_append, elements?, List.append_nil]

theorem Element.areRead_hole {more : List Element} (hmore : Element.AreRead more) :
    Element.AreRead (.hole :: more) := by
  intro fuel seen ts p l rest hts hfuel
  have hforms : forms (Element.piecesAll (.hole :: more)) =
      .sign ',' :: forms (Element.piecesAll more) := by
    cases more <;> simp [Element.piecesAll, between, Piece.form?]
  rw [hforms] at hts
  obtain ⟨q, ts, rfl, hbehind⟩ := spells_cons.1 hts
  cases fuel with
  | zero => simp at hfuel
  | succ fuel =>
    obtain ⟨nodes, hnodes, hbind⟩ := hmore fuel seen ts p l rest hbehind
      (by simp at hfuel; omega)
    refine ⟨nodes, ?_, hbind⟩
    rw [List.cons_append, elements?, hnodes]

/-- Behind an element, a comma and the other elements are read, or the bracket. -/
theorem moreElements?_reads {more : List Element} (hmore : Element.AreRead more) (fuel : Nat)
    {comma tail : List Token} (p : Place) (l : Bool) (rest : List Token)
    (hcomma : Spells comma (forms (between [.sign ',', .blank] more)))
    (htail : Spells tail (forms (Element.piecesAll more)))
    (hfuel : 2 * (comma.length + tail.length + 1) ≤ fuel) :
    ∃ c q b after, comma ++ (tail ++ ⟨.sign ']', p, l⟩ :: rest) = ⟨.sign c, q, b⟩ :: after ∧
      c ≠ '=' ∧ ∀ seen, ∃ nodes, moreElements? fuel seen (⟨.sign c, q, b⟩ :: after) =
        some (seen.reverse ++ nodes, rest) ∧ BindAll nodes (Element.boundAll more) := by
  cases fuel with
  | zero => simp at hfuel
  | succ fuel =>
    cases more with
    | nil =>
      obtain rfl : tail = [] := spells_nil.1 htail
      obtain rfl : comma = [] := spells_nil.1 hcomma
      refine ⟨']', p, l, rest, rfl, by decide, fun seen => ⟨[], ?_, bindAll_nil⟩⟩
      rw [moreElements?, List.append_nil]
    | cons e more =>
      have hforms : forms (between [.sign ',', .blank] (e :: more)) = [.sign ','] := rfl
      rw [hforms] at hcomma
      obtain ⟨q, rfl⟩ := spells_singleton.1 hcomma
      refine ⟨',', q, false, _, rfl, by decide, fun seen => ?_⟩
      obtain ⟨nodes, hnodes, hbind⟩ := hmore fuel seen tail p l rest htail
        (by simp at hfuel; omega)
      refine ⟨nodes, ?_, hbind⟩
      rw [moreElements?, ← hnodes]
      rfl

theorem Element.areRead_item {target : Target} (htarget : target.IsRead) (hasDefault : Bool)
    {more : List Element} (hmore : Element.AreRead more) :
    Element.AreRead (.item target hasDefault :: more) := by
  intro fuel seen ts p l rest hts hfuel
  rw [Element.piecesAll, forms_append, forms_append, forms_append] at hts
  obtain ⟨_, tail, rfl, hhead, htail⟩ := spells_append.1 hts
  obtain ⟨_, comma, rfl, hitem, hcomma⟩ := spells_append.1 hhead
  obtain ⟨front, back, rfl, hfront, hback⟩ := spells_append.1 hitem
  simp only [List.length_append] at hfuel
  cases fuel with
  | zero => simp at hfuel
  | succ fuel =>
    have hsome : 0 < front.length := target.length_pos hfront
    obtain ⟨c, q, b, after, htokens, hequals, hreads⟩ :=
      moreElements?_reads hmore fuel p l rest hcomma htail (by omega)
    obtain ⟨node, hnode, hbinds, -⟩ := htarget fuel front (back ++ ⟨.sign c, q, b⟩ :: after) hfront
      (by omega)
    obtain ⟨whole, hwhole, hbinds⟩ := withDefault?_reads hback hbinds hequals q b after
    obtain ⟨nodes, hnodes, hbind⟩ := hreads (whole :: seen)
    refine ⟨whole :: nodes, ?_, bindAll_cons hbinds hbind⟩
    simp only [List.append_assoc, htokens]
    have hitem : ((pattern? fuel (front ++ (back ++ ⟨.sign c, q, b⟩ :: after))).bind
        fun r => withDefault? r.1 r.2) = some (whole, ⟨.sign c, q, b⟩ :: after) := by
      rw [hnode, Option.bind_some, hwhole]
    rw [elements?_item hfront hitem, hnodes, List.reverse_cons, List.append_assoc,
      List.singleton_append]

theorem Element.areRead_rest {target : Target} (htarget : target.IsRead)
    {more : List Element} (hmore : Element.AreRead more) :
    Element.AreRead (.rest target :: more) := by
  intro fuel seen ts p l rest hts hfuel
  have hforms : forms (Element.piecesAll (.rest target :: more)) =
      .dots :: (forms target.pieces ++ (forms (between [.sign ',', .blank] more) ++
        forms (Element.piecesAll more))) := by
    simp [Element.piecesAll, Piece.form?]
  rw [hforms] at hts
  obtain ⟨q₀, _, rfl, hbehind⟩ := spells_cons.1 hts
  obtain ⟨front, _, rfl, hfront, hback⟩ := spells_append.1 hbehind
  obtain ⟨comma, tail, rfl, hcomma, htail⟩ := spells_append.1 hback
  simp only [List.length_cons, List.length_append] at hfuel
  cases fuel with
  | zero => simp at hfuel
  | succ fuel =>
    obtain ⟨c, q, b, after, htokens, hequals, hreads⟩ :=
      moreElements?_reads hmore fuel p l rest hcomma htail (by omega)
    obtain ⟨node, hnode, hbinds, hkind⟩ := htarget fuel front (⟨.sign c, q, b⟩ :: after) hfront
      (by omega)
    obtain ⟨nodes, hnodes, hbind⟩ := hreads (.branch .restPattern q₀ [node] :: seen)
    refine ⟨.branch .restPattern q₀ [node] :: nodes, ?_,
      bindAll_cons (hbinds.restPattern hkind q₀) hbind⟩
    simp only [List.append_assoc, List.cons_append, htokens]
    rw [elements?, hnode]
    simp only [hnodes, List.reverse_cons, List.append_assoc, List.singleton_append]

/-! ## All targets -/

-- Induction on the trees; the bound on open calls was paid for in each step.

mutual

/-- Every target is read as a node that binds its names. -/
theorem Target.reads : ∀ t : Target, t.IsRead
  | .name n => Target.isRead_name n
  | .object entries => Target.isRead_object (Entry.readsAll entries)
  | .array elements => Target.isRead_array (Element.readsAll elements)

theorem Entry.reads : ∀ e : Entry, e.IsRead
  | .shorthand n hasDefault => Entry.isRead_shorthand n hasDefault
  | .renamed key target hasDefault => Entry.isRead_renamed key target.reads hasDefault
  | .rest target => Entry.isRead_rest target.reads

theorem Entry.readsAll : ∀ es : List Entry, Entry.AreRead es
  | [] => Entry.areRead_nil
  | e :: more => Entry.areRead_cons e.reads (Entry.readsAll more)

theorem Element.readsAll : ∀ es : List Element, Element.AreRead es
  | [] => Element.areRead_nil
  | .hole :: more => Element.areRead_hole (Element.readsAll more)
  | .item target hasDefault :: more =>
    Element.areRead_item target.reads hasDefault (Element.readsAll more)
  | .rest target :: more => Element.areRead_rest target.reads (Element.readsAll more)

end

end ScriptInventory.Canonical
